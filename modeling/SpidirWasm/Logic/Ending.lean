import Mathlib.Tactic.Common

/-! How a piece of C ends. It may also do what the language leaves undefined, such as an
access outside an array or the overflow of a signed counter: that is no failure it reports,
and no postcondition holds of it. -/

namespace SpidirWasm

inductive Ending (α : Type) where
  | ok (a : α)
  | failed
  | undefined
  deriving DecidableEq, Repr, Inhabited

namespace Ending

variable {α β : Type}

protected def bind : Ending α → (α → Ending β) → Ending β
  | ok a, f => f a
  | failed, _ => failed
  | undefined, _ => undefined

instance : Monad Ending where
  pure := ok
  bind := Ending.bind

def ofOption : Option α → Ending α
  | some a => ok a
  | none => failed

/-- The result, where there is one. -/
def result : Ending α → Option α
  | ok a => some a
  | failed => none
  | undefined => none

@[simp] theorem result_ofOption (o : Option α) : (ofOption o).result = o := by
  cases o <;> rfl

/-- It fails, or ends well. -/
def Meets (P : α → Prop) : Ending α → Prop
  | ok a => P a
  | failed => True
  | undefined => False

theorem Meets.mono {P Q : α → Prop} {x : Ending α} (h : x.Meets P) (hPQ : ∀ a, P a → Q a) : x.Meets Q := by
  cases x with
  | ok a => exact hPQ a h
  | failed => trivial
  | undefined => exact h.elim

end Ending

end SpidirWasm
