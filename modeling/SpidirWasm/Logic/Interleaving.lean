import Mathlib.Algebra.Group.Int.Defs
import Mathlib.Algebra.Group.Nat.Defs
import Mathlib.Data.List.Basic
import Mathlib.Data.List.Perm.Basic

/-! Sequences that are run together: at each step one of them, no matter which, is taken a
step further. Where the steps commute, the order is of no account. -/

namespace SpidirWasm

variable {α β : Type}

/-- A run of some sequences together. -/
inductive Interleaves : List (List α) → List α → Prop where
  | nil {ps : List (List α)} (h : ∀ p ∈ ps, p = []) : Interleaves ps []
  | step {ps qs : List (List α)} {a : α} {p h : List α} (rest : Interleaves (ps ++ p :: qs) h) : Interleaves (ps ++ (a :: p) :: qs) (a :: h)

namespace Interleaves

variable {ps : List (List α)} {h : List α}

/-- Every step of every sequence is taken once. -/
theorem perm (hi : Interleaves ps h) : h.Perm ps.flatten := by
  induction hi with
  | nil hp =>
    rw [List.flatten_eq_nil_iff.mpr hp]
  | @step ps qs a p h _ ih =>
    rw [List.flatten_append, List.flatten_cons, List.cons_append]
    rw [List.flatten_append, List.flatten_cons] at ih
    exact (ih.cons a).trans List.perm_middle.symm

/-- Steps that commute lead to where the sequences lead one after the other. -/
theorem foldl_eq (hi : Interleaves ps h) {f : β → α → β} (hf : ∀ c, ∀ a ∈ h, ∀ b ∈ h, f (f c a) b = f (f c b) a) (c : β) :
    h.foldl f c = ps.flatten.foldl f c :=
  hi.perm.foldl_eq' (fun a ha b hb c => hf c a ha b hb) c

end Interleaves

end SpidirWasm
