import SpidirWasm.Logic.Checked
import SpidirWasm.Logic.Ending

/-! State transformers that may do what the language leaves undefined. A program meets a
postcondition when it fails or ends in it; one that does something undefined meets none. -/

namespace SpidirWasm

/-- A state transformer in C. -/
abbrev Raw (σ α : Type) := StateT σ Ending α

namespace Raw

variable {σ τ α β : Type} {s : σ}

/-- Undefined where `p` holds. -/
def forbid (p : Prop) [Decidable p] : Raw σ Unit := fun s => if p then .undefined else .ok ((), s)

/-- A program that is defined wherever it succeeds, on one component of the state. -/
def zoom (get : σ → τ) (put : τ → σ → σ) (m : Checked τ α) : Raw σ α :=
  fun s => (Ending.ofOption (m (get s))).bind fun r => .ok (r.1, put r.2 s)

def lift (o : Option α) : Raw σ α := fun s => (Ending.ofOption o).bind fun a => .ok (a, s)

def update (f : σ → σ) : Raw σ Unit := fun s => .ok ((), f s)

/-- `f i`, ..., `f (i + n - 1)` in order. -/
def forFrom (f : ℕ → Raw σ Unit) : ℕ → ℕ → Raw σ Unit
  | _, 0 => pure ()
  | i, n + 1 => do f i; forFrom f (i + 1) n

/-- The same with an `int` for the counter, which must not pass `2 ^ 31 - 1`. -/
def forInt (f : ℕ → Raw σ Unit) : ℕ → ℕ → Raw σ Unit
  | _, 0 => pure ()
  | i, n + 1 => do
    f i
    forbid (2 ^ 31 ≤ i + 1)
    forInt f (i + 1) n

theorem bind_ok {x : Raw σ α} {a : α} {t : σ} (h : x s = .ok (a, t)) (f : α → Raw σ β) : (x >>= f) s = f a t := by
  change (x s).bind _ = _
  rw [h]
  rfl

theorem bind_failed {x : Raw σ α} (h : x s = .failed) (f : α → Raw σ β) : (x >>= f) s = .failed := by
  change (x s).bind _ = _
  rw [h]
  rfl

theorem bind_undefined {x : Raw σ α} (h : x s = .undefined) (f : α → Raw σ β) : (x >>= f) s = .undefined := by
  change (x s).bind _ = _
  rw [h]
  rfl

theorem lift_some (a : α) (s : σ) : lift (some a) s = .ok (a, s) := rfl

theorem forbid_true {p : Prop} [Decidable p] (h : p) (s : σ) : forbid p s = .undefined := if_pos h

theorem forbid_false {p : Prop} [Decidable p] (h : ¬p) (s : σ) : forbid p s = .ok ((), s) := if_neg h

theorem zoom_some {get : σ → τ} {put : τ → σ → σ} {m : Checked τ α} {a : α} {t : τ} (h : m (get s) = some (a, t)) :
    zoom get put m s = .ok (a, put t s) := by
  rw [zoom, h]
  rfl

theorem zoom_none {get : σ → τ} {put : τ → σ → σ} {m : Checked τ α} (h : m (get s) = none) : zoom get put m s = .failed := by
  rw [zoom, h]
  rfl

theorem forInt_succ {f : ℕ → Raw σ Unit} {i n : ℕ} {t : σ} (h : f i s = .ok ((), t)) (hi : i + 1 < 2 ^ 31) :
    forInt f i (n + 1) s = forInt f (i + 1) n t := by
  rw [forInt, bind_ok h, bind_ok (forbid_false (Nat.not_le.mpr hi) t)]

/-- A loop whose counter overflows, or whose body goes wrong on the way, whatever it did before. -/
theorem forInt_undefined {I : σ → Prop} {f : ℕ → Raw σ Unit} {i n : ℕ} (hn : 0 < n) (hs : I s)
    (step : ∀ j < n, ∀ s, I s → f (i + j) s = .undefined ∨ ∃ t, f (i + j) s = .ok ((), t) ∧ I t)
    (wrong : 2 ^ 31 ≤ i + n ∨ ∃ j < n, ∀ s, I s → f (i + j) s = .undefined) : forInt f i n s = .undefined := by
  induction n generalizing i s with
  | zero => exact absurd hn (Nat.lt_irrefl 0)
  | succ n ih =>
    obtain hu | ⟨t, ht, hI⟩ := step 0 (Nat.succ_pos n) s hs
    · exact bind_undefined hu _
    by_cases hi : 2 ^ 31 ≤ i + 1
    · rw [forInt, bind_ok (show f i s = _ from ht)]
      exact bind_undefined (forbid_true hi t) _
    rw [forInt_succ (show f i s = _ from ht) (Nat.lt_of_not_le hi)]
    have shift (j : ℕ) : i + 1 + j = i + (j + 1) := by omega
    -- the first body did not go wrong, so a later one does, or the counter
    have later : 2 ^ 31 ≤ i + 1 + n ∨ ∃ j < n, ∀ s, I s → f (i + 1 + j) s = .undefined := by
      obtain h | ⟨j, hj, h⟩ := wrong
      · exact .inl (by omega)
      · cases j with
        | zero => exact absurd (ht.symm.trans (h s hs)) (fun h => nomatch h)
        | succ j => exact .inr ⟨j, Nat.lt_of_succ_lt_succ hj, shift j ▸ h⟩
    have hpos : 0 < n := by
      obtain h | ⟨j, hj, -⟩ := later
      · omega
      · exact Nat.zero_lt_of_lt hj
    exact ih hpos hI (fun j hj => shift j ▸ step (j + 1) (Nat.succ_lt_succ hj)) later

end Raw

end SpidirWasm
