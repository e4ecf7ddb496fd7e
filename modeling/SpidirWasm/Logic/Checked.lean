import Mathlib.Algebra.Group.Int.Defs
import Mathlib.Algebra.Group.Nat.Defs
import Mathlib.Data.Option.Basic
import Mathlib.Logic.Basic
import Mathlib.Tactic.Common

/-! Programs that read and write a state and may fail without a result. A
failed run leaves no state behind, so a successful run of a sequence splits
into successful runs of its parts; the inversion lemmas say so and are simp
lemmas. Partial-correctness triples compose along the same sequence. -/

namespace SpidirWasm

/-- A state transformer that may fail. -/
abbrev Checked (σ α : Type) := StateT σ Option α

namespace Checked

variable {σ τ α β : Type}

/-- Fail unless `p` holds. -/
def check (p : Prop) [Decidable p] : Checked σ Unit := fun s => if p then some ((), s) else none

def fail : Checked σ α := fun _ => none

def read (f : σ → α) : Checked σ α := fun s => some (f s, s)

def update (f : σ → σ) : Checked σ Unit := fun s => some ((), f s)

/-- A lookup that fails when there is nothing to find. -/
def lift (o : Option α) : Checked σ α := fun s => o.map fun a => (a, s)

/-- Run a program on one component of the state. -/
def zoom (get : σ → τ) (put : τ → σ → σ) (m : Checked τ α) : Checked σ α :=
  fun s => (m (get s)).map fun r => (r.1, put r.2 s)

/-- `f 0`, ..., `f (n - 1)` in order, from index `i` on. -/
def forFrom (f : ℕ → Checked σ Unit) : ℕ → ℕ → Checked σ Unit
  | _, 0 => pure ()
  | i, n + 1 => do f i; forFrom f (i + 1) n

/-! ### Inversion -/

@[simp low] theorem bind_eq_some (x : Checked σ α) (f : α → Checked σ β) (s : σ) (r : β × σ) :
    (x >>= f) s = some r ↔ ∃ a t, x s = some (a, t) ∧ f a t = some r := by
  simp [bind, StateT.bind, Option.bind_eq_some_iff]

@[simp] theorem pure_eq_some (a : α) (s : σ) (r : α × σ) :
    (pure a : Checked σ α) s = some r ↔ r = (a, s) := by
  show some (a, s) = some r ↔ r = (a, s)
  rw [Option.some_inj, eq_comm]

@[simp] theorem check_eq_some (p : Prop) [Decidable p] (s : σ) (r : Unit × σ) :
    (check p : Checked σ Unit) s = some r ↔ p ∧ r = ((), s) := by
  by_cases h : p <;> simp [check, h, eq_comm]

@[simp] theorem fail_eq_some (s : σ) (r : α × σ) : (fail : Checked σ α) s = some r ↔ False := by
  simp [fail]

@[simp] theorem read_eq_some (f : σ → α) (s : σ) (r : α × σ) :
    read f s = some r ↔ r = (f s, s) := by
  simp [read, eq_comm]

@[simp] theorem update_eq_some (f : σ → σ) (s : σ) (r : Unit × σ) :
    update f s = some r ↔ r = ((), f s) := by
  simp [update, eq_comm]

@[simp] theorem lift_eq_some (o : Option α) (s : σ) (r : α × σ) :
    (lift o : Checked σ α) s = some r ↔ ∃ a, o = some a ∧ r = (a, s) := by
  cases o <;> simp [lift, eq_comm]

@[simp] theorem zoom_eq_some (get : σ → τ) (put : τ → σ → σ) (m : Checked τ α) (s : σ) (r : α × σ) :
    zoom get put m s = some r ↔ ∃ a t, m (get s) = some (a, t) ∧ r = (a, put t s) := by
  simp only [zoom, Option.map_eq_some_iff, Prod.exists]
  constructor
  · rintro ⟨a, t, h, rfl⟩; exact ⟨a, t, h, rfl⟩
  · rintro ⟨a, t, h, rfl⟩; exact ⟨a, t, h, rfl⟩

/-! The same for a primitive in front, where the intermediate state is known. -/

@[simp] theorem pure_bind_apply (a : α) (f : α → Checked σ β) (s : σ) : (pure a >>= f : Checked σ β) s = f a s := rfl

@[simp] theorem read_bind (g : σ → α) (f : α → Checked σ β) (s : σ) : (read g >>= f) s = f (g s) s := rfl

@[simp] theorem get_bind (f : σ → Checked σ β) (s : σ) : ((get : Checked σ σ) >>= f) s = f s s := rfl

@[simp] theorem update_bind (g : σ → σ) (f : Unit → Checked σ β) (s : σ) : (update g >>= f) s = f () (g s) := rfl

@[simp] theorem set_bind (t : σ) (f : PUnit → Checked σ β) (s : σ) :
    ((set t : Checked σ PUnit) >>= f) s = f ⟨⟩ t := rfl

@[simp] theorem check_bind_eq_some (p : Prop) [Decidable p] (f : Unit → Checked σ β) (s : σ) (r : β × σ) :
    (check p >>= f) s = some r ↔ p ∧ f () s = some r := by
  rw [bind_eq_some]
  constructor
  · rintro ⟨_, _, hc, h⟩
    obtain ⟨hp, he⟩ := (check_eq_some p s _).mp hc
    obtain ⟨rfl, rfl⟩ := Prod.mk.inj he
    exact ⟨hp, h⟩
  · rintro ⟨hp, h⟩
    exact ⟨(), s, (check_eq_some p s _).mpr ⟨hp, rfl⟩, h⟩

theorem check_bind (p : Prop) [Decidable p] (f : Unit → Checked σ β) (s : σ) :
    (check p >>= f) s = if p then f () s else none := by
  apply Option.ext
  intro r
  rw [check_bind_eq_some]
  by_cases h : p <;> simp [h]

@[simp] theorem fail_bind_eq_some (f : α → Checked σ β) (s : σ) (r : β × σ) :
    ((fail : Checked σ α) >>= f) s = some r ↔ False := by
  simp only [bind_eq_some, fail_eq_some, false_and, exists_false]

@[simp] theorem lift_bind_eq_some (o : Option α) (f : α → Checked σ β) (s : σ) (r : β × σ) :
    (lift o >>= f) s = some r ↔ ∃ a, o = some a ∧ f a s = some r := by
  simp only [bind_eq_some, lift_eq_some, Prod.mk.injEq]
  exact ⟨fun ⟨_, _, ⟨a, ho, ha, ht⟩, h⟩ => ⟨a, ho, ha ▸ ht ▸ h⟩, fun ⟨a, ho, h⟩ => ⟨a, s, ⟨a, ho, rfl, rfl⟩, h⟩⟩

@[simp] theorem zoom_bind_eq_some (get : σ → τ) (put : τ → σ → σ) (m : Checked τ α) (f : α → Checked σ β) (s : σ)
    (r : β × σ) : (zoom get put m >>= f) s = some r ↔ ∃ a t, m (get s) = some (a, t) ∧ f a (put t s) = some r := by
  simp only [bind_eq_some, zoom_eq_some, Prod.mk.injEq]
  exact ⟨fun ⟨_, _, ⟨a, t, hm, ha, ht⟩, h⟩ => ⟨a, t, hm, ha ▸ ht ▸ h⟩, fun ⟨a, t, hm, h⟩ => ⟨a, _, ⟨a, t, hm, rfl, rfl⟩, h⟩⟩

theorem bind_apply (x : Checked σ α) (f : α → Checked σ β) (s : σ) :
    (x >>= f) s = (x s).bind fun r => f r.1 r.2 := rfl

/-- A loop over a list runs for every element. -/
theorem forM_eq_some_mem {ι : Type} {l : List ι} {f : ι → Checked σ Unit} {x : ι} {s t : σ} (hrun : l.forM f s = some ((), t)) (hx : x ∈ l) :
    ∃ s t, f x s = some ((), t) := by
  induction l generalizing s with
  | nil => cases hx
  | cons y l ih =>
    rw [List.forM_eq_forM, List.forM_cons] at hrun
    obtain ⟨_, u, hfirst, hrest⟩ := (bind_eq_some _ _ _ _).mp hrun
    obtain rfl | hx := List.mem_cons.mp hx
    · exact ⟨s, u, hfirst⟩
    · exact ih hrest hx

/-! ### Triples -/

/-- Every successful run of `m` from a state with `P` ends with `Q`. -/
def Ensures (P : σ → Prop) (m : Checked σ α) (Q : α → σ → Prop) : Prop :=
  ∀ s a t, P s → m s = some (a, t) → Q a t

namespace Ensures

variable {P : σ → Prop} {Q : α → σ → Prop} {R : β → σ → Prop}

theorem bind {x : Checked σ α} {f : α → Checked σ β} (hx : Ensures P x Q)
    (hf : ∀ a, Ensures (Q a) (f a) R) : Ensures P (x >>= f) R := by
  intro s b t hs h
  obtain ⟨a, u, h₁, h₂⟩ := (bind_eq_some x f s (b, t)).mp h
  exact hf a u b t (hx s a u hs h₁) h₂

theorem forFrom {f : ℕ → Checked σ Unit} (h : ∀ i, Ensures P (f i) fun _ => P) (i n : ℕ) :
    Ensures P (Checked.forFrom f i n) fun _ => P := by
  induction n generalizing i with
  | zero => intro s a t hs hm; simp [Checked.forFrom] at hm; exact hm ▸ hs
  | succ n ih => exact bind (h i) fun _ => ih (i + 1)

end Ensures

end Checked

end SpidirWasm
