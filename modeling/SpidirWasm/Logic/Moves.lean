import Mathlib.Logic.Relation
import SpidirWasm.Logic.Checked

/-! Programs that change one component of their state only by given steps. That a
program does is read off its parts, which instance search does. -/

namespace SpidirWasm

open Checked

/-- Every successful run of `m` takes what is seen of the state along steps of `r`. -/
class Moves {σ τ α : Type} (r : τ → τ → Prop) (view : σ → τ) (m : Checked σ α) : Prop where
  moves : ∀ s a t, m s = some (a, t) → Relation.ReflTransGen r (view s) (view t)

namespace Moves

variable {σ τ ρ α β : Type} {r : τ → τ → Prop} {view : σ → τ}

/-- One step is a move. -/
theorem single {m : Checked σ α} (h : ∀ s a t, m s = some (a, t) → r (view s) (view t)) : Moves r view m where
  moves s a t hm := .single (h s a t hm)

/-- A program that leaves the component alone. -/
theorem still {m : Checked σ α} (h : ∀ s a t, m s = some (a, t) → view t = view s) : Moves r view m where
  moves s a t hm := by
    rw [h s a t hm]

instance pure (a : α) : Moves r view (Pure.pure a : Checked σ α) := .still fun s b t h => by
  obtain ⟨-, rfl⟩ := Prod.mk.inj ((pure_eq_some a s (b, t)).mp h)
  rfl

instance check (p : Prop) [Decidable p] : Moves r view (Checked.check p) := .still fun s b t h => by
  obtain ⟨-, h⟩ := (check_eq_some p s (b, t)).mp h
  rw [(Prod.mk.inj h).2]

instance fail : Moves r view (Checked.fail : Checked σ α) := .still fun _ _ _ h => by
  simp at h

instance read (f : σ → α) : Moves r view (Checked.read f) := .still fun s b t h => by
  obtain ⟨-, rfl⟩ := Prod.mk.inj ((read_eq_some f s (b, t)).mp h)
  rfl

instance lift (o : Option α) : Moves r view (Checked.lift o : Checked σ α) := .still fun s b t h => by
  obtain ⟨a, -, h⟩ := (lift_eq_some o s (b, t)).mp h
  rw [(Prod.mk.inj h).2]

instance bind (x : Checked σ α) (f : α → Checked σ β) [hx : Moves r view x] [hf : ∀ a, Moves r view (f a)] :
    Moves r view (x >>= f) where
  moves s b t h := by
    obtain ⟨a, u, h₁, h₂⟩ := (bind_eq_some x f s (b, t)).mp h
    exact (hx.moves s a u h₁).trans ((hf a).moves u b t h₂)

/-- The same with the parts as arguments. -/
theorem seq {x : Checked σ α} {f : α → Checked σ β} (hx : Moves r view x) (hf : ∀ a, Moves r view (f a)) :
    Moves r view (x >>= f) := bind x f

/-- The same for a lookup, of whose result something is known. -/
theorem liftSeq {o : Option α} {f : α → Checked σ β} (hf : ∀ a, o = some a → Moves r view (f a)) :
    Moves r view (Checked.lift o >>= f) where
  moves s b t h := by
    obtain ⟨a, ha, h⟩ := (lift_bind_eq_some o f s (b, t)).mp h
    exact (hf a ha).moves s b t h

instance ite (p : Prop) [Decidable p] (x y : Checked σ α) [Moves r view x] [Moves r view y] :
    Moves r view (if p then x else y) := by
  split_ifs <;> infer_instance

/-- One case of a switch that looks its program up. -/
theorem switch {p : Prop} [Decidable p] {x d : Checked σ α} {o : Option (Checked σ α)} (hx : Moves r view x)
    (ho : Moves r view (o.getD d)) : Moves r view ((if p then some x else o).getD d) := by
  split_ifs
  · exact hx
  · exact ho

instance forFrom (f : ℕ → Checked σ Unit) [h : ∀ i, Moves r view (f i)] (i n : ℕ) :
    Moves r view (Checked.forFrom f i n) := by
  induction n generalizing i with
  | zero => exact pure ()
  | succ n ih =>
    have := ih (i + 1)
    exact bind (f i) fun _ => Checked.forFrom f (i + 1) n

theorem forMem {ι : Type} {l : List ι} {f : ι → Checked σ Unit} (h : ∀ i ∈ l, Moves r view (f i)) : Moves r view (l.forM f) := by
  induction l with
  | nil => exact pure ()
  | cons i l ih => exact .seq (h i List.mem_cons_self) fun _ => ih fun j hj => h j (List.mem_cons_of_mem i hj)

instance forM {ι : Type} (l : List ι) (f : ι → Checked σ Unit) [h : ∀ i, Moves r view (f i)] : Moves r view (l.forM f) :=
  .forMem fun i _ => h i

/-- A program on a part of the state that holds the component. -/
theorem zoom {get : σ → ρ} {put : ρ → σ → σ} {inner : ρ → τ} (m : Checked ρ α) [h : Moves r inner m]
    (hget : ∀ s, inner (get s) = view s) (hput : ∀ s t, view (put t s) = inner t) :
    Moves r view (Checked.zoom get put m) where
  moves s b t hm := by
    obtain ⟨a, u, hu, he⟩ := (zoom_eq_some get put m s (b, t)).mp hm
    obtain ⟨-, rfl⟩ := Prod.mk.inj he
    rw [← hget, hput]
    exact h.moves _ a u hu

/-- A property that every step keeps holds after a run. -/
theorem keeps {m : Checked σ α} (h : Moves r view m) {P : τ → Prop} (hr : ∀ c d, r c d → P c → P d)
    {s t : σ} {a : α} (hm : m s = some (a, t)) (hs : P (view s)) : P (view t) := by
  have run := h.moves s a t hm
  generalize view t = d at run ⊢
  induction run with
  | refl => exact hs
  | tail _ hstep ih => exact hr _ _ hstep ih

/-- Where there are no steps, the component stays as it is. -/
theorem same {m : Checked σ α} (h : Moves (fun _ _ => False) view m) {s t : σ} {a : α} (hm : m s = some (a, t)) : view t = view s :=
  h.keeps (P := (· = view s)) (fun _ _ hr => hr.elim) hm rfl

end Moves

end SpidirWasm
