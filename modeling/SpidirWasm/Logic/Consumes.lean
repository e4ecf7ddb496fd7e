import SpidirWasm.Logic.Checked

/-! Programs that read the front of an input and look at nothing behind it. What such a
program did, it does as well in front of any other input. -/

namespace SpidirWasm

open Checked

/-- What `m` reads in a successful run is a prefix of the input, and it is all that the run depends on. -/
class Consumes {σ β α : Type} (input : σ → List β) (withInput : List β → σ → σ) (m : Checked σ α) : Prop where
  consumes : ∀ s a t, m s = some (a, t) → ∃ used, input s = used ++ input t ∧
    ∀ rest, m (withInput (used ++ rest) s) = some (a, withInput rest t)

namespace Consumes

variable {σ τ β α γ : Type} {input : σ → List β} {withInput : List β → σ → σ}

/-- A program that reads nothing. -/
theorem nothing {m : Checked σ α} (h : ∀ s a t, m s = some (a, t) → input t = input s)
    (h' : ∀ s a t rest, m s = some (a, t) → m (withInput rest s) = some (a, withInput rest t)) : Consumes input withInput m where
  consumes s a t hm := ⟨[], (h s a t hm).symm, fun rest => h' s a t rest hm⟩

instance pure (a : α) : Consumes input withInput (Pure.pure a : Checked σ α) where
  consumes s b t h := by
    obtain ⟨rfl, rfl⟩ := Prod.mk.inj ((pure_eq_some a s (b, t)).mp h)
    exact ⟨[], rfl, fun _ => rfl⟩

instance check (p : Prop) [Decidable p] : Consumes input withInput (Checked.check p) where
  consumes s b t h := by
    obtain ⟨hp, h⟩ := (check_eq_some p s (b, t)).mp h
    obtain ⟨rfl, rfl⟩ := Prod.mk.inj h
    exact ⟨[], rfl, fun _ => (check_eq_some p _ _).mpr ⟨hp, rfl⟩⟩

instance fail : Consumes input withInput (Checked.fail : Checked σ α) where
  consumes _ _ _ h := by simp at h

instance lift (o : Option α) : Consumes input withInput (Checked.lift o : Checked σ α) where
  consumes s b t h := by
    obtain ⟨a, ha, h⟩ := (lift_eq_some o s (b, t)).mp h
    obtain ⟨rfl, rfl⟩ := Prod.mk.inj h
    exact ⟨[], rfl, fun _ => (lift_eq_some o _ _).mpr ⟨b, ha, rfl⟩⟩

instance bind (x : Checked σ α) (f : α → Checked σ γ) [hx : Consumes input withInput x]
    [hf : ∀ a, Consumes input withInput (f a)] : Consumes input withInput (x >>= f) where
  consumes s c t h := by
    obtain ⟨a, u, h₁, h₂⟩ := (bind_eq_some x f s (c, t)).mp h
    obtain ⟨used, hs, run⟩ := hx.consumes s a u h₁
    obtain ⟨used', hu, run'⟩ := (hf a).consumes u c t h₂
    refine ⟨used ++ used', by rw [hs, hu, List.append_assoc], fun rest => ?_⟩
    rw [List.append_assoc]
    exact (bind_eq_some x f _ _).mpr ⟨a, _, run _, run' rest⟩

instance ite (p : Prop) [Decidable p] (x y : Checked σ α) [Consumes input withInput x] [Consumes input withInput y] :
    Consumes input withInput (if p then x else y) := by
  split_ifs <;> infer_instance

/-- One case of a switch that looks its program up. -/
theorem switch {p : Prop} [Decidable p] {x d : Checked σ α} {o : Option (Checked σ α)} (hx : Consumes input withInput x)
    (ho : Consumes input withInput (o.getD d)) : Consumes input withInput ((if p then some x else o).getD d) := by
  split_ifs
  · exact hx
  · exact ho

instance forFrom (f : ℕ → Checked σ Unit) [h : ∀ i, Consumes input withInput (f i)] (i n : ℕ) :
    Consumes input withInput (Checked.forFrom f i n) := by
  induction n generalizing i with
  | zero => exact pure ()
  | succ n ih =>
    have := ih (i + 1)
    exact bind (f i) fun _ => Checked.forFrom f (i + 1) n

/-- A program on the part of the state that holds the input. -/
theorem zoom {get : σ → τ} {put : τ → σ → σ} {inner : τ → List β} {withInner : List β → τ → τ} (m : Checked τ α)
    [h : Consumes inner withInner m] (hget : ∀ s, inner (get s) = input s) (hput : ∀ s t, input (put t s) = inner t)
    (hwith : ∀ s rest, get (withInput rest s) = withInner rest (get s))
    (hback : ∀ s t rest rest', put (withInner rest t) (withInput rest' s) = withInput rest (put t s)) :
    Consumes input withInput (Checked.zoom get put m) where
  consumes s b t hm := by
    obtain ⟨a, u, hu, he⟩ := (zoom_eq_some get put m s (b, t)).mp hm
    obtain ⟨rfl, rfl⟩ := Prod.mk.inj he
    obtain ⟨used, hs, run⟩ := h.consumes _ _ _ hu
    refine ⟨used, by rw [← hget, hput, hs], fun rest => (zoom_eq_some get put m _ _).mpr ⟨b, withInner rest u, ?_, ?_⟩⟩
    · exact (congrArg m (hwith s (used ++ rest))).trans (run rest)
    · rw [hback]

theorem suffix {m : Checked σ α} (h : Consumes input withInput m) {s t : σ} {a : α} (hm : m s = some (a, t)) :
    input t <:+ input s := by
  obtain ⟨used, hs, -⟩ := h.consumes s a t hm
  exact hs ▸ List.suffix_append used _

end Consumes

end SpidirWasm
