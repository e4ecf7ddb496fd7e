import SpidirWasm.Logic.Checked

/-! Total-correctness triples: the program does not fail. They compose along a sequence as
the partial ones do, with a fact in front of every check and every lookup. -/

namespace SpidirWasm.Checked

variable {σ α β ι : Type}

/-- Every run of `m` from a state with `P` succeeds and ends with `Q`. -/
def Achieves (P : σ → Prop) (m : Checked σ α) (Q : α → σ → Prop) : Prop := ∀ s, P s → ∃ a t, m s = some (a, t) ∧ Q a t

namespace Achieves

variable {P : σ → Prop} {Q : α → σ → Prop} {R : β → σ → Prop} {m : Checked σ α}

theorem pure {a : α} (h : ∀ s, P s → Q a s) : Achieves P (Pure.pure a) Q := fun s hs => ⟨a, s, rfl, h s hs⟩

theorem update {f : σ → σ} {Q : Unit → σ → Prop} (h : ∀ s, P s → Q () (f s)) : Achieves P (Checked.update f) Q :=
  fun s hs => ⟨(), f s, rfl, h s hs⟩

theorem lift {o : Option α} {a : α} (ho : o = some a) (h : ∀ s, P s → Q a s) : Achieves P (Checked.lift o) Q :=
  fun s hs => ⟨a, s, (lift_eq_some o s (a, s)).mpr ⟨a, ho, rfl⟩, h s hs⟩

theorem bind {x : Checked σ α} {f : α → Checked σ β} (hx : Achieves P x Q) (hf : ∀ a, Achieves (Q a) (f a) R) :
    Achieves P (x >>= f) R := by
  intro s hs
  obtain ⟨a, t, hxs, ht⟩ := hx s hs
  obtain ⟨b, u, hfa, hu⟩ := hf a t ht
  exact ⟨b, u, (bind_eq_some x f s (b, u)).mpr ⟨a, t, hxs, hfa⟩, hu⟩

theorem checkBind {p : Prop} [Decidable p] {f : Unit → Checked σ β} (hp : p) (hf : Achieves P (f ()) R) :
    Achieves P (check p >>= f) R := by
  intro s hs
  obtain ⟨b, t, hfs, ht⟩ := hf s hs
  exact ⟨b, t, (check_bind_eq_some p f s (b, t)).mpr ⟨hp, hfs⟩, ht⟩

theorem liftBind {o : Option α} {a : α} {f : α → Checked σ β} (ho : o = some a) (hf : Achieves P (f a) R) :
    Achieves P (Checked.lift o >>= f) R := by
  intro s hs
  obtain ⟨b, t, hfs, ht⟩ := hf s hs
  exact ⟨b, t, (lift_bind_eq_some o f s (b, t)).mpr ⟨a, ho, hfs⟩, ht⟩

theorem ite {p : Prop} [Decidable p] {x y : Checked σ α} (hx : p → Achieves P x Q) (hy : ¬p → Achieves P y Q) :
    Achieves P (if p then x else y) Q := by
  split_ifs with hp
  · exact hx hp
  · exact hy hp

/-- A loop that keeps `P`. -/
theorem forMem {l : List ι} {f : ι → Checked σ Unit} (h : ∀ i ∈ l, Achieves P (f i) fun _ => P) : Achieves P (l.forM f) fun _ => P := by
  induction l with
  | nil => exact pure fun _ hs => hs
  | cons i l ih => exact bind (h i List.mem_cons_self) fun _ => ih fun j hj => h j (List.mem_cons_of_mem i hj)

theorem forFrom {f : ℕ → Checked σ Unit} {i n : ℕ} (h : ∀ j, i ≤ j → j < i + n → Achieves P (f j) fun _ => P) :
    Achieves P (Checked.forFrom f i n) fun _ => P := by
  induction n generalizing i with
  | zero => exact pure fun _ hs => hs
  | succ n ih => exact bind (h i (Nat.le_refl i) (by omega)) fun _ => ih fun j hj hlt => h j (by omega) (by omega)

end Achieves

end SpidirWasm.Checked
