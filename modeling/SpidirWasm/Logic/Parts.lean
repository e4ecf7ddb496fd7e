import SpidirWasm.Logic.Layout

/-! Buffers that are put together from parts. Parts that lie behind each other are all read
back. -/

namespace SpidirWasm.Memory

variable {β : Type} {mem mem' : Memory β} {start mid stop : ℕ} {ps qs : List (ℕ × List β)} {p : ℕ × List β}

/-- Store all parts, each of them bytes at an offset. -/
def storeAll (ps : List (ℕ × List β)) (mem : Memory β) : Option (Memory β) := ps.foldlM (fun mem p => mem.store p.1 p.2) mem

/-- Every part starts behind the one in front of it; between them there may be gaps. -/
def Stacked : ℕ → List (ℕ × List β) → ℕ → Prop
  | start, [], stop => start ≤ stop
  | start, p :: ps, stop => start ≤ p.1 ∧ Stacked (p.1 + p.2.length) ps stop

/-- Two ranges do not overlap. -/
def Apart (r r' : ℕ × ℕ) : Prop := r.1 + r.2 ≤ r'.1 ∨ r'.1 + r'.2 ≤ r.1

/-- The range of a part. -/
def range (p : ℕ × List β) : ℕ × ℕ := (p.1, p.2.length)

theorem Stacked.le (h : Stacked start ps stop) : start ≤ stop := by
  induction ps generalizing start with
  | nil => exact h
  | cons p ps ih => exact Nat.le_trans h.1 (Nat.le_trans (Nat.le_add_right _ _) (ih h.2))

theorem Stacked.append (h : Stacked start ps mid) (h' : Stacked mid qs stop) : Stacked start (ps ++ qs) stop := by
  induction ps generalizing start with
  | nil =>
    cases qs with
    | nil => exact Nat.le_trans h h'
    | cons q qs => exact ⟨Nat.le_trans h h'.1, h'.2⟩
  | cons p ps ih => exact ⟨h.1, ih h.2⟩

theorem Stacked.inside (h : Stacked start ps stop) (hp : p ∈ ps) : start ≤ p.1 ∧ p.1 + p.2.length ≤ stop := by
  induction ps generalizing start with
  | nil => cases hp
  | cons q ps ih =>
    obtain rfl | hp := List.mem_cons.mp hp
    · exact ⟨h.1, h.2.le⟩
    · obtain ⟨hstart, hstop⟩ := ih h.2 hp
      exact ⟨Nat.le_trans h.1 (Nat.le_trans (Nat.le_add_right _ _) hstart), hstop⟩

theorem Stacked.apart (h : Stacked start ps stop) : (ps.map range).Pairwise Apart := by
  induction ps generalizing start with
  | nil => exact .nil
  | cons p ps ih =>
    refine List.pairwise_cons.mpr ⟨fun r hr => ?_, ih h.2⟩
    obtain ⟨q, hq, rfl⟩ := List.mem_map.mp hr
    exact .inl (h.2.inside hq).1

theorem store_covers (hs : mem.store p.1 p.2 = some mem') {a len : ℕ} : mem'.Covers a len ↔ mem.Covers a len := by
  obtain ⟨hc, rfl⟩ := store_eq_some.mp hs
  have same (b : ℕ) : (mem.write p.1 p.2 b).isSome = (mem b).isSome := by
    by_cases hb : p.1 ≤ b ∧ b < p.1 + p.2.length
    · have there := hc (b - p.1) (by omega)
      rw [Nat.add_sub_cancel' hb.1] at there
      rw [write_of_mem hb.1 hb.2, there, Option.isSome_some]
    · rw [write_of_not_mem (by omega)]
  exact forall₂_congr fun i _ => by rw [same]

theorem storeAll_covers (hs : storeAll ps mem = some mem') {a len : ℕ} : mem'.Covers a len ↔ mem.Covers a len := by
  induction ps generalizing mem with
  | nil =>
    obtain rfl := Option.some.inj hs
    rfl
  | cons p ps ih =>
    obtain ⟨mem₁, h₁, h₂⟩ := Option.bind_eq_some_iff.mp hs
    exact (ih h₂).trans (store_covers h₁)

/-- What lies apart from all the parts stays as it was. -/
theorem storeAll_load_of_apart {a len : ℕ} (hs : storeAll ps mem = some mem') (h : ∀ p ∈ ps, Apart (range p) (a, len)) :
    mem'.load a len = mem.load a len := by
  induction ps generalizing mem with
  | nil =>
    obtain rfl := Option.some.inj hs
    rfl
  | cons p ps ih =>
    obtain ⟨mem₁, h₁, h₂⟩ := Option.bind_eq_some_iff.mp hs
    obtain ⟨-, rfl⟩ := store_eq_some.mp h₁
    rw [ih h₂ fun q hq => h q (List.mem_cons_of_mem p hq)]
    exact load_write_of_disjoint (h p List.mem_cons_self)

/-- Parts that lie apart are read back. -/
theorem storeAll_load (hs : storeAll ps mem = some mem') (h : (ps.map range).Pairwise Apart) (hp : p ∈ ps) :
    mem'.load p.1 p.2.length = some p.2 := by
  induction ps generalizing mem with
  | nil => cases hp
  | cons q ps ih =>
    obtain ⟨mem₁, h₁, h₂⟩ := Option.bind_eq_some_iff.mp hs
    rw [List.map_cons, List.pairwise_cons] at h
    obtain rfl | hp := List.mem_cons.mp hp
    · obtain ⟨-, rfl⟩ := store_eq_some.mp h₁
      have later : ∀ q ∈ ps, Apart (range q) (p.1, p.2.length) := fun q hq => (h.1 _ (List.mem_map_of_mem hq)).symm
      rw [storeAll_load_of_apart h₂ later, load_write_self]
    · exact ih h₂ h.2 hp

/-- Parts that lie in what is mapped can all be stored. -/
theorem storeAll_isSome (h : ∀ p ∈ ps, mem.Covers p.1 p.2.length) : (storeAll ps mem).isSome := by
  induction ps generalizing mem with
  | nil => rfl
  | cons p ps ih =>
    have stored : mem.store p.1 p.2 = some (mem.write p.1 p.2) := if_pos (h p List.mem_cons_self)
    have rest : (storeAll ps (mem.write p.1 p.2)).isSome := ih fun q hq => (store_covers stored).mpr (h q (List.mem_cons_of_mem p hq))
    rw [storeAll, List.foldlM_cons, stored]
    exact rest

end SpidirWasm.Memory
