import SpidirWasm.Util.HmapRuns

/-! The slots that a search passes. The first `2 ^ k` steps of the probe sequence are a
permutation of the slots, so a search that is not stopped by a slot has looked at all
of them. -/

namespace SpidirWasm.Util.Hmap

open Probing

variable {t : Hmap} {key i j n hash : ℕ} {findFree : Bool}

/-- No slot is probed twice. -/
theorem probeSlot_injOn (horder : t.capOrder ≤ 25) (hi : i < t.capacity) (hj : j < t.capacity)
    (h : t.probeSlot hash i = t.probeSlot hash j) : i = j := by
  rw [probeSlot_eq horder, probeSlot_eq horder] at h
  have same : triangular i ≡ triangular j [MOD 2 ^ t.capOrder] := Nat.ModEq.add_left_cancel' hash h
  rcases Nat.lt_trichotomy i j with hlt | heq | hlt
  · exact absurd same (triangular_ne_of_lt hlt hj)
  · exact heq
  · exact absurd same.symm (triangular_ne_of_lt hlt hi)

/-- Every slot is probed once. -/
theorem existsUnique_probe (horder : t.capOrder ≤ 25) (hash : ℕ) (hj : j < t.capacity) :
    ∃! i, i < t.capacity ∧ t.probeSlot hash i = j := by
  obtain ⟨i, hi, hprobe⟩ := exists_probe t.capOrder hash hj
  rw [← probeSlot_eq horder] at hprobe
  refine ⟨i, ⟨hi, hprobe⟩, ?_⟩
  rintro i' ⟨hi', hprobe'⟩
  exact probeSlot_injOn horder hi' hi (hprobe'.trans hprobe.symm)

/-- The way through the table passes each slot once. -/
theorem probes_perm (horder : t.capOrder ≤ 25) (key : ℕ) : ((List.range t.capacity).map (t.probe key)).Perm (List.range t.capacity) := by
  have nodup : ((List.range t.capacity).map (t.probe key)).Nodup := by
    refine List.Nodup.map_on (fun i hi j hj h => ?_) List.nodup_range
    exact probeSlot_injOn horder (List.mem_range.mp hi) (List.mem_range.mp hj) h
  have inside : (List.range t.capacity).map (t.probe key) ⊆ List.range t.capacity := by
    intro j hj
    obtain ⟨i, -, rfl⟩ := List.mem_map.mp hj
    exact List.mem_range.mpr (t.probe_lt key i)
  exact (List.subperm_of_subset nodup inside).perm_of_length_le (by simp)

/-! ### The slots of one search -/

/-- The loop of `hmap_find_slot` with the slots that it looks at. -/
def tracedFrom (t : Hmap) (key : ℕ) (findFree : Bool) : ℕ → ℕ → Option ℕ × List ℕ
  | 0, _ => (none, [])
  | n + 1, i =>
    let j := t.probe key i
    let rest := t.tracedFrom key findFree n (i + 1)
    match (t.slot j).state with
    | .used => if (t.slot j).key = key then (some j, [j]) else (rest.1, j :: rest.2)
    | .free => if findFree then (some j, [j]) else (none, [j])
    | .tombstone => if findFree then (some j, [j]) else (rest.1, j :: rest.2)

theorem tracedFrom_fst (t : Hmap) (key : ℕ) (findFree : Bool) (n i : ℕ) :
    (t.tracedFrom key findFree n i).1 = t.findFrom key findFree n i := by
  induction n generalizing i with
  | zero => rfl
  | succ n ih =>
    rw [tracedFrom, findFrom]
    cases (t.slot (t.probe key i)).state with
    | used =>
      simp only
      split_ifs
      · rfl
      · exact ih (i + 1)
    | free =>
      simp only
      split_ifs <;> rfl
    | tombstone =>
      simp only
      split_ifs
      · rfl
      · exact ih (i + 1)

instance : Decidable (t.Holds j key) := inferInstanceAs (Decidable (_ ∧ _))

/-- The slots that a search for a key alone looks at. -/
def lookedAt (t : Hmap) (key : ℕ) : List ℕ := (t.tracedFrom key false t.capacity 0).2

/-- A search that meets neither its key nor a free slot goes on to the end. -/
theorem tracedFrom_eq (h : ∀ j ∈ (t.tracedFrom key false n i).2, ¬t.Holds j key ∧ (t.slot j).state ≠ .free) :
    (t.tracedFrom key false n i).2 = (List.range' i n).map (t.probe key) := by
  induction n generalizing i with
  | zero => rfl
  | succ n ih =>
    rw [List.range'_succ, List.map_cons]
    simp only [tracedFrom] at h ⊢
    cases hs : (t.slot (t.probe key i)).state with
    | used =>
      simp only [hs] at h ⊢
      split_ifs at h ⊢ with hkey
      · exact absurd ⟨hs, hkey⟩ (h _ List.mem_cons_self).1
      · rw [ih fun j hj => h j (List.mem_cons_of_mem _ hj)]
    | free =>
      simp only [hs] at h
      exact absurd hs (h _ List.mem_cons_self).2
    | tombstone =>
      simp only [hs] at h ⊢
      rw [if_neg Bool.false_ne_true] at h ⊢
      rw [ih fun j hj => h j (List.mem_cons_of_mem _ hj)]

theorem lookedAt_perm (horder : t.capOrder ≤ 25) (h : ∀ j ∈ t.lookedAt key, ¬t.Holds j key ∧ (t.slot j).state ≠ .free) :
    (t.lookedAt key).Perm (List.range t.capacity) := by
  rw [lookedAt, tracedFrom_eq h, ← List.range_eq_range']
  exact probes_perm horder key

/-- A search for a slot to take fails only where there is none. -/
theorem used_of_findSlot (horder : t.capOrder ≤ 25) (hlen : ∀ slots, t.slots = some slots → slots.length = t.capacity)
    (h : t.findSlot key true = none) : ∀ s ∈ t.slots.getD [], s.state = .used := by
  cases hs : t.slots with
  | none => simp
  | some slots =>
    rw [Option.getD_some]
    intro s hmem
    obtain ⟨j, hj, rfl⟩ := List.getElem_of_mem hmem
    by_contra hvacant
    obtain ⟨i, hi, hprobe⟩ := exists_probe t.capOrder (t.hashValue key) (hlen slots hs ▸ hj)
    rw [← probe_eq horder key i] at hprobe
    have here : t.slot j = slots[j] := by simp [slot, hs, hj]
    have found : (t.findFrom key true t.capacity 0).isSome :=
      findFrom_isSome ⟨i, hi, by rwa [Nat.zero_add, hprobe, here]⟩
    rw [findSlot, hs, Option.isNone_some, if_neg Bool.false_ne_true] at h
    rw [h] at found
    cases found

/-- The probe sequence passes every slot exactly once from every start; a search for a slot to
take fails only if all are used, and a lookup that meets neither its key nor a free slot
has looked at every slot, once. -/
theorem probe_visits (horder : t.capOrder ≤ 25) (hlen : ∀ slots, t.slots = some slots → slots.length = t.capacity) :
    (∀ hash, ∀ j < t.capacity, ∃! i, i < t.capacity ∧ t.probeSlot hash i = j) ∧
    (∀ key, t.findSlot key true = none → ∀ s ∈ t.slots.getD [], s.state = .used) ∧
    ∀ key, (t.tracedFrom key false t.capacity 0).1 = t.findFrom key false t.capacity 0 ∧
      ((∀ j ∈ t.lookedAt key, ¬t.Holds j key ∧ (t.slot j).state ≠ .free) → (t.lookedAt key).Perm (List.range t.capacity)) :=
  ⟨fun hash _ hj => existsUnique_probe horder hash hj, fun _ h => used_of_findSlot horder hlen h,
    fun key => ⟨t.tracedFrom_fst key false t.capacity 0, lookedAt_perm horder⟩⟩

/-- A table of tombstones has no free slot left. -/
def buried : Hmap := { capOrder := 3, slots := some (List.replicate 8 { state := .tombstone }) }

theorem probe_visits_buried : (buried.lookedAt 5).Perm (List.range 8) :=
  ((probe_visits (t := buried) (by decide) (fun _ h => by cases h; rfl)).2.2 5).2 (by decide)

end SpidirWasm.Util.Hmap
