import SpidirWasm.Logic.Probing
import SpidirWasm.Util.Hmap

/-! Runs of the hash table. A search for a free slot passes every slot, since the steps of
the probe sequence are triangular numbers and the capacity is a power of two; so it is
enough that the used slots are counted, and an insert needs no slot that was never used. -/

namespace SpidirWasm.Util.Hmap

open Probing

/-- How many slots are used. -/
def used (t : Hmap) : ℕ := (t.slots.getD []).countP (·.state = .used)

/-- What every operation keeps: the size counts the used slots, and the order stays in its
bounds once there are slots. -/
structure Ok (t : Hmap) : Prop extends Wf t where
  size : t.size = t.used
  order : t.slots.isSome → 3 ≤ t.capOrder ∧ t.capOrder ≤ 25

theorem empty_ok : Ok {} := ⟨empty_wf, rfl, by simp⟩

variable {t t' : Hmap} {key value j k : ℕ}

/-! ### Room for a key -/

theorem probeSlot_eq (horder : t.capOrder ≤ 25) (hash i : ℕ) :
    t.probeSlot hash i = (hash + triangular i) % 2 ^ t.capOrder := by
  have dvd : 2 ^ t.capOrder ∣ 2 ^ 64 := Nat.pow_dvd_pow 2 (by omega)
  rw [probeSlot, capacity, Nat.and_two_pow_sub_one_eq_mod, Nat.mod_mod_of_dvd _ dvd, triangular]

theorem probe_eq (horder : t.capOrder ≤ 25) (key i : ℕ) :
    t.probe key i = (t.hashValue key + triangular i) % 2 ^ t.capOrder := probeSlot_eq horder _ i

theorem used_le (h : t.Wf) : t.used ≤ t.capacity := by
  cases hs : t.slots with
  | none => simp [used, hs]
  | some slots =>
    rw [used, hs, Option.getD_some, ← h.length slots hs]
    exact List.countP_le_length

/-- A table that is not full has a slot to take. -/
theorem exists_vacant (h : t.Wf) (hs : t.slots.isSome) (hroom : t.used < t.capacity) :
    ∃ j < t.capacity, (t.slot j).state ≠ .used := by
  obtain ⟨slots, hslots⟩ := Option.isSome_iff_exists.mp hs
  by_contra hfull
  push Not at hfull
  have all : ∀ s ∈ slots, s.state = .used := by
    intro s hmem
    obtain ⟨j, hj, rfl⟩ := List.getElem_of_mem hmem
    simpa [slot, hslots, hj] using hfull j (h.length slots hslots ▸ hj)
  have count : slots.countP (·.state = .used) = slots.length := List.countP_eq_length.mpr (by simpa using all)
  rw [used, hslots, Option.getD_some, count, h.length slots hslots] at hroom
  exact lt_irrefl _ hroom

/-- A search for a slot to take stops at the latest where one is. -/
theorem findFrom_isSome {n i : ℕ} (h : ∃ i' < n, (t.slot (t.probe key (i + i'))).state ≠ .used) :
    (t.findFrom key true n i).isSome := by
  induction n generalizing i with
  | zero =>
    obtain ⟨i', hi', -⟩ := h
    omega
  | succ n ih =>
    simp only [findFrom]
    cases hs : (t.slot (t.probe key i)).state with
    | used =>
      simp only
      split_ifs
      · rfl
      · refine ih ?_
        obtain ⟨i', hi', hne⟩ := h
        cases i' with
        | zero => exact absurd hs hne
        | succ i' => exact ⟨i', by omega, by rwa [show i + 1 + i' = i + (i' + 1) by omega]⟩
    | free => rfl
    | tombstone => rfl

theorem insertNew_isSome (h : t.Wf) (hs : t.slots.isSome) (horder : t.capOrder ≤ 25) (hroom : t.used < t.capacity)
    (habsent : ∀ j, ¬t.Holds j key) : ∃ t', t.insertNew key value = some t' := by
  obtain ⟨j, hj, hvacant⟩ := exists_vacant h hs hroom
  obtain ⟨i, hi, hprobe⟩ := exists_probe t.capOrder (t.hashValue key) hj
  rw [← probe_eq horder key i] at hprobe
  have found : (t.findSlot key true).isSome := by
    obtain ⟨slots, hslots⟩ := Option.isSome_iff_exists.mp hs
    rw [findSlot, hslots, Option.isNone_some, if_neg Bool.false_ne_true]
    exact findFrom_isSome ⟨i, hi, by rwa [Nat.zero_add, hprobe]⟩
  obtain ⟨j', hj'⟩ := Option.isSome_iff_exists.mp found
  have vacant : (t.slot j').state ≠ .used := by
    rw [findSlot] at hj'
    split_ifs at hj'
    obtain ⟨-, -, -, hold | ⟨-, hne⟩, -⟩ := findFrom_eq_some hj'
    · exact absurd hold (habsent j')
    · exact hne
  simp [insertNew, hj', vacant]

/-! ### Counting -/

theorem used_setSlot {s : Slot} (h : t.Wf) (hj : j < t.capacity) (hs : t.slots.isSome) :
    (t.setSlot j s).used + (if (t.slot j).state = .used then 1 else 0) = t.used + if s.state = .used then 1 else 0 := by
  obtain ⟨slots, hslots⟩ := Option.isSome_iff_exists.mp hs
  have inside : j < slots.length := h.length slots hslots ▸ hj
  have here : t.slot j = slots[j] := by simp [slot, hslots, inside]
  have count : slots[j].state = .used → 0 < slots.countP (·.state = .used) := fun hused =>
    List.countP_pos_iff.mpr ⟨slots[j], List.getElem_mem inside, by simpa using hused⟩
  simp only [used, setSlot, hslots, Option.map_some, Option.getD_some, List.countP_set inside, here, decide_eq_true_eq]
  by_cases hold : slots[j].state = .used
  · have pos := count hold
    rw [if_pos hold]
    omega
  · rw [if_neg hold]
    omega

theorem insertNew_used (h : t.Wf) (hi : t.insertNew key value = some t') :
    t'.used = t.used + 1 ∧ t'.size = t.size + 1 ∧ t'.capOrder = t.capOrder ∧ t'.slots.isSome := by
  simp only [insertNew, Option.bind_eq_bind, Option.bind_eq_some_iff, Option.pure_def, Option.some.injEq, Option.guard_eq_some'] at hi
  obtain ⟨j, hfind, -, hstate, rfl⟩ := hi
  have slotted := isSome_of_findSlot hfind
  have inside : j < t.capacity := by
    rw [findSlot] at hfind
    split_ifs at hfind
    obtain ⟨i, -, rfl, -⟩ := findFrom_eq_some hfind
    exact t.probe_lt key _
  have count := @used_setSlot t j ⟨.used, key, value⟩ h inside slotted
  rw [if_neg hstate, if_pos rfl] at count
  exact ⟨count, rfl, rfl, by simpa [setSlot] using slotted⟩

/-- With room for all of them, the slots are copied, each to a slot of its own. -/
theorem foldlM_copySlot_isSome {ss : List Slot} (h : t.Wf) (hs : t.slots.isSome) (horder : t.capOrder ≤ 25)
    (hkeys : ss.Pairwise fun s s' => s.state = .used → s'.state = .used → s.key ≠ s'.key)
    (hnew : ∀ s ∈ ss, s.state = .used → t.lookup s.key = none)
    (hroom : t.used + ss.countP (·.state = .used) ≤ t.capacity) :
    ∃ t', ss.foldlM copySlot t = some t' ∧ t'.capOrder = t.capOrder ∧ t'.slots.isSome ∧
      t'.used = t.used + ss.countP (·.state = .used) ∧ t'.size = t.size + ss.countP (·.state = .used) := by
  induction ss generalizing t with
  | nil => exact ⟨t, rfl, rfl, hs, rfl, rfl⟩
  | cons s ss ih =>
    rw [List.pairwise_cons] at hkeys
    obtain ⟨hfirst, hkeys⟩ := hkeys
    have hnew' : ∀ s' ∈ ss, s'.state = .used → t.lookup s'.key = none := fun s' hs' => hnew s' (List.mem_cons_of_mem _ hs')
    simp only [List.foldlM_cons, Option.bind_eq_bind, List.countP_cons, decide_eq_true_eq, copySlot] at hroom ⊢
    split_ifs at hroom ⊢ with hused
    · have absent := (lookup_eq_none h).mp (hnew s List.mem_cons_self hused)
      obtain ⟨u, hu⟩ := @insertNew_isSome t s.key s.value h hs horder (by omega) absent
      obtain ⟨wf, found⟩ := insertNew_eq_some h absent hu
      obtain ⟨count, size, same, slotted⟩ := insertNew_used h hu
      have cap : u.capacity = t.capacity := by rw [capacity, same, capacity]
      obtain ⟨t', ht', same', slotted', count', size'⟩ := ih wf slotted (same ▸ horder) hkeys (fun s' hs' hused' => by
        rw [found, if_neg (hfirst s' hs' hused hused').symm, hnew' s' hs' hused']) (by omega)
      exact ⟨t', by rw [hu, Option.bind_some, ht'], same'.trans same, slotted', by omega, by omega⟩
    · exact ih h hs horder hkeys hnew' hroom

/-! ### One operation -/

/-- A rehash into enough slots succeeds. -/
theorem rehash_ok {order : ℕ} (h : t.Ok) (horder : order ≤ 25) (hroom : t.used ≤ 2 ^ max order 3) :
    ∃ t', t.rehash true order = some t' ∧ t'.Ok ∧ (∀ k, t'.lookup k = t.lookup k) ∧ t'.used = t.used ∧
      t'.capOrder = max order 3 ∧ t'.slots.isSome := by
  obtain ⟨wf, empty⟩ := fresh_wf (max order 3)
  have none : used { capOrder := max order 3, slots := some (List.replicate (2 ^ max order 3) {}) } = 0 := by
    simp [used, List.countP_replicate]
  obtain ⟨t', hcopy, hcap, hs, hcount, hsize⟩ := foldlM_copySlot_isSome wf rfl (by simp only; omega) (pairwise_keys h.toWf)
    (fun s _ _ => empty s.key) (by rw [none, Nat.zero_add]; exact hroom)
  have run : t.rehash true order = some t' := by
    simp only [rehash, Option.bind_eq_bind, Option.bind_eq_some_iff]
    exact ⟨(), by simpa using horder, hcopy⟩
  obtain ⟨wf', found⟩ := rehash_eq_some h.toWf run
  rw [none, Nat.zero_add] at hcount
  rw [Nat.zero_add] at hsize
  exact ⟨t', run, ⟨wf', hsize.trans hcount.symm, fun _ => by rw [hcap]; simp only; omega⟩, found, hcount, hcap, hs⟩

/-- A rehash that succeeds had its slots allocated. -/
theorem rehash_allocated {allocated : Bool} {order : ℕ} (h : t.rehash allocated order = some t') :
    allocated = true ∧ max order 3 ≤ 25 := by
  simp only [rehash, Option.bind_eq_bind, Option.bind_eq_some_iff, Option.guard_eq_some'] at h
  obtain ⟨-, hguard, -⟩ := h
  exact ⟨hguard.2, hguard.1⟩

/-- Half of the slots are enough for a table that shrinks. -/
theorem shrink_ok {allocated : Bool} (h : t.Ok) (hshrink : t.shouldShrink) (hrehash : t.rehash allocated (t.capOrder - 1) = some t') :
    t'.Ok ∧ ∀ k, t'.lookup k = t.lookup k := by
  have load : 3 < t.capOrder ∧ t.size * 8 ≤ t.capacity := by simpa [shouldShrink] using hshrink
  have half : t.capacity = 2 * 2 ^ max (t.capOrder - 1) 3 := by
    rw [capacity, max_eq_left (by omega), ← pow_succ', Nat.sub_add_cancel (by omega)]
  obtain ⟨rfl, horder⟩ := rehash_allocated hrehash
  obtain ⟨u, hu, ok, found, -⟩ := @rehash_ok t (t.capOrder - 1) h (by omega) (by have := h.size; omega)
  obtain rfl := Option.some.inj (hrehash.symm.trans hu)
  exact ⟨ok, found⟩

/-- A table with room for one more key is reached, unless it would have to be larger than the largest. -/
theorem grow_ok (h : t.Ok) (hbelow : t.shouldGrow → t.capOrder < 25) :
    ∃ u, t.grow true = some u ∧ u.Ok ∧ (∀ k, u.lookup k = t.lookup k) ∧ u.slots.isSome ∧ u.used < u.capacity := by
  by_cases hgrow : t.shouldGrow = true
  · have room : t.used ≤ t.capacity := used_le h.toWf
    have double : t.capacity < 2 ^ max (t.capOrder + 1) 3 := Nat.pow_lt_pow_right (by decide) (by omega)
    obtain ⟨u, hu, ok, found, count, hcap, hs⟩ := @rehash_ok t (t.capOrder + 1) h (hbelow hgrow) (room.trans double.le)
    exact ⟨u, by rw [grow, if_pos hgrow, hu], ok, found, hs, by rw [count, capacity, hcap]; omega⟩
  · obtain ⟨hnull, hload⟩ : ¬t.slots = none ∧ t.size * 5 < t.capacity * 4 := by simpa [shouldGrow] using hgrow
    have hs : t.slots.isSome := Option.isSome_iff_ne_none.mpr hnull
    exact ⟨t, by rw [grow, if_neg hgrow], h, fun _ => rfl, hs, by have := h.size; omega⟩

theorem insert_ok (h : t.Ok) (hbelow : t.lookup key = none → t.shouldGrow → t.capOrder < 25) :
    ∃ t', t.insert true key value = some t' ∧ t'.Ok ∧ ∀ k, t'.lookup k = if k = key then some value else t.lookup k := by
  have result : ∃ t', t.insert true key value = some t' ∧ t'.size = t'.used ∧ (t'.slots.isSome → 3 ≤ t'.capOrder ∧ t'.capOrder ≤ 25) := by
    rw [insert]
    cases hfind : t.findSlot key false with
    | some j =>
      have hold := (findSlot_iff h.toWf).mp hfind
      have slotted := isSome_of_findSlot hfind
      set s : Slot := { t.slot j with value }
      have count := @used_setSlot t j s h.toWf (lt_of_holds h.toWf hold) slotted
      rw [if_pos hold.1] at count
      exact ⟨_, rfl, h.size.trans (Nat.add_right_cancel count).symm, fun _ => h.order slotted⟩
    | none =>
      have missing : t.lookup key = none := by rw [lookup, hfind, Option.map_none]
      obtain ⟨u, hu, ok, found, hs, hroom⟩ := grow_ok h (hbelow missing)
      have absent : u.lookup key = none := by rw [found, missing]
      obtain ⟨t', ht'⟩ := @insertNew_isSome u key value ok.toWf hs (ok.order hs).2 hroom ((lookup_eq_none ok.toWf).mp absent)
      obtain ⟨count, size, same, -⟩ := insertNew_used ok.toWf ht'
      exact ⟨t', by simp [hu, ht'], by rw [size, count, ok.size], fun _ => same ▸ ok.order hs⟩
  obtain ⟨t', ht', size, order⟩ := result
  obtain ⟨wf, found⟩ := insert_eq_some h.toWf ht'
  exact ⟨t', ht', ⟨wf, size, order⟩, found⟩

/-- A tombstone takes a key out of the map. -/
theorem tombstone_ok (h : t.Ok) (hold : t.Holds j key) (hs : t.slots.isSome) :
    let u := { t.setSlot j { t.slot j with state := .tombstone } with size := t.size - 1 }
    u.Ok ∧ ∀ k, u.lookup k = if k = key then none else t.lookup k := by
  intro u
  have inside := lt_of_holds h.toWf hold
  have slots : ∀ k, u.slot k = if k = j then { t.slot j with state := .tombstone } else t.slot k := fun k =>
    slot_setSlot h.toWf inside hs
  have holds : ∀ k key', u.Holds k key' ↔ k ≠ j ∧ t.Holds k key' := by
    intro k key'
    rw [Holds, Holds, slots]
    by_cases hk : k = j
    · simp [hk]
    · simp [hk]
  have wf : u.Wf := by
    refine wf_of_slots h.toWf rfl (fun slots hs => ?_) (fun k hf => ?_) fun k key' hk => .inl ((holds k key').mp hk).2
    · obtain ⟨old, hold, rfl⟩ := Option.map_eq_some_iff.mp hs
      rw [List.length_set, h.length old hold]
    · rw [slots] at hf
      split_ifs at hf
      exact hf
  have size : u.size = u.used := by
    have count : u.used + 1 = t.used + 0 := by
      have slot := @used_setSlot t j { t.slot j with state := .tombstone } h.toWf inside hs
      rwa [if_pos hold.1, if_neg (by simp)] at slot
    have one : u.size = t.size - 1 := rfl
    rw [one, h.size]
    omega
  refine ⟨⟨wf, size, fun _ => h.order hs⟩, fun k => Option.ext fun v => ?_⟩
  rw [lookup_iff wf]
  simp only [holds]
  by_cases hk : k = key
  · subst hk
    rw [if_pos rfl]
    refine ⟨?_, fun h => by cases h⟩
    rintro ⟨j', ⟨hne, hold'⟩, -⟩
    exact absurd (h.unique j' j k hold' hold) hne
  · rw [if_neg hk, lookup_iff h.toWf]
    refine exists_congr fun j' => ?_
    rw [slots]
    by_cases hj' : j' = j
    · subst hj'
      have other : ¬t.Holds j' k := fun hold' => hk (hold'.2.symm.trans hold.2)
      simp [other]
    · simp [hj']

/-- A delete takes the key out, whether or not the table then shrinks. -/
theorem delete_ok (allocated : Bool) (h : t.Ok) :
    (t.delete allocated key).Ok ∧ ∀ k, (t.delete allocated key).lookup k = if k = key then none else t.lookup k := by
  rw [delete]
  cases hfind : t.findSlot key false with
  | none =>
    refine ⟨h, fun k => ?_⟩
    by_cases hk : k = key
    · rw [if_pos hk, hk, lookup, hfind, Option.map_none]
    · rw [if_neg hk]
  | some j =>
    have hold := (findSlot_iff h.toWf).mp hfind
    obtain ⟨ok, found⟩ := tombstone_ok h hold (isSome_of_findSlot hfind)
    simp only
    set u := { t.setSlot j { t.slot j with state := .tombstone } with size := t.size - 1 }
    split_ifs with hshrink
    · cases hrehash : u.rehash allocated (u.capOrder - 1) with
      -- the shrink is best effort, and the table with its tombstone will do
      | none => exact ⟨ok, found⟩
      | some u' =>
        obtain ⟨ok', found'⟩ := shrink_ok ok hshrink hrehash
        exact ⟨ok', fun k => by rw [Option.getD_some, found', found]⟩
    · exact ⟨ok, found⟩

/-! ### A pass of the iterator -/

/-- Calling the iterator from index `i` until it stops yields the pairs. -/
inductive Pass (t : Hmap) : ℕ → List (ℕ × ℕ) → Prop
  | stop {i : ℕ} (h : t.iterNext i = none) : Pass t i []
  | next {i i' : ℕ} {pair : ℕ × ℕ} {pairs : List (ℕ × ℕ)} (h : t.iterNext i = some (pair, i')) (rest : Pass t i' pairs) :
      Pass t i (pair :: pairs)

/-- What a slot adds to a pass. -/
def pairOf (s : Slot) : Option (ℕ × ℕ) := if s.state = .used then some (s.key, s.value) else none

/-- The pairs in the slots from `i` on. -/
def pairsFrom (t : Hmap) (i : ℕ) : List (ℕ × ℕ) := ((t.slots.getD []).drop i).filterMap pairOf

theorem pairsFrom_of_lt {i : ℕ} (hi : i < (t.slots.getD []).length) :
    t.pairsFrom i = (pairOf (t.slot i)).toList ++ t.pairsFrom (i + 1) := by
  have here : t.slot i = (t.slots.getD [])[i] := by simp [slot, List.getD_eq_getElem?_getD, hi]
  rw [pairsFrom, List.drop_eq_getElem_cons hi, List.filterMap_cons, here, pairsFrom]
  cases pairOf (t.slots.getD [])[i] <;> rfl

/-- The iterator goes on with the next pair, or stops when none is left. -/
theorem nextFrom_cases {n i : ℕ} (hn : i + n = (t.slots.getD []).length) :
    t.nextFrom n i = none ∧ t.pairsFrom i = [] ∨
    ∃ pair i', t.nextFrom n i = some (pair, i') ∧ i < i' ∧ i' ≤ i + n ∧ t.pairsFrom i = pair :: t.pairsFrom i' := by
  induction n generalizing i with
  | zero =>
    refine .inl ⟨rfl, ?_⟩
    rw [pairsFrom, List.drop_eq_nil_of_le (by omega), List.filterMap_nil]
  | succ n ih =>
    rw [nextFrom, pairsFrom_of_lt (by omega), pairOf]
    split_ifs with hused
    · exact .inr ⟨_, i + 1, rfl, by omega, by omega, rfl⟩
    · rcases ih (i := i + 1) (by omega) with ⟨hnone, hpairs⟩ | ⟨pair, i', hsome, hlt, hle, hpairs⟩
      · exact .inl ⟨hnone, hpairs⟩
      · exact .inr ⟨pair, i', hsome, by omega, by omega, hpairs⟩

theorem iterNext_cases (h : t.Wf) {i : ℕ} (hi : i ≤ (t.slots.getD []).length) :
    t.iterNext i = none ∧ t.pairsFrom i = [] ∨
    ∃ pair i', t.iterNext i = some (pair, i') ∧ i < i' ∧ i' ≤ (t.slots.getD []).length ∧ t.pairsFrom i = pair :: t.pairsFrom i' := by
  rw [iterNext]
  cases hs : t.slots with
  | none => exact .inl ⟨rfl, by simp [pairsFrom, hs]⟩
  | some slots =>
    have len := h.length slots hs
    have cases := @nextFrom_cases t (t.capacity - i) i (by rw [hs, Option.getD_some] at hi ⊢; omega)
    rw [hs, Option.getD_some] at hi
    rw [Nat.add_sub_cancel' (by omega)] at cases
    simpa [len] using cases

/-- A pass from `i` yields the pairs from `i` on, in order. -/
theorem pass_iff (h : t.Wf) {i : ℕ} (hi : i ≤ (t.slots.getD []).length) {pairs : List (ℕ × ℕ)} :
    t.Pass i pairs ↔ pairs = t.pairsFrom i := by
  constructor
  · intro hpass
    induction hpass with
    | stop hstop =>
      rcases iterNext_cases h hi with ⟨-, hpairs⟩ | ⟨pair, i', hsome, -⟩
      · exact hpairs.symm
      · rw [hsome] at hstop
        cases hstop
    | next hnext _ ih =>
      rcases iterNext_cases h hi with ⟨hnone, -⟩ | ⟨pair, i', hsome, -, hle, hpairs⟩
      · rw [hnone] at hnext
        cases hnext
      · obtain ⟨rfl, rfl⟩ := Prod.mk.inj (Option.some.inj (hsome.symm.trans hnext))
        rw [hpairs, ih hle]
  · rintro rfl
    induction hn : (t.slots.getD []).length - i using Nat.strong_induction_on generalizing i with
    | _ n ih =>
      rcases iterNext_cases h hi with ⟨hnone, hpairs⟩ | ⟨pair, i', hsome, hlt, hle, hpairs⟩
      · rw [hpairs]
        exact .stop hnone
      · rw [hpairs]
        exact .next hsome (ih _ (by omega) hle rfl)

/-! ### The table as a finite map -/

/-- From outside the table is the finite map: it answers with the map's values, counts its
keys, and a pass yields each of its pairs once. -/
structure Behaves (t : Hmap) (m : ℕ → Option ℕ) : Prop where
  lookup : ∀ k, t.lookup k = m k
  size : ∃ keys : Finset ℕ, (∀ k, k ∈ keys ↔ (m k).isSome) ∧ keys.card = t.size
  passes : ∃ pairs, t.Pass 0 pairs
  pass : ∀ pairs, t.Pass 0 pairs → pairs.Nodup ∧ ∀ k v, (k, v) ∈ pairs ↔ m k = some v

theorem mem_pairsFrom_zero (h : t.Wf) {k v : ℕ} : (k, v) ∈ t.pairsFrom 0 ↔ t.lookup k = some v := by
  rw [lookup_iff h, ← mem_slots_iff, pairsFrom, List.drop_zero, List.mem_filterMap]
  constructor
  · rintro ⟨⟨state, key, value⟩, hmem, hpair⟩
    rw [pairOf] at hpair
    split_ifs at hpair with hused
    obtain ⟨rfl, rfl⟩ := Prod.mk.inj (Option.some.inj hpair)
    exact hused ▸ hmem
  · exact fun hmem => ⟨_, hmem, rfl⟩

theorem nodup_keys (h : t.Wf) : ((t.pairsFrom 0).map Prod.fst).Nodup := by
  rw [List.Nodup, List.pairwise_map, pairsFrom, List.drop_zero, List.pairwise_filterMap]
  refine (pairwise_keys h).imp fun {s s'} hkeys pair hpair pair' hpair' => ?_
  rw [pairOf] at hpair hpair'
  split_ifs at hpair with hused
  split_ifs at hpair' with hused'
  obtain rfl := Option.some.inj hpair
  obtain rfl := Option.some.inj hpair'
  exact hkeys hused hused'

theorem length_pairsFrom_zero : (t.pairsFrom 0).length = t.used := by
  rw [pairsFrom, List.drop_zero, List.length_filterMap_eq_countP, used]
  congr 1
  funext s
  rw [pairOf]
  split_ifs with hused
  · simp [hused]
  · simp [hused]

theorem Ok.behaves (h : t.Ok) : Behaves t t.lookup := by
  have nodup := nodup_keys h.toWf
  refine ⟨fun _ => rfl, ⟨((t.pairsFrom 0).map Prod.fst).toFinset, fun k => ?_, ?_⟩, ⟨_, (pass_iff h.toWf (Nat.zero_le _)).mpr rfl⟩,
    fun pairs hpass => ?_⟩
  · rw [List.mem_toFinset, List.mem_map, Option.isSome_iff_exists]
    constructor
    · rintro ⟨⟨k, v⟩, hmem, rfl⟩
      exact ⟨v, (mem_pairsFrom_zero h.toWf).mp hmem⟩
    · rintro ⟨v, hv⟩
      exact ⟨(k, v), (mem_pairsFrom_zero h.toWf).mpr hv, rfl⟩
  · rw [List.toFinset_card_of_nodup nodup, List.length_map, length_pairsFrom_zero, h.size]
  · obtain rfl := (pass_iff h.toWf (Nat.zero_le _)).mp hpass
    exact ⟨List.Nodup.of_map _ nodup, fun k v => mem_pairsFrom_zero h.toWf⟩

/-- The calls on a table. -/
inductive Op where
  | insert (key value : ℕ)
  | delete (key : ℕ)
  | lookup (key : ℕ)
  deriving DecidableEq, Repr

/-- One call, with every allocation succeeding. -/
def step (t : Hmap) : Op → Option Hmap
  | .insert key value => t.insert true key value
  | .delete key => some (t.delete true key)
  | .lookup _ => some t

/-- The call needs no table beyond the maximum order. -/
def Below (t : Hmap) : Op → Prop
  | .insert _ _ => t.shouldGrow → t.capOrder < 25
  | _ => True

/-- The tables that calls on an empty one lead to; the latest call comes first. -/
inductive Reaches : List Op → Hmap → Prop
  | start : Reaches [] {}
  | call {ops : List Op} {op : Op} {t t' : Hmap} (h : Reaches ops t) (below : t.Below op) (hs : t.step op = some t') :
      Reaches (op :: ops) t'

/-- The value of the last insert of a key that no delete follows. -/
def lastValue : List Op → ℕ → Option ℕ
  | [], _ => none
  | .insert key value :: ops, k => if k = key then some value else lastValue ops k
  | .delete key :: ops, k => if k = key then none else lastValue ops k
  | .lookup _ :: ops, k => lastValue ops k

/-- One call keeps the table and changes the map as it should. -/
theorem step_ok {op : Op} (h : t.Ok) (hbelow : t.Below op) : ∃ t', t.step op = some t' ∧ t'.Ok ∧
    ∀ ops, t.lookup = lastValue ops → t'.lookup = lastValue (op :: ops) := by
  cases op with
  | insert key value =>
    obtain ⟨t', ht', ok, found⟩ := @insert_ok t key value h fun _ => hbelow
    exact ⟨t', ht', ok, fun ops hm => funext fun k => by rw [found, hm, lastValue]⟩
  | delete key =>
    obtain ⟨ok, found⟩ := @delete_ok t key true h
    exact ⟨_, rfl, ok, fun ops hm => funext fun k => by rw [found, hm, lastValue]⟩
  | lookup key => exact ⟨t, rfl, h, fun ops hm => hm⟩

theorem Reaches.ok {ops : List Op} (h : Reaches ops t) : t.Ok ∧ t.lookup = lastValue ops := by
  induction h with
  | start => exact ⟨empty_ok, rfl⟩
  | call _ below hs ih =>
    obtain ⟨t', ht', ok, found⟩ := step_ok ih.1 below
    obtain rfl := Option.some.inj (ht'.symm.trans hs)
    exact ⟨ok, found _ ih.2⟩

/-- After every sequence of calls the table behaves as the map that the calls make, and the
next call succeeds. -/
theorem hmap_runs {ops : List Op} (h : Reaches ops t) : Behaves t (lastValue ops) ∧ ∀ op, t.Below op → ∃ t', t.step op = some t' := by
  obtain ⟨ok, found⟩ := h.ok
  refine ⟨found ▸ ok.behaves, fun op below => ?_⟩
  obtain ⟨t', ht', -⟩ := step_ok ok below
  exact ⟨t', ht'⟩

theorem hmap_runs_tombstone : ∃ t, Reaches [.delete 5, .lookup 5, .insert 5 7] t ∧
    Behaves t (lastValue [.delete 5, .lookup 5, .insert 5 7]) := by
  have h : Reaches [.delete 5, .lookup 5, .insert 5 7] _ :=
    .call (.call (.call .start (by simp [Below]) rfl) trivial rfl) trivial rfl
  exact ⟨_, h, (hmap_runs h).1⟩

end SpidirWasm.Util.Hmap
