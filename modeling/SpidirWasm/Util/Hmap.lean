import Mathlib.Algebra.Group.Int.Defs
import Mathlib.Algebra.Group.Nat.Defs
import Mathlib.Data.Nat.Bitwise
import Mathlib.Data.Option.Basic
import Mathlib.Tactic.Common

/-! The hash table of `hmap.c`: open addressing with triangular probing. A key is found
on its probe sequence behind slots that were taken before it, so a table is read as the
map from the keys of its used slots to their values as long as no slot on the way to a
key is free and no key has two slots. -/

namespace SpidirWasm.Util

/-- `hmap_slot_state_t`. -/
inductive SlotState where
  | free | used | tombstone
  deriving DecidableEq, Repr, Inhabited

/-- `hmap_slot_t`; a key and a value are unsigned 64-bit numbers. -/
structure Slot where
  state : SlotState := .free
  key : ℕ := 0
  value : ℕ := 0
  deriving DecidableEq, Repr, Inhabited

/-- `hmap_t`; without slots the pointer is null. -/
structure Hmap where
  capOrder : ℕ := 0
  size : ℕ := 0
  slots : Option (List Slot) := none
  deriving DecidableEq, Repr, Inhabited

namespace Hmap

/-- `hash_value`. -/
def hashValue (t : Hmap) (key : ℕ) : ℕ := (key * 0x61C8864680B583EB % 2 ^ 64) >>> (64 - t.capOrder)

/-- `hmap_capacity`. -/
def capacity (t : Hmap) : ℕ := 2 ^ t.capOrder

/-- `hmap_get_probe_slot`. -/
def probeSlot (t : Hmap) (hash i : ℕ) : ℕ := (hash + i * (i + 1) / 2) % 2 ^ 64 &&& (t.capacity - 1)

/-- The `i`-th slot on the way to a key. -/
def probe (t : Hmap) (key i : ℕ) : ℕ := t.probeSlot (t.hashValue key) i

/-- The slot at an index. -/
def slot (t : Hmap) (j : ℕ) : Slot := (t.slots.getD []).getD j {}

/-- The loop of `hmap_find_slot`, `n` slots from the `i`-th on. -/
def findFrom (t : Hmap) (key : ℕ) (findFree : Bool) : ℕ → ℕ → Option ℕ
  | 0, _ => none
  | n + 1, i =>
    let j := t.probe key i
    match (t.slot j).state with
    | .used => if (t.slot j).key = key then some j else t.findFrom key findFree n (i + 1)
    | .free => if findFree then some j else none
    | .tombstone => if findFree then some j else t.findFrom key findFree n (i + 1)

/-- `hmap_find_slot`. -/
def findSlot (t : Hmap) (key : ℕ) (findFree : Bool) : Option ℕ :=
  if t.slots.isNone then none else t.findFrom key findFree t.capacity 0

/-- `hmap_should_grow`. -/
def shouldGrow (t : Hmap) : Bool := t.slots.isNone || t.capacity * 4 ≤ t.size * 5

def setSlot (t : Hmap) (j : ℕ) (s : Slot) : Hmap := { t with slots := t.slots.map (·.set j s) }

/-- `hmap_insert_new`. -/
def insertNew (t : Hmap) (key value : ℕ) : Option Hmap := do
  let j ← t.findSlot key true
  guard ((t.slot j).state ≠ .used)
  return { t.setSlot j ⟨.used, key, value⟩ with size := t.size + 1 }

/-- One turn of the loop of `hmap_rehash`. -/
def copySlot (t : Hmap) (s : Slot) : Option Hmap :=
  if s.state = .used then t.insertNew s.key s.value else some t

/-- `hmap_rehash`, when the allocation of the new slots succeeds or not. -/
def rehash (allocated : Bool) (t : Hmap) (newCapOrder : ℕ) : Option Hmap := do
  let order := max newCapOrder 3
  guard (order ≤ 25 ∧ allocated)
  (t.slots.getD []).foldlM copySlot { capOrder := order, slots := some (List.replicate (2 ^ order) {}) }

/-- Room for one more key. -/
def grow (allocated : Bool) (t : Hmap) : Option Hmap :=
  if t.shouldGrow then t.rehash allocated (t.capOrder + 1) else some t

/-- `hmap_insert`. -/
def insert (allocated : Bool) (t : Hmap) (key value : ℕ) : Option Hmap :=
  match t.findSlot key false with
  | some j => some (t.setSlot j { t.slot j with value })
  | none => (t.grow allocated).bind fun t => t.insertNew key value

/-- `hmap_lookup`. -/
def lookup (t : Hmap) (key : ℕ) : Option ℕ := (t.findSlot key false).map fun j => (t.slot j).value

/-- `hmap_should_shrink`. -/
def shouldShrink (t : Hmap) : Bool := 3 < t.capOrder && t.size * 8 ≤ t.capacity

/-- `hmap_delete`; when the shrink fails, the table stays as it is. -/
def delete (allocated : Bool) (t : Hmap) (key : ℕ) : Hmap :=
  match t.findSlot key false with
  | none => t
  | some j =>
    let t := { t.setSlot j { t.slot j with state := .tombstone } with size := t.size - 1 }
    if t.shouldShrink then (t.rehash allocated (t.capOrder - 1)).getD t else t

/-- The loop of `hmap_iter_next`, `n` slots from the `i`-th on. -/
def nextFrom (t : Hmap) : ℕ → ℕ → Option ((ℕ × ℕ) × ℕ)
  | 0, _ => none
  | n + 1, i =>
    if (t.slot i).state = .used then some (((t.slot i).key, (t.slot i).value), i + 1) else t.nextFrom n (i + 1)

/-- `hmap_iter_next`; an iterator is the index of the slot it goes on with. -/
def iterNext (t : Hmap) (i : ℕ) : Option ((ℕ × ℕ) × ℕ) :=
  if t.slots.isNone then none else t.nextFrom (t.capacity - i) i

/-! ### A table as a map -/

/-- Slot `j` holds the key. -/
def Holds (t : Hmap) (j key : ℕ) : Prop := (t.slot j).state = .used ∧ (t.slot j).key = key

/-- What every operation keeps: each key is behind slots that were taken before it, and
in one slot only. -/
structure Wf (t : Hmap) : Prop where
  length : ∀ slots, t.slots = some slots → slots.length = t.capacity
  reach : ∀ j key, t.Holds j key → ∃ i < t.capacity, t.probe key i = j ∧ ∀ i' < i, (t.slot (t.probe key i')).state ≠ .free
  unique : ∀ j j' key, t.Holds j key → t.Holds j' key → j = j'

theorem empty_wf : Wf {} := by
  have none : ∀ j, ¬((({} : Hmap).slot j).state = .used) := by simp [slot]
  exact ⟨by simp, fun j _ h => absurd h.1 (none j), fun j _ _ h => absurd h.1 (none j)⟩

variable {t t' : Hmap} {key value j k : ℕ} {findFree : Bool}

theorem probe_lt (t : Hmap) (key i : ℕ) : t.probe key i < t.capacity := by
  have pos : 0 < t.capacity := Nat.two_pow_pos _
  have le : t.probe key i ≤ t.capacity - 1 := Nat.and_le_right
  omega

theorem lt_of_holds (h : t.Wf) (hj : t.Holds j key) : j < t.capacity := by
  obtain ⟨i, -, rfl, -⟩ := h.reach j key hj
  exact t.probe_lt key i

/-- Where a search stops: at the key, or at a slot that was asked for. -/
theorem findFrom_eq_some {n i : ℕ} (h : t.findFrom key findFree n i = some j) :
    ∃ i' < n, j = t.probe key (i + i') ∧ (t.Holds j key ∨ findFree = true ∧ (t.slot j).state ≠ .used) ∧
      (findFree = true → ∀ i'' < i', (t.slot (t.probe key (i + i''))).state = .used) := by
  induction n generalizing i with
  | zero => cases h
  | succ n ih =>
    have here : t.probe key i = t.probe key (i + 0) := rfl
    have later : (findFree = true → (t.slot (t.probe key i)).state = .used) →
        t.findFrom key findFree n (i + 1) = some j →
        ∃ i' < n + 1, j = t.probe key (i + i') ∧ (t.Holds j key ∨ findFree = true ∧ (t.slot j).state ≠ .used) ∧
          (findFree = true → ∀ i'' < i', (t.slot (t.probe key (i + i''))).state = .used) := by
      intro hused h
      obtain ⟨i', hi', rfl, hstop, hway⟩ := ih h
      refine ⟨i' + 1, by omega, by rw [Nat.add_comm i', ← Nat.add_assoc], hstop, fun hfree i'' hi'' => ?_⟩
      cases i'' with
      | zero => exact hused hfree
      | succ i'' => simpa [Nat.add_assoc, Nat.add_comm 1] using hway hfree i'' (by omega)
    simp only [findFrom] at h
    cases hs : (t.slot (t.probe key i)).state with
    | used =>
      simp only [hs] at h
      split_ifs at h with hk
      · obtain rfl := Option.some.inj h
        exact ⟨0, by omega, here, .inl ⟨hs, hk⟩, by simp⟩
      · exact later (fun _ => hs) h
    | free =>
      simp only [hs] at h
      split_ifs at h with hfree
      obtain rfl := Option.some.inj h
      exact ⟨0, by omega, here, .inr ⟨hfree, by simp [hs]⟩, by simp⟩
    | tombstone =>
      simp only [hs] at h
      split_ifs at h with hfree
      · obtain rfl := Option.some.inj h
        exact ⟨0, by omega, here, .inr ⟨hfree, by simp [hs]⟩, by simp⟩
      · exact later (fun h => absurd h hfree) h

/-- A search for a key alone passes the slots before it. -/
theorem findFrom_holds {n i i' : ℕ} (hi : i' < n) (hj : t.Holds (t.probe key (i + i')) key)
    (hway : ∀ i'' < i', (t.slot (t.probe key (i + i''))).state ≠ .free)
    (hunique : ∀ j, t.Holds j key → j = t.probe key (i + i')) :
    t.findFrom key false n i = some (t.probe key (i + i')) := by
  induction n generalizing i i' with
  | zero => omega
  | succ n ih =>
    cases i' with
    | zero =>
      rw [Nat.add_zero] at hj
      simp only [findFrom, hj.1, hj.2, Nat.add_zero, if_true]
    | succ i' =>
      have next : t.findFrom key false n (i + 1) = some (t.probe key (i + (i' + 1))) := by
        have step : i + (i' + 1) = i + 1 + i' := by omega
        rw [step] at hj hunique ⊢
        refine ih (by omega) hj (fun i'' hi'' => ?_) hunique
        have := hway (i'' + 1) (by omega)
        rwa [show i + (i'' + 1) = i + 1 + i'' by omega] at this
      simp only [findFrom]
      cases hs : (t.slot (t.probe key i)).state with
      | used =>
        by_cases hk : (t.slot (t.probe key i)).key = key
        · rw [if_pos hk, hunique _ ⟨hs, hk⟩]
        · rw [if_neg hk, next]
      | free => exact absurd hs (hway 0 (by omega))
      | tombstone => simp only [Bool.false_eq_true, if_false, next]

/-- A search for a key alone finds its slot. -/
theorem findSlot_iff (h : t.Wf) : t.findSlot key false = some j ↔ t.Holds j key := by
  have null : t.slots = none → ∀ j, ¬t.Holds j key := by
    rintro hs j ⟨hused, -⟩
    simp [slot, hs] at hused
  rw [findSlot]
  cases hs : t.slots with
  | none => simp [null hs j]
  | some slots =>
    simp only [Option.isNone_some, Bool.false_eq_true, if_false]
    constructor
    · intro hfind
      obtain ⟨-, -, -, hstop | ⟨hfree, -⟩, -⟩ := findFrom_eq_some hfind
      · exact hstop
      · cases hfree
    · intro hj
      obtain ⟨i, hi, rfl, hway⟩ := h.reach j key hj
      have found := @findFrom_holds t key t.capacity 0 i hi
      rw [Nat.zero_add] at found
      exact found hj (fun i' hi' => by rw [Nat.zero_add]; exact hway i' hi') fun j' hj' => h.unique _ _ _ hj' hj

theorem isSome_of_findSlot {findFree : Bool} (h : t.findSlot key findFree = some j) : t.slots.isSome := by
  rw [findSlot] at h
  split_ifs at h with hnull
  simpa [Option.isSome_iff_ne_none, Option.isNone_iff_eq_none] using hnull

theorem lookup_iff (h : t.Wf) : t.lookup key = some value ↔ ∃ j, t.Holds j key ∧ (t.slot j).value = value := by
  simp [lookup, findSlot_iff h]

theorem lookup_eq_none (h : t.Wf) : t.lookup key = none ↔ ∀ j, ¬t.Holds j key := by
  rw [lookup, Option.map_eq_none_iff, Option.eq_none_iff_forall_ne_some]
  simp only [ne_eq, findSlot_iff h]

theorem slot_setSlot {s : Slot} (h : t.Wf) (hj : j < t.capacity) (hs : t.slots.isSome) :
    (t.setSlot j s).slot k = if k = j then s else t.slot k := by
  obtain ⟨slots, hslots⟩ := Option.isSome_iff_exists.mp hs
  have len := h.length slots hslots
  simp only [slot, setSlot, hslots, Option.map_some, Option.getD_some, List.getD_eq_getElem?_getD, List.getElem?_set]
  by_cases hk : k = j
  · subst hk
    simp [len, hj]
  · simp [hk, Ne.symm hk]

/-- What is found behind a change of one slot that frees nothing. -/
theorem wf_of_slots (h : t.Wf) (hcap : t'.capOrder = t.capOrder)
    (hlen : ∀ slots, t'.slots = some slots → slots.length = t.capacity)
    (hfree : ∀ k, (t'.slot k).state = .free → (t.slot k).state = .free)
    (hholds : ∀ k key, t'.Holds k key → t.Holds k key ∨ (∀ k', t'.Holds k' key → k' = k) ∧
      ∃ i < t.capacity, t.probe key i = k ∧ ∀ i' < i, (t.slot (t.probe key i')).state ≠ .free) : t'.Wf := by
  have cap : t'.capacity = t.capacity := by rw [capacity, hcap, capacity]
  have way : ∀ key i, t'.probe key i = t.probe key i := by
    intro key i
    simp only [probe, probeSlot, hashValue, cap, hcap]
  refine ⟨fun slots hs => by rw [cap, hlen slots hs], fun k key hk => ?_, fun k k' key hk hk' => ?_⟩
  · obtain ⟨i, hi, hprobe, hway⟩ : ∃ i < t.capacity, t.probe key i = k ∧ ∀ i' < i, (t.slot (t.probe key i')).state ≠ .free :=
      (hholds k key hk).elim (h.reach k key) And.right
    refine ⟨i, cap ▸ hi, by rw [way, hprobe], fun i' hi' hf => hway i' hi' ?_⟩
    rw [way] at hf
    exact hfree _ hf
  · rcases hholds k key hk with hold | ⟨hone, -⟩
    · rcases hholds k' key hk' with hold' | ⟨hone', -⟩
      · exact h.unique k k' key hold hold'
      · exact hone' k hk
    · exact (hone k' hk').symm

/-- A new key joins the map. -/
theorem insertNew_eq_some (h : t.Wf) (habsent : ∀ j, ¬t.Holds j key) (hi : t.insertNew key value = some t') :
    t'.Wf ∧ ∀ k, t'.lookup k = if k = key then some value else t.lookup k := by
  simp only [insertNew, Option.bind_eq_bind, Option.bind_eq_some_iff, Option.pure_def, Option.some.injEq, Option.guard_eq_some'] at hi
  obtain ⟨j, hfind, -, hstate, rfl⟩ := hi
  rw [findSlot] at hfind
  split_ifs at hfind with hnull
  obtain ⟨i, hi, hj, -, hway⟩ := findFrom_eq_some hfind
  rw [Nat.zero_add] at hj
  have inside : j < t.capacity := hj ▸ t.probe_lt key i
  set t' : Hmap := { t.setSlot j ⟨.used, key, value⟩ with size := t.size + 1 }
  have slots : ∀ k, t'.slot k = if k = j then ⟨.used, key, value⟩ else t.slot k := fun k =>
    slot_setSlot h inside (by simpa [Option.isSome_iff_ne_none, Option.isNone_iff_eq_none] using hnull)
  have holds : ∀ k key', t'.Holds k key' ↔ k = j ∧ key' = key ∨ t.Holds k key' := by
    intro k key'
    rw [Holds, slots]
    by_cases hk : k = j
    · subst hk
      simp [Holds, hstate, eq_comm]
    · simp [Holds, hk]
  have wf : t'.Wf := by
    refine wf_of_slots h rfl (fun slots hs => ?_) (fun k hf => ?_) fun k key' hk => ?_
    · obtain ⟨old, hold, rfl⟩ := Option.map_eq_some_iff.mp hs
      rw [List.length_set, h.length old hold]
    · rw [slots] at hf
      split_ifs at hf
      exact hf
    · rcases (holds k key').mp hk with ⟨rfl, rfl⟩ | hold
      · refine .inr ⟨fun k' hk' => ?_, i, hi, hj.symm, fun i' hi' => ?_⟩
        · exact ((holds k' key').mp hk').elim And.left fun hold => absurd hold (habsent k')
        · have used := hway rfl i' hi'
          rw [Nat.zero_add] at used
          simp [used]
      · exact .inl hold
  refine ⟨wf, fun k => Option.ext fun v => ?_⟩
  rw [lookup_iff wf]
  by_cases hk : k = key
  · subst hk
    simp only [holds, if_true, Option.some.injEq]
    constructor
    · rintro ⟨j', ⟨rfl, -⟩ | hold, rfl⟩
      · rw [slots, if_pos rfl]
      · exact absurd hold (habsent j')
    · rintro rfl
      exact ⟨j, .inl ⟨rfl, trivial⟩, by rw [slots, if_pos rfl]⟩
  · simp only [holds, hk, and_false, false_or, if_false, lookup_iff h]
    refine exists_congr fun j' => and_congr_right fun hold => ?_
    rw [slots, if_neg]
    rintro rfl
    exact hstate hold.1

/-- A used slot of the list is a used slot of the table. -/
theorem mem_slots_iff {v : ℕ} : ⟨.used, k, v⟩ ∈ t.slots.getD [] ↔ ∃ j, t.Holds j k ∧ (t.slot j).value = v := by
  rw [List.mem_iff_getElem?]
  refine exists_congr fun j => ?_
  simp only [Holds, slot, List.getD_eq_getElem?_getD]
  cases (t.slots.getD [])[j]? with
  | none => simp
  | some s =>
    obtain ⟨state, key, value⟩ := s
    simp [and_assoc]

/-- Copying slots with keys of their own adds what they hold. -/
theorem foldlM_copySlot {ss : List Slot} (h : t.Wf)
    (hkeys : ss.Pairwise fun s s' => s.state = .used → s'.state = .used → s.key ≠ s'.key)
    (hnew : ∀ s ∈ ss, s.state = .used → t.lookup s.key = none) (hcopy : ss.foldlM copySlot t = some t') :
    t'.Wf ∧ ∀ k v, t'.lookup k = some v ↔ t.lookup k = some v ∨ ⟨.used, k, v⟩ ∈ ss := by
  induction ss generalizing t with
  | nil =>
    cases hcopy
    exact ⟨h, by simp⟩
  | cons s ss ih =>
    simp only [List.foldlM_cons, Option.bind_eq_bind, Option.bind_eq_some_iff] at hcopy
    obtain ⟨u, hu, hcopy⟩ := hcopy
    rw [List.pairwise_cons] at hkeys
    obtain ⟨hs, hkeys⟩ := hkeys
    have hnew' : ∀ s' ∈ ss, s'.state = .used → t.lookup s'.key = none := fun s' hs' => hnew s' (List.mem_cons_of_mem _ hs')
    simp only [copySlot] at hu
    split_ifs at hu with hused
    · have absent := (lookup_eq_none h).mp (hnew s List.mem_cons_self hused)
      obtain ⟨wf, found⟩ := insertNew_eq_some h absent hu
      have later : ∀ s' ∈ ss, s'.state = .used → u.lookup s'.key = none := by
        intro s' hs' hused'
        rw [found, if_neg (hs s' hs' hused hused').symm, hnew' s' hs' hused']
      obtain ⟨wf', found'⟩ := ih wf hkeys later hcopy
      refine ⟨wf', fun k v => ?_⟩
      rw [found', found, List.mem_cons]
      by_cases hk : k = s.key
      · have none : t.lookup k = none := hk ▸ hnew s List.mem_cons_self hused
        obtain ⟨state, key, value⟩ := s
        subst hk hused
        simp [none, eq_comm]
      · have other : (⟨.used, k, v⟩ : Slot) ≠ s := by
          rintro rfl
          exact hk rfl
        simp [hk, other]
    · obtain rfl := Option.some.inj hu
      obtain ⟨wf', found'⟩ := ih h hkeys hnew' hcopy
      refine ⟨wf', fun k v => ?_⟩
      have other : (⟨.used, k, v⟩ : Slot) ≠ s := by
        rintro rfl
        exact hused rfl
      rw [found', List.mem_cons]
      simp [other]

/-- A table of free slots is the empty map. -/
theorem fresh_wf (order : ℕ) : Wf { capOrder := order, slots := some (List.replicate (2 ^ order) {}) } ∧
    ∀ key, lookup { capOrder := order, slots := some (List.replicate (2 ^ order) {}) } key = none := by
  set new : Hmap := { capOrder := order, slots := some (List.replicate (2 ^ order) {}) }
  have free : ∀ j, (new.slot j).state = .free := by
    intro j
    simp only [new, slot, Option.getD_some, List.getD_eq_getElem?_getD, List.getElem?_replicate]
    split_ifs <;> rfl
  have vacant : ∀ j key, ¬new.Holds j key := by
    rintro j key ⟨hused, -⟩
    rw [free] at hused
    cases hused
  have wf : new.Wf := by
    refine ⟨fun slots hs => ?_, fun j key hj => absurd hj (vacant j key), fun j j' key hj => absurd hj (vacant j key)⟩
    cases hs
    exact List.length_replicate
  exact ⟨wf, fun key => (lookup_eq_none wf).mpr fun j => vacant j key⟩

/-- The used slots have keys of their own. -/
theorem pairwise_keys (h : t.Wf) :
    (t.slots.getD []).Pairwise fun s s' => s.state = .used → s'.state = .used → s.key ≠ s'.key := by
  rw [List.pairwise_iff_getElem]
  intro i j hi hj hij hused hused' hkey
  have at_i : t.slot i = (t.slots.getD [])[i] := by simp [slot, List.getD_eq_getElem?_getD, hi]
  have at_j : t.slot j = (t.slots.getD [])[j] := by simp [slot, List.getD_eq_getElem?_getD, hj]
  have same := h.unique i j _ ⟨at_i ▸ hused, at_i ▸ hkey⟩ ⟨at_j ▸ hused', congrArg Slot.key at_j⟩
  omega

/-- A rehash keeps the map. -/
theorem rehash_eq_some {allocated : Bool} {order : ℕ} (h : t.Wf) (hr : t.rehash allocated order = some t') :
    t'.Wf ∧ ∀ k, t'.lookup k = t.lookup k := by
  simp only [rehash, Option.bind_eq_bind, Option.bind_eq_some_iff, Option.guard_eq_some'] at hr
  obtain ⟨-, -, hcopy⟩ := hr
  obtain ⟨wf, empty⟩ := fresh_wf (max order 3)
  obtain ⟨wf', found⟩ := foldlM_copySlot wf (pairwise_keys h) (fun s _ _ => empty s.key) hcopy
  refine ⟨wf', fun k => Option.ext fun v => ?_⟩
  rw [found, empty, mem_slots_iff, lookup_iff h]
  simp

/-- A successful insert sets the value of its key and no other. -/
theorem insert_eq_some {allocated : Bool} (h : t.Wf) (hi : t.insert allocated key value = some t') :
    t'.Wf ∧ ∀ k, t'.lookup k = if k = key then some value else t.lookup k := by
  rw [insert] at hi
  cases hfind : t.findSlot key false with
  | some j =>
    simp only [hfind, Option.some.injEq] at hi
    subst hi
    have hold := (findSlot_iff h).mp hfind
    have slotted := isSome_of_findSlot hfind
    set t' := t.setSlot j { t.slot j with value }
    have slots : ∀ k, t'.slot k = if k = j then { t.slot j with value } else t.slot k := fun k =>
      slot_setSlot h (lt_of_holds h hold) slotted
    have holds : ∀ k key', t'.Holds k key' ↔ t.Holds k key' := by
      intro k key'
      rw [Holds, Holds, slots]
      split_ifs with hk
      · rw [hk]
      · rfl
    have wf : t'.Wf := by
      refine wf_of_slots h rfl (fun slots hs => ?_) (fun k hf => ?_) fun k key' hk => .inl ((holds k key').mp hk)
      · obtain ⟨old, hold, rfl⟩ := Option.map_eq_some_iff.mp hs
        rw [List.length_set, h.length old hold]
      · rw [slots] at hf
        split_ifs at hf with hk
        · exact hk ▸ hf
        · exact hf
    refine ⟨wf, fun k => Option.ext fun v => ?_⟩
    rw [lookup_iff wf]
    simp only [holds]
    by_cases hk : k = key
    · subst hk
      have only : ∀ j', t.Holds j' k → j' = j := fun j' hj' => h.unique j' j k hj' hold
      rw [if_pos rfl, Option.some.injEq]
      constructor
      · rintro ⟨j', hj', rfl⟩
        rw [only j' hj', slots, if_pos rfl]
      · rintro rfl
        exact ⟨j, hold, by rw [slots, if_pos rfl]⟩
    · rw [if_neg hk, lookup_iff h]
      refine exists_congr fun j' => and_congr_right fun hj' => ?_
      rw [slots, if_neg]
      rintro rfl
      exact hk (hj'.2.symm.trans hold.2)
  | none =>
    simp only [hfind, Option.bind_eq_some_iff] at hi
    obtain ⟨u, hu, hi⟩ := hi
    obtain ⟨wf, kept⟩ : u.Wf ∧ ∀ k, u.lookup k = t.lookup k := by
      rw [grow] at hu
      split_ifs at hu
      · exact rehash_eq_some h hu
      · obtain rfl := Option.some.inj hu
        exact ⟨h, fun _ => rfl⟩
    have absent : u.lookup key = none := by rw [kept, lookup, hfind, Option.map_none]
    obtain ⟨wf', found⟩ := insertNew_eq_some wf ((lookup_eq_none wf).mp absent) hi
    exact ⟨wf', fun k => by rw [found, kept]⟩

end Hmap

end SpidirWasm.Util
