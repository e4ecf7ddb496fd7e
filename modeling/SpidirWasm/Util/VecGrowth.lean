import SpidirWasm.Util.Vec

/-! The growth of a `vec.h` array in bytes. The length and the count to add are `uint32_t`s
and so is their sum, which is compared with the capacity before anything is checked: a sum
that wraps asks for no growth, and the call succeeds with the wrapped length. -/

namespace SpidirWasm

/-- `vec_t`: the data is the block that `wasm_host_realloc` gave last, null if it is empty. -/
structure RawVec where
  length : ℕ := 0
  capacity : ℕ := 0
  data : List UInt8 := []
  deriving DecidableEq, Repr

/-- `wasm_host_realloc`, which keeps the bytes that fit the new block, or fails. -/
structure Realloc where
  run : List UInt8 → ℕ → Option (List UInt8)
  length : ∀ block size block', run block size = some block' → block'.length = size
  keeps : ∀ block size block', run block size = some block' → block'.take block.length = block.take size

namespace RawVec

/-- A call on a vector, which leaves one whether or not it returns an error. -/
abbrev Call (α : Type) := EStateM Unit RawVec α

/-- `vec_grow_sized`. -/
def vecGrowSized (host : Realloc) (elemsize addlen minCap : ℕ) : Call Unit := fun v =>
  let minLen := (v.length + addlen) % 2 ^ 32
  let minCap := if minCap < minLen then minLen else minCap
  if minCap ≤ v.capacity then .ok () v
  else
    let size := elemsize * Vec.growthCap v.capacity minCap
    if 2 ^ 64 ≤ size then .error () v
    else
      match host.run v.data size with
      | some b => .ok () { v with data := b, capacity := Vec.growthCap v.capacity minCap }
      | none => .error () v

/-- `vec_maybe_grow`. -/
def vecMaybeGrow (host : Realloc) (elemsize n : ℕ) : Call Unit := fun v =>
  if v.capacity < (v.length + n) % 2 ^ 32 then vecGrowSized host elemsize n 0 v else .ok () v

/-- `vec_add`, which returns the index of the first new element. -/
def vecAdd (host : Realloc) (elemsize n : ℕ) : Call ℕ := do
  let n := n % 2 ^ 32
  vecMaybeGrow host elemsize n
  let v ← get
  set { v with length := (v.length + n) % 2 ^ 32 }
  return v.length

/-- `elements[i] = value` in bytes. -/
def store (elemsize i : ℕ) (value : List UInt8) (v : RawVec) : RawVec :=
  { v with data := v.data.take (i * elemsize) ++ value ++ v.data.drop ((i + 1) * elemsize) }

/-- `vec_push`; a store behind the block is undefined. -/
def vecPush (host : Realloc) (elemsize : ℕ) (value : List UInt8) (v : RawVec) : Ending (EStateM.Result Unit RawVec Unit) :=
  match vecMaybeGrow host elemsize 1 v with
  | .error () w => .ok (.error () w)
  | .ok () w =>
    if (w.length + 1) * elemsize ≤ w.data.length then
      .ok (.ok () { w.store elemsize w.length value with length := (w.length + 1) % 2 ^ 32 })
    else .undefined

/-- The capacity is allocated, it fits its field, and the length is within. -/
structure Ok (elemsize : ℕ) (v : RawVec) : Prop where
  within : v.length ≤ v.capacity
  fits : v.capacity < 2 ^ 32
  allocated : v.data.length = v.capacity * elemsize

/-- What a call that adds `n` elements should do. -/
def Extends (elemsize n : ℕ) (v : RawVec) {α : Type} : EStateM.Result Unit RawVec α → Prop
  | .error () w => w = v
  | .ok _ w => w.length = v.length + n ∧ w.length ≤ w.capacity ∧ w.data.length = w.capacity * elemsize ∧
      w.data.take (v.length * elemsize) = v.data.take (v.length * elemsize)

/-- The growth that a sum asks for is more than can be counted or than the host has. -/
def Refused (host : Realloc) (elemsize n : ℕ) (v : RawVec) : Prop :=
  let minLen := (v.length + n) % 2 ^ 32
  let size := elemsize * Vec.growthCap v.capacity minLen
  v.capacity < minLen ∧ (2 ^ 64 ≤ size ∨ host.run v.data size = none)

variable {host : Realloc} {elemsize n : ℕ} {v w : RawVec} {value : List UInt8}

/-! ### A growth -/

theorem vecMaybeGrow_refused (h : v.Refused host elemsize n) : vecMaybeGrow host elemsize n v = .error () v := by
  obtain ⟨hgrow, hfail⟩ := h
  have hpos : 0 < (v.length + n) % 2 ^ 32 := Nat.zero_lt_of_lt hgrow
  simp only [vecMaybeGrow, if_pos hgrow, vecGrowSized, if_pos hpos, if_neg (Nat.not_le.mpr hgrow)]
  split_ifs with hsize
  · rfl
  · rw [hfail.resolve_left hsize]

/-- A growth that is not refused makes room for the sum as it is in 32 bits, and keeps the bytes. -/
theorem vecMaybeGrow_granted (hv : v.Ok elemsize) (h : ¬v.Refused host elemsize n) :
    ∃ w, vecMaybeGrow host elemsize n v = .ok () w ∧ w.length = v.length ∧ w.Ok elemsize ∧
      (v.length + n) % 2 ^ 32 ≤ w.capacity ∧ w.data.take v.data.length = v.data := by
  by_cases hgrow : v.capacity < (v.length + n) % 2 ^ 32
  · have hpos : 0 < (v.length + n) % 2 ^ 32 := Nat.zero_lt_of_lt hgrow
    have hcap := Vec.le_growthCap v.capacity ((v.length + n) % 2 ^ 32)
    have hfits := Vec.growthCap_lt (Nat.mod_lt (v.length + n) (Nat.two_pow_pos 32)) v.capacity
    set cap := Vec.growthCap v.capacity ((v.length + n) % 2 ^ 32)
    obtain ⟨hsize, hrun⟩ : ¬2 ^ 64 ≤ elemsize * cap ∧ ¬host.run v.data (elemsize * cap) = none :=
      not_or.mp fun hfail => h ⟨hgrow, hfail⟩
    obtain ⟨b, hb⟩ := Option.ne_none_iff_exists'.mp hrun
    have hlen := host.length _ _ _ hb
    have more : v.data.length ≤ elemsize * cap := by
      rw [hv.allocated, Nat.mul_comm elemsize]
      exact Nat.mul_le_mul_right elemsize (by omega)
    refine ⟨{ v with data := b, capacity := cap }, ?_, rfl, ⟨?_, hfits, ?_⟩, hcap, ?_⟩
    · simp only [vecMaybeGrow, if_pos hgrow, vecGrowSized, if_pos hpos, if_neg (Nat.not_le.mpr hgrow), if_neg hsize, cap, hb]
    · exact Nat.le_trans hv.within (Nat.le_trans (Nat.le_of_lt hgrow) hcap)
    · rw [hlen, Nat.mul_comm]
    · rw [host.keeps _ _ _ hb, List.take_of_length_le more]
  · exact ⟨v, if_neg hgrow, rfl, hv, Nat.le_of_not_lt hgrow, List.take_length⟩

/-- The elements of a vector are the same after a growth. -/
theorem elements_eq (hv : v.Ok elemsize) (h : w.data.take v.data.length = v.data) :
    w.data.take (v.length * elemsize) = v.data.take (v.length * elemsize) := by
  have le : v.length * elemsize ≤ v.data.length := by
    rw [hv.allocated]
    exact Nat.mul_le_mul_right elemsize hv.within
  rw [← h, List.take_take, Nat.min_eq_left le]

/-! ### Adding elements -/

theorem vecAdd_refused (h : v.Refused host elemsize n) : vecAdd host elemsize n v = .error () v := by
  have same : v.Refused host elemsize (n % 2 ^ 32) := by rwa [Refused, Nat.add_mod_mod]
  change EStateM.bind (vecMaybeGrow host elemsize (n % 2 ^ 32)) _ v = _
  rw [EStateM.bind, vecMaybeGrow_refused same]

/-- What is added is what the sum leaves in 32 bits. -/
theorem vecAdd_granted (hv : v.Ok elemsize) (h : ¬v.Refused host elemsize n) :
    ∃ w, vecAdd host elemsize n v = .ok v.length w ∧ w.length = (v.length + n) % 2 ^ 32 ∧ w.Ok elemsize ∧
      w.data.take (v.length * elemsize) = v.data.take (v.length * elemsize) := by
  have same : ¬v.Refused host elemsize (n % 2 ^ 32) := by rwa [Refused, Nat.add_mod_mod]
  obtain ⟨w, hw, hlen, hok, hroom, hdata⟩ := vecMaybeGrow_granted hv same
  rw [Nat.add_mod_mod] at hroom
  refine ⟨{ w with length := (v.length + n) % 2 ^ 32 }, ?_, rfl, ⟨hroom, hok.fits, hok.allocated⟩, elements_eq hv hdata⟩
  change EStateM.bind (vecMaybeGrow host elemsize (n % 2 ^ 32)) _ v = _
  rw [EStateM.bind, hw]
  change EStateM.Result.ok w.length { w with length := (w.length + n % 2 ^ 32) % 2 ^ 32 } = _
  rw [hlen, Nat.add_mod_mod]

theorem vecAdd_extends_iff (hv : v.Ok elemsize) :
    v.Extends elemsize n (vecAdd host elemsize n v) ↔ v.length + n < 2 ^ 32 ∨ v.Refused host elemsize n := by
  by_cases hrefused : v.Refused host elemsize n
  · rw [vecAdd_refused hrefused]
    exact iff_of_true rfl (.inr hrefused)
  · obtain ⟨w, hw, hlen, hok, hdata⟩ := vecAdd_granted hv hrefused
    rw [hw, or_iff_left hrefused]
    constructor
    · rintro ⟨hsum, -⟩
      rw [← hsum, hlen]
      exact Nat.mod_lt _ (Nat.two_pow_pos 32)
    · intro hsum
      rw [Nat.mod_eq_of_lt hsum] at hlen
      exact ⟨hlen, hok.within, hok.allocated, hdata⟩

/-- A store inside the block keeps its size and the elements before. -/
theorem store_data (hvalue : value.length = elemsize) {i : ℕ} (hi : (i + 1) * elemsize ≤ w.data.length) :
    (w.store elemsize i value).data.length = w.data.length ∧
      (w.store elemsize i value).data.take (i * elemsize) = w.data.take (i * elemsize) := by
  have next : (i + 1) * elemsize = i * elemsize + elemsize := Nat.succ_mul i elemsize
  have front : (w.data.take (i * elemsize)).length = i * elemsize := by
    rw [List.length_take]
    omega
  constructor
  · simp only [store, List.length_append, front, hvalue, List.length_drop]
    omega
  · simp only [store, List.append_assoc]
    rw [List.take_append_of_le_length (by omega), List.take_of_length_le (by omega)]

theorem vecPush_extends_iff (hv : v.Ok elemsize) (hvalue : value.length = elemsize) :
    (∃ r, vecPush host elemsize value v = .ok r ∧ v.Extends elemsize 1 r) ↔ v.length + 1 < 2 ^ 32 := by
  constructor
  · rintro ⟨r, hr, hext⟩
    by_contra hmax
    -- at the largest length the sum is zero, which asks for nothing
    have wrapped : v.length + 1 = 2 ^ 32 := by
      have := hv.within
      have := hv.fits
      omega
    have still : vecMaybeGrow host elemsize 1 v = .ok () v := by
      rw [vecMaybeGrow, wrapped, Nat.mod_self]
      exact if_neg (Nat.not_lt_zero _)
    simp only [vecPush, still] at hr
    split_ifs at hr
    obtain rfl := Ending.ok.inj hr
    have hlen : (v.length + 1) % 2 ^ 32 = v.length + 1 := hext.1
    rw [wrapped, Nat.mod_self] at hlen
    cases hlen
  · intro hsum
    by_cases hrefused : v.Refused host elemsize 1
    · exact ⟨.error () v, by simp only [vecPush, vecMaybeGrow_refused hrefused], rfl⟩
    · obtain ⟨w, hw, hlen, hok, hroom, hdata⟩ := vecMaybeGrow_granted hv hrefused
      rw [Nat.mod_eq_of_lt hsum] at hroom
      have inside : (w.length + 1) * elemsize ≤ w.data.length := by
        rw [hok.allocated, hlen]
        exact Nat.mul_le_mul_right elemsize hroom
      obtain ⟨hsize, hkept⟩ := store_data hvalue inside
      have run : vecPush host elemsize value v = .ok (.ok () { w.store elemsize w.length value with length := (w.length + 1) % 2 ^ 32 }) := by
        simp only [vecPush, hw, if_pos inside]
      refine ⟨_, run, ?_, ?_, ?_, ?_⟩
      · rw [hlen]
        exact Nat.mod_eq_of_lt hsum
      · rw [hlen, Nat.mod_eq_of_lt hsum]
        exact hroom
      · exact hsize.trans hok.allocated
      · rw [← hlen, hkept, hlen]
        exact elements_eq hv hdata

/-- Adding elements does what it should as long as the new length can be counted, or if the
growth for the sum that is left of it is refused. -/
theorem vec_extends_iff (hv : v.Ok elemsize) (hvalue : value.length = elemsize) :
    (v.Extends elemsize n (vecAdd host elemsize n v) ↔ v.length + n < 2 ^ 32 ∨ v.Refused host elemsize n) ∧
    ((∃ r, vecPush host elemsize value v = .ok r ∧ v.Extends elemsize 1 r) ↔ v.length + 1 < 2 ^ 32) :=
  ⟨vecAdd_extends_iff hv, vecPush_extends_iff hv hvalue⟩

/-- A host that has any block, zeros behind the old bytes. -/
def generous : Realloc where
  run block size := some ((block ++ List.replicate size 0).take size)
  length block size block' h := by
    obtain rfl := Option.some.inj h
    simp
  keeps block size block' h := by
    obtain rfl := Option.some.inj h
    rw [List.take_take, Nat.min_comm, ← List.take_take, List.take_left]

theorem vec_extends_iff_two : Extends 2 3 ⟨2, 2, [5, 6, 7, 8]⟩ (vecAdd generous 2 3 ⟨2, 2, [5, 6, 7, 8]⟩) ∧
    ∃ r, vecPush generous 2 [1, 2] ⟨2, 2, [5, 6, 7, 8]⟩ = .ok r ∧ Extends 2 1 ⟨2, 2, [5, 6, 7, 8]⟩ r := by
  have here : Ok 2 ⟨2, 2, [5, 6, 7, 8]⟩ := ⟨Nat.le_refl 2, by decide, rfl⟩
  obtain ⟨hadd, hpush⟩ := @vec_extends_iff generous 2 3 ⟨2, 2, [5, 6, 7, 8]⟩ [1, 2] here rfl
  exact ⟨hadd.mpr (.inl (by decide)), hpush.mpr (by decide)⟩

/-- Three entries and a count two below the largest: the sum is one, and nothing grows. -/
theorem vecAdd_wraps : Ok 1 ⟨3, 4, [1, 2, 3, 4]⟩ ∧
    ¬Extends 1 (2 ^ 32 - 2) ⟨3, 4, [1, 2, 3, 4]⟩ (vecAdd generous 1 (2 ^ 32 - 2) ⟨3, 4, [1, 2, 3, 4]⟩) := by
  refine ⟨⟨by decide, by decide, rfl⟩, fun h => ?_⟩
  have hlen : 1 = 3 + (2 ^ 32 - 2) := h.1
  omega

/-! ### The counts alone -/

/-- The allocator that answers for a block as the host does. -/
def allocator (host : Realloc) (elemsize : ℕ) (small : elemsize < 2 ^ 32) (block : List UInt8) : Allocator :=
  ⟨elemsize, small, fun size => (host.run block size).isSome⟩

/-- A vector with entries of its own type instead of bytes. -/
def counts {β : Type} (elements : Memory β) (v : RawVec) : Vec β := ⟨v.length, v.capacity, elements⟩

/-- What a call returns, with its vector unless it fails. -/
def toChecked {α β : Type} (elements : Memory β) : EStateM.Result Unit RawVec α → Option (α × Vec β)
  | .ok a w => some (a, w.counts elements)
  | .error () _ => none

theorem vecMaybeGrow_counts {β : Type} (elements : Memory β) (small : elemsize < 2 ^ 32) :
    Vec.vecMaybeGrow (allocator host elemsize small v.data) n (v.counts elements) =
      toChecked elements (vecMaybeGrow host elemsize n v) := by
  unfold Vec.vecMaybeGrow Vec.vecGrowSized vecMaybeGrow vecGrowSized allocator counts
  dsimp only
  by_cases hgrow : v.capacity < (v.length + n) % 2 ^ 32
  · have hpos : 0 < (v.length + n) % 2 ^ 32 := Nat.zero_lt_of_lt hgrow
    simp only [if_pos hgrow, if_pos hpos, if_neg (Nat.not_le.mpr hgrow)]
    split_ifs with hsize hrun
    · rfl
    · obtain ⟨b, hb⟩ := Option.isSome_iff_exists.mp hrun
      rw [hb]
      rfl
    · rw [Option.not_isSome_iff_eq_none.mp hrun]
      rfl
  · rw [if_neg hgrow, if_neg hgrow]
    rfl

/-- The loader's vectors add as these do. -/
theorem vecAdd_counts {β : Type} (elements : Memory β) (small : elemsize < 2 ^ 32) :
    Vec.vecAdd (allocator host elemsize small v.data) n (v.counts elements) = toChecked elements (vecAdd host elemsize n v) := by
  have grown := @vecMaybeGrow_counts host elemsize (n % 2 ^ 32) v β elements small
  change (Vec.vecMaybeGrow _ (n % 2 ^ 32) (v.counts elements)).bind _ = toChecked elements (EStateM.bind (vecMaybeGrow host elemsize (n % 2 ^ 32)) _ v)
  rw [grown, EStateM.bind]
  cases vecMaybeGrow host elemsize (n % 2 ^ 32) v <;> rfl

end RawVec

end SpidirWasm
