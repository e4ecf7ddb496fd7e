import SpidirWasm.Logic.Memory
import SpidirWasm.Logic.Raw

/-! The growing arrays of `vec.h`. Lengths and capacities are `uint32_t`s, and so is
their sum: a vector that is asked for more entries than its length can count grows by
nothing, and its length wraps. -/

namespace SpidirWasm

/-- `vec(type)`; an entry that nobody wrote holds nothing of use. -/
structure Vec (β : Type) where
  length : ℕ := 0
  capacity : ℕ := 0
  elements : Memory β := fun _ => none

/-- The size of an entry, and by size the reallocations that the host grants. One vector
never asks for the same size twice. -/
structure Allocator where
  elemSize : ℕ
  small : elemSize < 2 ^ 32
  realloc : ℕ → Bool

namespace Vec

variable {β : Type} {host : Allocator} {v w : Vec β} {n : ℕ}

/-- The capacity that a growth to `minCap` entries asks for. -/
def growthCap (capacity minCap : ℕ) : ℕ :=
  -- the product is taken in 32 bits
  let twice := 2 * capacity % 2 ^ 32
  if minCap < twice then twice else if minCap < 4 then 4 else minCap

/-- `vec_grow_sized`. -/
def vecGrowSized (host : Allocator) (addlen minCap : ℕ) : Checked (Vec β) Unit := fun v =>
  let minLen := (v.length + addlen) % 2 ^ 32
  let minCap := if minCap < minLen then minLen else minCap
  if minCap ≤ v.capacity then some ((), v)
  else
    let size := host.elemSize * growthCap v.capacity minCap
    if 2 ^ 64 ≤ size then none
    else if host.realloc size then some ((), { v with capacity := growthCap v.capacity minCap })
    else none

/-- `vec_maybe_grow`. -/
def vecMaybeGrow (host : Allocator) (n : ℕ) : Checked (Vec β) Unit := fun v =>
  if v.capacity < (v.length + n) % 2 ^ 32 then vecGrowSized host n 0 v else some ((), v)

/-- `vec_add`, which returns where the new entries start. -/
def vecAdd (host : Allocator) (n : ℕ) : Checked (Vec β) ℕ := do
  let n := n % 2 ^ 32
  vecMaybeGrow host n
  let start ← Checked.read Vec.length
  Checked.update fun v => { v with length := (v.length + n) % 2 ^ 32 }
  return start

/-- `elements[i] = b`, outside of the allocation undefined. -/
def set (i : ℕ) (b : β) (v : Vec β) : Ending (Vec β) :=
  if i < v.capacity then .ok { v with elements := Function.update v.elements i (some b) } else .undefined

/-- The length is allocated, and the capacity fits its field. -/
structure Ok (v : Vec β) : Prop where
  allocated : v.length ≤ v.capacity
  fits : v.capacity < 2 ^ 32

theorem ok_empty : (⟨0, 0, fun _ => none⟩ : Vec β).Ok := ⟨Nat.le_refl 0, Nat.two_pow_pos 32⟩

theorem le_growthCap (capacity minCap : ℕ) : minCap ≤ growthCap capacity minCap := by
  simp only [growthCap]
  split_ifs <;> omega

theorem growthCap_lt {minCap : ℕ} (h : minCap < 2 ^ 32) (capacity : ℕ) : growthCap capacity minCap < 2 ^ 32 := by
  simp only [growthCap]
  split_ifs
  · exact Nat.mod_lt _ (by decide)
  · decide
  · exact h

/-- A growth makes room and touches nothing else. -/
theorem vecMaybeGrow_eq_some (hv : v.Ok) (h : vecMaybeGrow host n v = some ((), w)) : w.Ok ∧
    (v.length + n) % 2 ^ 32 ≤ w.capacity ∧ w.length = v.length ∧ w.elements = v.elements := by
  have hlen : (v.length + n) % 2 ^ 32 < 2 ^ 32 := Nat.mod_lt _ (by decide)
  unfold vecMaybeGrow at h
  by_cases hgrow : v.capacity < (v.length + n) % 2 ^ 32
  · have hpos : 0 < (v.length + n) % 2 ^ 32 := Nat.zero_lt_of_lt hgrow
    have hcap := le_growthCap v.capacity ((v.length + n) % 2 ^ 32)
    simp only [if_pos hgrow, vecGrowSized, if_pos hpos, if_neg (Nat.not_le.mpr hgrow)] at h
    split_ifs at h
    obtain rfl := (Prod.mk.inj (Option.some.inj h)).2
    have hallocated := hv.allocated
    exact ⟨⟨by dsimp only; omega, growthCap_lt hlen _⟩, hcap, rfl, rfl⟩
  · rw [if_neg hgrow] at h
    obtain rfl := (Prod.mk.inj (Option.some.inj h)).2
    exact ⟨hv, Nat.le_of_not_lt hgrow, rfl, rfl⟩

/-- What `vec_add` does when it succeeds, its sum as it is in 32 bits. -/
theorem vecAdd_eq_some {start : ℕ} (hv : v.Ok) (hn : n < 2 ^ 32) (h : vecAdd host n v = some (start, w)) :
    w.Ok ∧ start = v.length ∧ w.length = (v.length + n) % 2 ^ 32 ∧ w.elements = v.elements := by
  obtain ⟨_, u, hu, h⟩ := (Checked.bind_eq_some _ _ _ _).mp h
  obtain ⟨hok, hcap, hlen, helem⟩ := vecMaybeGrow_eq_some hv hu
  rw [Nat.mod_eq_of_lt hn] at hcap h
  obtain ⟨rfl, rfl⟩ := Prod.mk.inj (Option.some.inj h)
  rw [← hlen] at hcap ⊢
  exact ⟨⟨hcap, hok.fits⟩, rfl, rfl, helem⟩

/-- A host that grants every reallocation. -/
def granting : Allocator := ⟨8, by decide, fun _ => true⟩

theorem vecAdd_granting (n : ℕ) (v : Vec β) : ∃ start w, vecAdd granting n v = some (start, w) := by
  have grow : ∃ w, vecMaybeGrow granting (n % 2 ^ 32) v = some ((), w) := by
    have hlen : (v.length + n % 2 ^ 32) % 2 ^ 32 < 2 ^ 32 := Nat.mod_lt _ (by decide)
    unfold vecMaybeGrow
    by_cases hgrow : v.capacity < (v.length + n % 2 ^ 32) % 2 ^ 32
    · have hcap := growthCap_lt hlen v.capacity
      have hsize : ¬2 ^ 64 ≤ granting.elemSize * growthCap v.capacity ((v.length + n % 2 ^ 32) % 2 ^ 32) := by
        change ¬2 ^ 64 ≤ 8 * _
        omega
      refine ⟨{ v with capacity := growthCap v.capacity ((v.length + n % 2 ^ 32) % 2 ^ 32) }, ?_⟩
      simp only [if_pos hgrow, vecGrowSized, if_pos (Nat.zero_lt_of_lt hgrow), if_neg (Nat.not_le.mpr hgrow), if_neg hsize]
      rfl
    · exact ⟨v, if_neg hgrow⟩
  obtain ⟨w, hw⟩ := grow
  exact ⟨w.length, { w with length := (w.length + n % 2 ^ 32) % 2 ^ 32 }, (Checked.bind_eq_some _ _ _ _).mpr ⟨(), w, hw, rfl⟩⟩

end Vec

end SpidirWasm
