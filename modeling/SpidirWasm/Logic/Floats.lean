import Mathlib.Algebra.Order.Floor.Ring
import Mathlib.Algebra.Order.Ring.Rat
import Mathlib.Data.Rat.Floor
import Mathlib.Tactic.Linarith

/-! Floating-point numbers by their exact values. A bit pattern of a binary format stands for
a rational, an infinity or no number; numbers are compared by their values and truncated toward
zero. -/

namespace SpidirWasm.Floats

section Truncate

variable {α : Type*} [Ring α] [LinearOrder α] [IsStrictOrderedRing α] [FloorRing α] {q : α} {lo hi : ℤ}

/-- The nearest integer on the side of zero. -/
def truncate (q : α) : ℤ := if 0 ≤ q then ⌊q⌋ else ⌈q⌉

omit [IsStrictOrderedRing α] in
theorem truncate_of_nonneg (h : 0 ≤ q) : truncate q = ⌊q⌋ := if_pos h

theorem truncate_of_nonpos (h : q ≤ 0) : truncate q = ⌈q⌉ := by
  obtain rfl | hneg := eq_or_lt_of_le h
  · rw [truncate_of_nonneg le_rfl, Int.floor_zero, Int.ceil_zero]
  · exact if_neg hneg.not_ge

@[simp] theorem truncate_intCast (n : ℤ) : truncate (n : α) = n := by
  rw [truncate, Int.floor_intCast, Int.ceil_intCast, ite_self]

theorem truncate_mono {q r : α} (h : q ≤ r) : truncate q ≤ truncate r := by
  rcases le_total 0 q with hq | hq
  · rw [truncate_of_nonneg hq, truncate_of_nonneg (hq.trans h)]
    exact Int.floor_mono h
  · rcases le_total 0 r with hr | hr
    · rw [truncate_of_nonpos hq, truncate_of_nonneg hr]
      exact (Int.ceil_le.mpr (by simpa using hq)).trans (Int.floor_nonneg.mpr hr)
    · rw [truncate_of_nonpos hq, truncate_of_nonpos hr]
      exact Int.ceil_mono h

/-- What is above `lo - 1` is truncated to `lo` at least, as long as this is not above zero. -/
theorem le_truncate (hlo : lo ≤ 0) (h : (lo : α) - 1 < q) : lo ≤ truncate q := by
  rcases le_total 0 q with hq | hq
  · rw [truncate_of_nonneg hq]
    exact hlo.trans (Int.floor_nonneg.mpr hq)
  · rw [truncate_of_nonpos hq, ← Int.sub_one_lt_iff, Int.lt_ceil]
    push_cast
    exact h

theorem truncate_le (hhi : 0 ≤ hi) (h : q < hi + 1) : truncate q ≤ hi := by
  rcases le_total 0 q with hq | hq
  · rw [truncate_of_nonneg hq, ← Int.lt_add_one_iff, Int.floor_lt]
    push_cast
    exact h
  · rw [truncate_of_nonpos hq]
    exact (Int.ceil_le.mpr (by simpa using hq)).trans hhi

end Truncate

/-- A floating-point number by its value. Both zeros are 0. -/
inductive Number where
  | nan
  | infinite (negative : Bool)
  | finite (value : ℚ)
  deriving DecidableEq

namespace Number

def isNan : Number → Bool
  | nan => true
  | _ => false

/-- Less than; nothing that is no number is. -/
def lt : Number → Number → Bool
  | finite q, finite r => q < r
  | infinite true, finite _ | infinite true, infinite false | finite _, infinite false => true
  | _, _ => false

/-- Less than or equal. -/
def le : Number → Number → Bool
  | finite q, finite r => q ≤ r
  | infinite true, infinite _ | infinite true, finite _ | finite _, infinite false | infinite false, infinite false => true
  | _, _ => false

/-- A conversion to an integer type with the values from `lo` to `hi`, which is defined where
the truncated value is one of them. -/
def cast (lo hi : ℤ) : Number → Option ℤ
  | finite q => if lo ≤ truncate q ∧ truncate q ≤ hi then some (truncate q) else none
  | _ => none

/-- The truncated value, or the bound that is nearest to it; 0 for what is no number. -/
def saturate (lo hi : ℤ) : Number → ℤ
  | nan => 0
  | infinite negative => if negative then lo else hi
  | finite q => max lo (min hi (truncate q))

variable {v : Number} {lo hi : ℤ}

/-- What is less than or equal to `lo` saturates at it. -/
theorem saturate_of_le (h : v.le (finite lo)) : v.saturate lo hi = lo := by
  cases v with
  | nan => cases h
  | infinite negative =>
    cases negative with
    | true => rfl
    | false => cases h
  | finite q =>
    have below : truncate q ≤ lo := truncate_intCast (α := ℚ) lo ▸ truncate_mono (of_decide_eq_true h)
    exact max_eq_left ((min_le_right _ _).trans below)

theorem le_of_lt {w : Number} (h : v.lt w) : v.le w := by
  unfold lt at h
  split at h
  · exact decide_eq_true (of_decide_eq_true h).le
  · rfl
  · rfl
  · rfl
  · cases h

/-- What is `hi + 1` at least saturates at `hi`. -/
theorem saturate_of_ge (hlo : lo ≤ hi) (h : (finite (hi + 1)).le v) : v.saturate lo hi = hi := by
  cases v with
  | nan => cases h
  | infinite negative =>
    cases negative with
    | true => cases h
    | false => rfl
  | finite q =>
    have reached : ((hi + 1 : ℤ) : ℚ) ≤ q := by
      push_cast
      exact of_decide_eq_true h
    have above : hi + 1 ≤ truncate q := truncate_intCast (α := ℚ) (hi + 1) ▸ truncate_mono reached
    rw [saturate, min_eq_left (by omega), max_eq_right hlo]

/-- What is in between is converted, and saturates at no bound. -/
theorem cast_eq_saturate (hlo : lo ≤ 0) (hhi : 0 ≤ hi) (hnan : ¬v.isNan) (hlow : ¬v.lt (finite lo)) (hhigh : ¬(finite (hi + 1)).le v) :
    v.cast lo hi = some (v.saturate lo hi) := by
  cases v with
  | nan => exact absurd rfl hnan
  | infinite negative =>
    cases negative with
    | true => exact absurd rfl hlow
    | false => exact absurd rfl hhigh
  | finite q =>
    have low : (lo : ℚ) ≤ q := not_lt.mp fun h => hlow (decide_eq_true h)
    have high : q < hi + 1 := not_le.mp fun h => hhigh (decide_eq_true h)
    have fits : lo ≤ truncate q ∧ truncate q ≤ hi := ⟨le_truncate hlo (by linarith), truncate_le hhi high⟩
    rw [cast, if_pos fits, saturate, min_eq_right fits.2, max_eq_right fits.1]

end Number

/-- A binary format: the number of bits of the exponent and of the fraction. -/
structure Format where
  exponent : ℕ
  fraction : ℕ

namespace Format

def binary32 : Format := ⟨8, 23⟩

def binary64 : Format := ⟨11, 52⟩

/-- How far the exponent of an integral significand lies below the exponent field. -/
def offset (f : Format) : ℕ := 2 ^ (f.exponent - 1) - 1 + f.fraction

/-- The number that the low bits of a word stand for. -/
def decode (f : Format) (bits : ℕ) : Number :=
  let negative := bits.testBit (f.exponent + f.fraction)
  let exponent := bits / 2 ^ f.fraction % 2 ^ f.exponent
  let fraction := bits % 2 ^ f.fraction
  let sign : ℚ := if negative then -1 else 1
  if exponent = 2 ^ f.exponent - 1 then
    if fraction = 0 then .infinite negative else .nan
  else if exponent = 0 then .finite (sign * fraction * 2 ^ (1 - f.offset : ℤ))
  else .finite (sign * (2 ^ f.fraction + fraction) * 2 ^ (exponent - f.offset : ℤ))

end Format

end SpidirWasm.Floats
