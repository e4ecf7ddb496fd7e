import Mathlib.Algebra.Group.Int.Defs
import Mathlib.Algebra.Group.Nat.Defs
import Mathlib.Data.BitVec
import Mathlib.Tactic.Common

/-! Arithmetic of words by masks. A count is reduced modulo a power of two, a rotation is put
together from two shifts, and the one signed remainder that does not fit is taken of zero. -/

namespace SpidirWasm.Bits

variable {n k : ℕ}

/-- A mask of low bits takes a remainder. -/
theorem toNat_and_mask (x : BitVec n) (hk : 2 ^ k ≤ 2 ^ n) : (x &&& BitVec.ofNat n (2 ^ k - 1)).toNat = x.toNat % 2 ^ k := by
  have hpos : 0 < 2 ^ k := Nat.two_pow_pos k
  rw [BitVec.toNat_and, BitVec.toNat_ofNat, Nat.mod_eq_of_lt (by omega), Nat.and_two_pow_sub_one_eq_mod]

/-- The other half of a rotation by less than the width, which is a shift by nothing where the first is. -/
theorem toNat_mask_sub {s : BitVec (2 ^ k)} (hs : s.toNat < 2 ^ k) :
    (BitVec.ofNat (2 ^ k) (2 ^ k - 1) &&& (BitVec.ofNat (2 ^ k) (2 ^ k) - s)).toNat = (2 ^ k - s.toNat) % 2 ^ k := by
  have small : 2 ^ k < 2 ^ 2 ^ k := Nat.lt_two_pow_self
  have sub : (BitVec.ofNat (2 ^ k) (2 ^ k) - s).toNat = 2 ^ k - s.toNat := by
    rw [BitVec.toNat_sub, BitVec.toNat_ofNat, Nat.mod_eq_of_lt small]
    have split : 2 ^ 2 ^ k - s.toNat + 2 ^ k = 2 ^ 2 ^ k + (2 ^ k - s.toNat) := by omega
    rw [split, Nat.add_mod_left, Nat.mod_eq_of_lt (by omega)]
  rw [BitVec.and_comm, toNat_and_mask _ small.le, sub]

/-- A rotation to the left by two shifts. -/
theorem rotateLeft_eq (x : BitVec n) {s : ℕ} (hs : s < n) : x <<< s ||| x >>> ((n - s) % n) = x.rotateLeft s := by
  rw [BitVec.rotateLeft_def, Nat.mod_eq_of_lt hs]
  obtain rfl | hpos := Nat.eq_zero_or_pos s
  · simp [BitVec.ushiftRight_eq_zero (Nat.le_refl n)]
  · rw [Nat.mod_eq_of_lt (by omega)]

/-- A rotation to the right. -/
theorem rotateRight_eq (x : BitVec n) {s : ℕ} (hs : s < n) : x >>> s ||| x <<< ((n - s) % n) = x.rotateRight s := by
  rw [BitVec.rotateRight_def, Nat.mod_eq_of_lt hs]
  obtain rfl | hpos := Nat.eq_zero_or_pos s
  · simp [BitVec.shiftLeft_eq_zero (Nat.le_refl n)]
  · rw [Nat.mod_eq_of_lt (by omega)]

/-- A dividend that is kept, unless the divisor is -1. -/
theorem masked_dividend (a b : BitVec n) : a &&& ((if b = BitVec.allOnes n then 1 else 0) - 1) = if b = BitVec.allOnes n then 0 else a := by
  by_cases h : b = BitVec.allOnes n
  · simp [h]
  · have all : (0 : BitVec n) - 1 = BitVec.allOnes n := (BitVec.zero_sub 1#n).trans BitVec.neg_one_eq_allOnes
    rw [if_neg h, if_neg h, all, BitVec.and_allOnes]

/-- Only the least number divided by -1 does not fit. -/
theorem tdiv_eq_two_pow_iff (hn : 0 < n) (a b : BitVec n) : a.toInt.tdiv b.toInt = 2 ^ (n - 1) ↔ a = BitVec.intMin n ∧ b = BitVec.allOnes n := by
  constructor
  · intro h
    by_contra hne
    have quotient : (a.sdiv b).toInt = 2 ^ (n - 1) := by
      rw [BitVec.toInt_sdiv_of_ne_or_ne, h]
      rwa [BitVec.neg_one_eq_allOnes, ← not_and_or]
    exact absurd quotient (ne_of_lt BitVec.toInt_lt)
  · rintro ⟨rfl, rfl⟩
    rw [BitVec.toInt_intMin_of_pos hn, BitVec.toInt_allOnes, if_pos hn, Int.tdiv_neg, Int.tdiv_one, Int.neg_neg]

/-- A quotient of numbers without a sign. -/
theorem udiv_eq (a b : BitVec n) : a / b = BitVec.ofNat n (a.toNat / b.toNat) := by
  apply BitVec.eq_of_toNat_eq
  rw [BitVec.toNat_udiv, BitVec.toNat_ofNat, Nat.mod_eq_of_lt ((Nat.div_le_self _ _).trans_lt a.isLt)]

/-- A remainder of numbers without a sign. -/
theorem umod_eq (a b : BitVec n) : a % b = BitVec.ofNat n (a.toNat % b.toNat) := by
  apply BitVec.eq_of_toNat_eq
  rw [BitVec.toNat_umod, BitVec.toNat_ofNat, Nat.mod_eq_of_lt ((Nat.mod_le _ _).trans_lt a.isLt)]

/-- A quotient of signed numbers. -/
theorem sdiv_eq (a b : BitVec n) : a.sdiv b = BitVec.ofInt n (a.toInt.tdiv b.toInt) := by
  apply BitVec.eq_of_toInt_eq
  rw [BitVec.toInt_sdiv, BitVec.toInt_ofInt]

/-- A remainder of signed numbers. -/
theorem srem_eq (a b : BitVec n) : a.srem b = BitVec.ofInt n (a.toInt.tmod b.toInt) := by
  rw [← BitVec.toInt_srem, BitVec.ofInt_toInt]

/-- The low part of a number that was extended by its sign. -/
theorem setWidth_signExtend (x : BitVec n) {m : ℕ} (h : m ≤ k) : (x.signExtend k).setWidth m = x.signExtend m := by
  ext i hi
  simp [BitVec.getElem_signExtend, hi.trans_le h]

end SpidirWasm.Bits
