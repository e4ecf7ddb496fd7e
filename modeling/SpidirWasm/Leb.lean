import SpidirWasm.Buffer
import SpidirWasm.Logic.Leb128

/-! The four LEB128 readers against the grammar of the format. A reader takes the groups
in front of it, as many as its limit on the shift allows, and returns what they add up
to modulo the width of the integer. -/

namespace SpidirWasm

open Leb128

/-! ### The loop -/

theorem and_low (b : UInt8) : b.toNat &&& 0x7f = b.toNat % 128 := Nat.and_two_pow_sub_one_eq_mod _ 7

theorem and_high (b : UInt8) : b.toNat &&& 0x80 ≠ 0 ↔ 128 ≤ b.toNat := by
  have all : ∀ n < 256, (n &&& 0x80 ≠ 0 ↔ 128 ≤ n) := by decide +kernel
  exact all _ b.toNat_lt

theorem and_sign (b : UInt8) : b.toNat &&& 0x40 ≠ 0 ↔ 64 ≤ b.toNat % 128 := by
  have all : ∀ n < 256, (n &&& 0x40 ≠ 0 ↔ 64 ≤ n % 128) := by decide +kernel
  exact all _ b.toNat_lt

theorem or_shiftLeft {r s g : ℕ} (h : r < 2 ^ s) : r ||| g <<< s = r + 2 ^ s * g := by
  rw [Nat.or_comm, ← Nat.shiftLeft_add_eq_or_of_lt h, Nat.shiftLeft_eq, Nat.mul_comm, Nat.add_comm]

/-- One more group keeps the accumulated bits below the shift. -/
theorem accumulate_lt {w r s g : ℕ} (h : r < 2 ^ s) (hg : g < 128) : (r + 2 ^ s * g) % 2 ^ w < 2 ^ (s + 7) := by
  calc (r + 2 ^ s * g) % 2 ^ w ≤ r + 2 ^ s * g := Nat.mod_le _ _
    _ < 2 ^ s * (g + 1) := by rw [Nat.mul_add, Nat.mul_one]; omega
    _ ≤ 2 ^ s * 128 := Nat.mul_le_mul_left _ hg
    _ = 2 ^ (s + 7) := by rw [pow_add]; norm_num

theorem accumulate_mod (w r s g m : ℕ) :
    ((r + 2 ^ s * g) % 2 ^ w + 2 ^ (s + 7) * m) % 2 ^ w = (r + 2 ^ s * (g + 128 * m)) % 2 ^ w := by
  rw [Nat.mod_add_mod, pow_add]
  ring_nf

variable {w limit r s : ℕ} {out shift : ℕ} {last : UInt8} {used bs rest : List UInt8}

/-- The loop takes groups within its limit. -/
theorem lebLoop_groups (hr : r < 2 ^ s) (hu : Groups used) (hlen : s + 7 * (used.length - 1) ≤ limit)
    (hlast : used.getLast? = some last) :
    lebLoop w limit r s (used ++ rest) = some ((r + 2 ^ s * value used) % 2 ^ w, s + 7 * used.length, last, rest) := by
  induction hu generalizing r s with
  | @last b hb =>
    obtain rfl : b = last := by simpa using hlast
    have stop : ¬128 ≤ b.toNat := by omega
    have fits : s ≤ limit := by simpa using hlen
    simp only [List.cons_append, List.nil_append, lebLoop, if_pos fits, and_high, if_neg stop, and_low, or_shiftLeft hr,
      value, Nat.mul_zero, Nat.add_zero, List.length_singleton, Nat.mul_one]
  | @more b bs hb hbs ih =>
    have pos := hbs.length_pos
    rw [List.length_cons] at hlen
    have fits : s ≤ limit := by omega
    have low := Nat.mod_lt b.toNat (by decide : 0 < 128)
    have hlast' : bs.getLast? = some last := hbs.getLast?_cons ▸ hlast
    have later := @ih ((r + 2 ^ s * (b.toNat % 128)) % 2 ^ w) (s + 7) (accumulate_lt hr low) (by omega) hlast'
    simp only [List.cons_append, lebLoop, if_pos fits, and_high, if_pos hb, and_low, or_shiftLeft hr]
    rw [later, accumulate_mod, value, List.length_cons]
    have length : s + 7 + 7 * bs.length = s + 7 * (bs.length + 1) := by ring
    rw [length]

/-- And nothing else. -/
theorem groups_of_lebLoop (h : lebLoop w limit r s bs = some (out, shift, last, rest)) :
    ∃ used, Groups used ∧ bs = used ++ rest ∧ s + 7 * (used.length - 1) ≤ limit ∧ used.getLast? = some last := by
  induction bs generalizing r s with
  | nil => cases h
  | cons b bs ih =>
    simp only [lebLoop] at h
    split_ifs at h with hfits hmore
    · obtain ⟨used, hu, rfl, hlen, hlast⟩ := ih h
      have pos := hu.length_pos
      refine ⟨b :: used, .more ((and_high b).mp hmore) hu, rfl, ?_, ?_⟩
      · rw [List.length_cons]
        omega
      · rw [hu.getLast?_cons, hlast]
    · obtain ⟨-, -, rfl, rfl⟩ : _ ∧ _ ∧ b = last ∧ bs = rest := by simpa using h
      have stop : b.toNat < 128 := Nat.not_le.mp ((and_high b).not.mp hmore)
      exact ⟨[b], .last stop, rfl, by simpa using hfits, rfl⟩

/-- What the unsigned readers accept. -/
theorem pullUnsigned_iff {b b' : Buffer} {v : ℕ} : pullUnsigned w limit b = some (v, b') ↔
    ∃ used, Groups used ∧ b.data = used ++ b'.data ∧ 7 * (used.length - 1) ≤ limit ∧ used.getLast? = some b'.prev ∧
      v = value used % 2 ^ w := by
  have start : 0 < 2 ^ 0 := by decide
  constructor
  · intro h
    obtain ⟨⟨out, shift, last, rest⟩, hloop, he⟩ := Option.map_eq_some_iff.mp h
    obtain ⟨rfl, rfl⟩ := Prod.mk.inj he
    obtain ⟨used, hu, hdata, hlen, hlast⟩ := groups_of_lebLoop hloop
    rw [hdata, lebLoop_groups start hu hlen hlast] at hloop
    rw [Nat.zero_add] at hlen
    refine ⟨used, hu, hdata, hlen, hlast, ?_⟩
    simpa [eq_comm] using congrArg (Option.map Prod.fst) hloop
  · rintro ⟨used, hu, hdata, hlen, hlast, rfl⟩
    have loop : lebLoop w limit 0 0 (used ++ b'.data) = _ := lebLoop_groups start hu (by rwa [Nat.zero_add]) hlast
    rw [pullUnsigned, hdata, loop]
    simp

/-- The bits of a signed reader are those of the signed value. -/
theorem signExtend_eq {u k : ℕ} {P : Prop} [Decidable P] (hu : u < 2 ^ k) :
    (if k < w ∧ P then u % 2 ^ w ||| ((2 ^ w - 1) <<< k) % 2 ^ w else u % 2 ^ w) =
      (((u : ℤ) - if P then 2 ^ k else 0) % 2 ^ w).toNat := by
  have natural : ((u : ℤ) % 2 ^ w).toNat = u % 2 ^ w := by
    rw [show ((u : ℤ) % 2 ^ w) = ((u % 2 ^ w : ℕ) : ℤ) by push_cast; rfl, Int.toNat_natCast]
  by_cases hP : P
  · simp only [hP, and_true, if_true]
    split_ifs with hk
    · have split : 2 ^ w = 2 ^ k * 2 ^ (w - k) := by rw [← pow_add, Nat.add_sub_cancel' hk.le]
      have small : u < 2 ^ w := hu.trans (Nat.pow_lt_pow_right (by decide) hk)
      have ones : ((2 ^ w - 1) <<< k) % 2 ^ w = (2 ^ (w - k) - 1) <<< k := by
        have half : 0 < 2 ^ (w - k) := Nat.two_pow_pos _
        have low : (2 ^ w - 1) % 2 ^ (w - k) = 2 ^ (w - k) - 1 := by
          have whole : 0 < 2 ^ k := Nat.two_pow_pos _
          have same : 2 ^ w - 1 = 2 ^ (w - k) - 1 + 2 ^ (w - k) * (2 ^ k - 1) := by
            rw [Nat.mul_sub, Nat.mul_one, Nat.mul_comm, ← split]
            have le : 2 ^ (w - k) ≤ 2 ^ w := Nat.pow_le_pow_right (by decide) (Nat.sub_le w k)
            omega
          rw [same, Nat.add_mul_mod_self_left, Nat.mod_eq_of_lt (by omega)]
        rw [Nat.shiftLeft_eq, Nat.shiftLeft_eq, Nat.mul_comm, split, Nat.mul_mod_mul_left, ← split, low, Nat.mul_comm]
      have wrapped : ((u : ℤ) - 2 ^ k) % 2 ^ w = u + (2 ^ w - 2 ^ k) := by
        have le : (2 : ℤ) ^ k ≤ 2 ^ w := by exact_mod_cast Nat.pow_le_pow_right (by decide) hk.le
        have hu' : (u : ℤ) < 2 ^ k := by exact_mod_cast hu
        rw [← Int.add_emod_right, Int.emod_eq_of_lt] <;> omega
      have le : 2 ^ k ≤ 2 ^ w := Nat.pow_le_pow_right (by decide) hk.le
      rw [Nat.mod_eq_of_lt small, ones, or_shiftLeft hu, Nat.mul_sub, Nat.mul_one, ← split, wrapped]
      zify [le]
      omega
    · have wide : (2 : ℤ) ^ k = 2 ^ w * 2 ^ (k - w) := by rw [← pow_add, Nat.add_sub_cancel' (Nat.not_lt.mp hk)]
      rw [wide, Int.sub_mul_emod_self_left, natural]
  · simp only [hP, and_false, if_false, sub_zero, natural]

/-- What the signed readers accept. -/
theorem pullSigned_iff {b b' : Buffer} {v : ℕ} : pullSigned w limit b = some (v, b') ↔
    ∃ used, Groups used ∧ b.data = used ++ b'.data ∧ 7 * (used.length - 1) ≤ limit ∧ used.getLast? = some b'.prev ∧
      v = (signedValue used % 2 ^ w).toNat := by
  have start : 0 < 2 ^ 0 := by decide
  have bits : ∀ {used : List UInt8} {last : UInt8}, used.getLast? = some last →
      (if 7 * used.length < w ∧ last.toNat &&& 0x40 ≠ 0 then
        value used % 2 ^ w ||| ((2 ^ w - 1) <<< (7 * used.length)) % 2 ^ w else value used % 2 ^ w) =
      (signedValue used % 2 ^ w).toNat := by
    intro used last hlast
    have sign : negative used ↔ last.toNat &&& 0x40 ≠ 0 := by simp [negative, hlast, and_sign]
    have fits : value used < 2 ^ (7 * used.length) := by
      rw [pow_mul]
      exact value_lt used
    rw [signExtend_eq fits, signedValue]
    simp only [sign, pow_mul]
    norm_num
  constructor
  · intro h
    obtain ⟨⟨out, shift, last, rest⟩, hloop, he⟩ := Option.map_eq_some_iff.mp h
    obtain ⟨rfl, rfl⟩ := Prod.mk.inj he
    obtain ⟨used, hu, hdata, hlen, hlast⟩ := groups_of_lebLoop hloop
    rw [hdata, lebLoop_groups start hu hlen hlast] at hloop
    simp only [Nat.zero_add, pow_zero, Nat.one_mul, Option.some.injEq, Prod.mk.injEq, and_true] at hloop
    obtain ⟨rfl, rfl⟩ := hloop
    rw [Nat.zero_add] at hlen
    exact ⟨used, hu, hdata, hlen, hlast, bits hlast⟩
  · rintro ⟨used, hu, hdata, hlen, hlast, rfl⟩
    have loop : lebLoop w limit 0 0 (used ++ b'.data) = _ := lebLoop_groups start hu (by rwa [Nat.zero_add]) hlast
    rw [pullSigned, hdata, loop]
    simp only [Nat.zero_add, pow_zero, Nat.one_mul, Option.map_some, bits hlast]

/-! ### The readers and the grammar -/

/-- The bit patterns of signed integers. -/
def SignedBits (n : ℕ) (used : List UInt8) (bits : ℕ) : Prop := ∃ z, Signed n used z ∧ bits = (BitVec.ofInt n z).toNat

/-- A reader that returns what an encoding in front of it stands for, whatever follows. -/
def Decodes {α : Type} (m : Pull α) (E : List UInt8 → α → Prop) : Prop :=
  ∀ used rest p v, E used v → m ⟨p, used ++ rest⟩ = some (v, ⟨used.getLast?.getD p, rest⟩)

/-- A reader that accepts at this place only an encoding of what it returns. -/
def ValidatesAt {α : Type} (m : Pull α) (E : List UInt8 → α → Prop) (b : Buffer) : Prop :=
  ∀ v b', m b = some (v, b') → ∃ used, b.data = used ++ b'.data ∧ E used v

theorem toNat_ofInt (n : ℕ) (z : ℤ) : (BitVec.ofInt n z).toNat = (z % 2 ^ n).toNat := by
  rw [BitVec.toNat_ofInt]
  push_cast
  rfl

variable {n : ℕ}

theorem pullUnsigned_decodes (hn : 0 < n) (hlimit : ∀ k, 7 * k < n → 7 * k ≤ limit) :
    Decodes (pullUnsigned n limit) (Unsigned n) := by
  intro used rest p v h
  obtain ⟨hu, hlen, rfl, hlt⟩ := (unsigned_iff hn).mp h
  obtain ⟨last, hlast⟩ := Option.ne_none_iff_exists'.mp (mt List.getLast?_eq_none_iff.mp hu.ne_nil)
  rw [hlast, Option.getD_some]
  exact pullUnsigned_iff.mpr ⟨used, hu, rfl, hlimit _ hlen, hlast, (Nat.mod_eq_of_lt hlt).symm⟩

theorem pullSigned_decodes (hn : 0 < n) (hlimit : ∀ k, 7 * k < n → 7 * k ≤ limit) :
    Decodes (pullSigned n limit) (SignedBits n) := by
  rintro used rest p v ⟨z, h, rfl⟩
  obtain ⟨hu, hlen, rfl, -⟩ := (signed_iff hn).mp h
  obtain ⟨last, hlast⟩ := Option.ne_none_iff_exists'.mp (mt List.getLast?_eq_none_iff.mp hu.ne_nil)
  rw [hlast, Option.getD_some]
  exact pullSigned_iff.mpr ⟨used, hu, rfl, hlimit _ hlen, hlast, toNat_ofInt _ _⟩

theorem bufferPullU32_decodes : Decodes bufferPullU32 (Unsigned 32) := pullUnsigned_decodes (by decide) (by omega)

theorem bufferPullU64_decodes : Decodes bufferPullU64 (Unsigned 64) := pullUnsigned_decodes (by decide) (by omega)

theorem bufferPullI32_decodes : Decodes bufferPullI32 (SignedBits 32) := pullSigned_decodes (by decide) (by omega)

theorem bufferPullI64_decodes : Decodes bufferPullI64 (SignedBits 64) := pullSigned_decodes (by decide) (by omega)

/-- Every reader returns the integer that a valid encoding in front of it stands for, and
leaves what follows; every integer has one. -/
theorem leb_decoded : (Decodes bufferPullU32 (Unsigned 32) ∧ ∀ v < 2 ^ 32, Unsigned 32 (encodeUnsigned v) v) ∧
    (Decodes bufferPullU64 (Unsigned 64) ∧ ∀ v < 2 ^ 64, Unsigned 64 (encodeUnsigned v) v) ∧
    (Decodes bufferPullI32 (SignedBits 32) ∧ ∀ z, -2 ^ 31 ≤ z → z < 2 ^ 31 → Signed 32 (encodeSigned z) z) ∧
    (Decodes bufferPullI64 (SignedBits 64) ∧ ∀ z, -2 ^ 63 ≤ z → z < 2 ^ 63 → Signed 64 (encodeSigned z) z) :=
  ⟨⟨bufferPullU32_decodes, fun _ h => encodeUnsigned_spec (by omega) h⟩,
    ⟨bufferPullU64_decodes, fun _ h => encodeUnsigned_spec (by omega) h⟩,
    ⟨bufferPullI32_decodes, fun z => by simpa using @encodeSigned_spec 32 z (by decide)⟩,
    ⟨bufferPullI64_decodes, fun z => by simpa using @encodeSigned_spec 64 z (by decide)⟩⟩

/-- `-1` with a byte of padding, in front of an `end`. -/
theorem leb_decoded_minus_one : bufferPullI32 ⟨0x41, [0xFF, 0x7F, 0x0B]⟩ = some (2 ^ 32 - 1, ⟨0x7F, [0x0B]⟩) := by
  have padded : Signed 32 [0xFF, 0x7F] (-1) := (signed_iff (by decide)).mpr
    ⟨.more (by decide) (.last (by decide)), by decide, by decide, by decide, by decide⟩
  exact leb_decoded.2.2.1.1 [0xFF, 0x7F] [0x0B] 0x41 (2 ^ 32 - 1) ⟨-1, padded, by decide⟩

/-! ### Bits that do not fit -/

/-- The last byte, below 128, of an encoding that takes `len` bytes. -/
def LastOfFull (len : ℕ) (bs : List UInt8) (b : UInt8) : Prop :=
  ∃ used rest, bs = used ++ rest ∧ Groups used ∧ used.length = len ∧ used.getLast? = some b

theorem pullUnsigned_validates_iff {b : Buffer} {k : ℕ} (hn : 7 * k < n) (hk : n < 7 * (k + 1)) (hlimit : limit < 7 * (k + 1))
    (hlimit' : 7 * k ≤ limit) :
    ValidatesAt (pullUnsigned n limit) (Unsigned n) b ↔ ∀ last, LastOfFull (k + 1) b.data last → last.toNat < 2 ^ (n - 7 * k) := by
  constructor
  · rintro h last ⟨used, rest, hdata, hu, hlen, hlast⟩
    obtain ⟨used', hdata', hv⟩ := h _ ⟨last, rest⟩ (pullUnsigned_iff.mpr ⟨used, hu, hdata, by omega, hlast, rfl⟩)
    obtain ⟨hu', -, hsame, hlt⟩ := (unsigned_iff (by omega)).mp hv
    obtain ⟨rfl, -⟩ := hu'.unique hu (hdata'.symm.trans hdata)
    rw [← hsame, value_lt_iff hu' (by omega), hlen] at hlt
    exact hlt hk last hlast
  · rintro h v b' hv
    obtain ⟨used, hu, hdata, hlen, hlast, rfl⟩ := pullUnsigned_iff.mp hv
    have pos := hu.length_pos
    have fits : value used < 2 ^ n := by
      rw [value_lt_iff hu (by omega)]
      intro hfull b hb
      have length : used.length = k + 1 := by omega
      rw [length]
      exact h b ⟨used, _, hdata, hu, length, hb⟩
    refine ⟨used, hdata, (unsigned_iff (by omega)).mpr ⟨hu, by omega, (Nat.mod_eq_of_lt fits).symm, ?_⟩⟩
    rwa [Nat.mod_eq_of_lt fits]

theorem pullSigned_validates_iff {b : Buffer} {k : ℕ} (hn : 7 * k < n) (hk : n < 7 * (k + 1)) (hlimit : limit < 7 * (k + 1))
    (hlimit' : 7 * k ≤ limit) :
    ValidatesAt (pullSigned n limit) (SignedBits n) b ↔ ∀ last, LastOfFull (k + 1) b.data last →
      last.toNat < 2 ^ (n - 1 - 7 * k) ∨ 128 ≤ last.toNat + 2 ^ (n - 1 - 7 * k) := by
  constructor
  · rintro h last ⟨used, rest, hdata, hu, hlen, hlast⟩
    obtain ⟨used', hdata', z, hz, -⟩ := h _ ⟨last, rest⟩ (pullSigned_iff.mpr ⟨used, hu, hdata, by omega, hlast, rfl⟩)
    obtain ⟨hu', -, hsame, hbounds⟩ := (signed_iff (by omega)).mp hz
    obtain ⟨rfl, -⟩ := hu'.unique hu (hdata'.symm.trans hdata)
    rw [← hsame, signedValue_bounds_iff hu' (by omega), hlen] at hbounds
    exact hbounds hk last hlast
  · rintro h v b' hv
    obtain ⟨used, hu, hdata, hlen, hlast, rfl⟩ := pullSigned_iff.mp hv
    have pos := hu.length_pos
    have fits : -2 ^ (n - 1) ≤ signedValue used ∧ signedValue used < 2 ^ (n - 1) := by
      rw [signedValue_bounds_iff hu (by omega)]
      intro hfull b hb
      have length : used.length = k + 1 := by omega
      rw [length]
      exact h b ⟨used, _, hdata, hu, length, hb⟩
    exact ⟨used, hdata, _, (signed_iff (by omega)).mpr ⟨hu, by omega, rfl, fits⟩, (toNat_ofInt _ _).symm⟩

/-- A reader accepts only valid encodings exactly when an encoding of full length in front
of it has no bits beyond the integer: the guard on the shift does not look at them. -/
theorem leb_validated_iff (b : Buffer) :
    (ValidatesAt bufferPullU32 (Unsigned 32) b ↔ ∀ last, LastOfFull 5 b.data last → last.toNat < 16) ∧
    (ValidatesAt bufferPullU64 (Unsigned 64) b ↔ ∀ last, LastOfFull 10 b.data last → last.toNat < 2) ∧
    (ValidatesAt bufferPullI32 (SignedBits 32) b ↔ ∀ last, LastOfFull 5 b.data last → last.toNat < 8 ∨ 120 ≤ last.toNat) ∧
    (ValidatesAt bufferPullI64 (SignedBits 64) b ↔ ∀ last, LastOfFull 10 b.data last → last.toNat < 1 ∨ 127 ≤ last.toNat) := by
  refine ⟨pullUnsigned_validates_iff (by omega) (by omega) (by omega) (by omega),
    pullUnsigned_validates_iff (by omega) (by omega) (by omega) (by omega), ?_, ?_⟩
  · rw [bufferPullI32, @pullSigned_validates_iff 28 32 b 4 (by omega) (by omega) (by omega) (by omega)]
    refine forall₂_congr fun last _ => ?_
    norm_num
    omega
  · rw [bufferPullI64, @pullSigned_validates_iff 63 64 b 9 (by omega) (by omega) (by omega) (by omega)]
    refine forall₂_congr fun last _ => ?_
    norm_num
    omega

/-- Each reader accepts an encoding whose last byte has such bits: `2 ^ 32`, `2 ^ 64`,
`2 ^ 31` and `2 ^ 63`. -/
theorem leb_validated_overflow :
    ¬ValidatesAt bufferPullU32 (Unsigned 32) ⟨0, [0x80, 0x80, 0x80, 0x80, 0x10]⟩ ∧
    ¬ValidatesAt bufferPullU64 (Unsigned 64) ⟨0, [0x80, 0x80, 0x80, 0x80, 0x80, 0x80, 0x80, 0x80, 0x80, 0x02]⟩ ∧
    ¬ValidatesAt bufferPullI32 (SignedBits 32) ⟨0, [0x80, 0x80, 0x80, 0x80, 0x08]⟩ ∧
    ¬ValidatesAt bufferPullI64 (SignedBits 64) ⟨0, [0x80, 0x80, 0x80, 0x80, 0x80, 0x80, 0x80, 0x80, 0x80, 0x01]⟩ := by
  have whole : ∀ {used rest : List UInt8}, Groups used → ∀ {bs : List UInt8}, Groups bs → bs = used ++ rest → used = bs := by
    intro used rest hu bs hbs he
    exact (hu.unique hbs (he.symm.trans (List.append_nil bs).symm)).1
  have four : ∀ {bs : List UInt8}, Groups bs → Groups (0x80 :: 0x80 :: 0x80 :: 0x80 :: bs) := fun h =>
    .more (by decide) (.more (by decide) (.more (by decide) (.more (by decide) h)))
  have nine : ∀ {b : UInt8}, b.toNat < 128 → Groups [0x80, 0x80, 0x80, 0x80, 0x80, 0x80, 0x80, 0x80, 0x80, b] := fun h =>
    four (four (.more (by decide) (.last h)))
  refine ⟨fun h => ?_, fun h => ?_, fun h => ?_, fun h => ?_⟩
  · obtain ⟨used, he, hv⟩ := h 0 ⟨0x10, []⟩ (by decide)
    obtain ⟨hu, -, hsame, hlt⟩ := (unsigned_iff (by decide)).mp hv
    obtain rfl := whole hu (four (.last (by decide))) he
    exact absurd hsame (by decide)
  · obtain ⟨used, he, hv⟩ := h 0 ⟨0x02, []⟩ (by decide)
    obtain ⟨hu, -, hsame, hlt⟩ := (unsigned_iff (by decide)).mp hv
    obtain rfl := whole hu (nine (by decide)) he
    exact absurd hsame (by decide)
  · obtain ⟨used, he, z, hv, -⟩ := h (2 ^ 31) ⟨0x08, []⟩ (by decide)
    obtain ⟨hu, -, rfl, hlow, hhigh⟩ := (signed_iff (by decide)).mp hv
    obtain rfl := whole hu (four (.last (by decide))) he
    exact absurd hhigh (by decide)
  · obtain ⟨used, he, z, hv, -⟩ := h (2 ^ 63) ⟨0x01, []⟩ (by decide)
    obtain ⟨hu, -, rfl, hlow, hhigh⟩ := (signed_iff (by decide)).mp hv
    obtain rfl := whole hu (nine (by decide)) he
    exact absurd hhigh (by decide)

end SpidirWasm
