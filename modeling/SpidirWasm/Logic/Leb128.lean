import Mathlib.Data.Nat.Notation
import Mathlib.Data.Int.Notation
import Mathlib.Tactic.Linarith
import Mathlib.Tactic.Ring

/-! LEB128 integers, after the grammar of the WebAssembly binary format: groups of seven
bits, the least significant first, and a high bit on every byte but the last. An
`n`-bit integer takes at most `⌈n/7⌉` bytes, and the unused bits of a byte at that limit
are zero, or copies of the sign. -/

namespace SpidirWasm.Leb128

/-- The bytes encode an unsigned `n`-bit integer, with or without padding. -/
inductive Unsigned : ℕ → List UInt8 → ℕ → Prop
  | last {n : ℕ} {b : UInt8} (hb : b.toNat < 128) (hn : b.toNat < 2 ^ n) : Unsigned n [b] b.toNat
  | more {n v : ℕ} {b : UInt8} {bs : List UInt8} (hb : 128 ≤ b.toNat) (hn : 7 < n) (h : Unsigned (n - 7) bs v) :
      Unsigned n (b :: bs) (128 * v + (b.toNat - 128))

/-- The bytes encode a signed `n`-bit integer, with or without padding. -/
inductive Signed : ℕ → List UInt8 → ℤ → Prop
  | pos {n : ℕ} {b : UInt8} (hb : b.toNat < 64) (hn : b.toNat < 2 ^ (n - 1)) : Signed n [b] b.toNat
  | neg {n : ℕ} {b : UInt8} (hb : 64 ≤ b.toNat) (hb' : b.toNat < 128) (hn : 128 ≤ b.toNat + 2 ^ (n - 1)) :
      Signed n [b] (b.toNat - 128)
  | more {n : ℕ} {v : ℤ} {b : UInt8} {bs : List UInt8} (hb : 128 ≤ b.toNat) (hn : 7 < n) (h : Signed (n - 7) bs v) :
      Signed n (b :: bs) (128 * v + (b.toNat - 128))

/-! ### Groups -/

/-- A byte string with the shape of an encoding: only the last byte has no high bit. -/
inductive Groups : List UInt8 → Prop
  | last {b : UInt8} (hb : b.toNat < 128) : Groups [b]
  | more {b : UInt8} {bs : List UInt8} (hb : 128 ≤ b.toNat) (h : Groups bs) : Groups (b :: bs)

/-- What the groups add up to. -/
def value : List UInt8 → ℕ
  | [] => 0
  | b :: bs => b.toNat % 128 + 128 * value bs

/-- Whether the sign bit of the last byte is set. -/
def negative (bs : List UInt8) : Prop := ∃ b ∈ bs.getLast?, 64 ≤ b.toNat % 128

instance (bs : List UInt8) : Decidable (negative bs) := inferInstanceAs (Decidable (∃ b ∈ bs.getLast?, _))

/-- The same with the last group in two's complement. -/
def signedValue (bs : List UInt8) : ℤ := value bs - if negative bs then 128 ^ bs.length else 0

theorem Groups.ne_nil {bs : List UInt8} (h : Groups bs) : bs ≠ [] := by
  cases h <;> exact List.cons_ne_nil _ _

theorem Groups.length_pos {bs : List UInt8} (h : Groups bs) : 0 < bs.length := List.length_pos_iff.mpr h.ne_nil

theorem two_pow_split {n : ℕ} (h : 7 < n) : 2 ^ n = 128 * 2 ^ (n - 7) := by
  conv_lhs => rw [← Nat.add_sub_cancel' h.le, pow_add]
  norm_num

theorem half_split {n : ℕ} (h : 7 < n) : (2 : ℤ) ^ (n - 1) = 128 * 2 ^ (n - 7 - 1) := by
  rw [show n - 1 = 7 + (n - 7 - 1) by omega, pow_add]
  norm_num

theorem value_lt (bs : List UInt8) : value bs < 128 ^ bs.length := by
  induction bs with
  | nil => decide
  | cons b bs ih =>
    have low := Nat.mod_lt b.toNat (by decide : 0 < 128)
    rw [value, List.length_cons, pow_succ]
    omega

theorem negative_cons {b : UInt8} {bs : List UInt8} (h : bs ≠ []) : negative (b :: bs) ↔ negative bs := by
  obtain ⟨last, hlast⟩ := Option.ne_none_iff_exists'.mp (mt List.getLast?_eq_none_iff.mp h)
  rw [negative, negative, List.getLast?_cons, hlast, Option.getD_some]

theorem negative_singleton {b : UInt8} (hb : b.toNat < 128) : negative [b] ↔ 64 ≤ b.toNat := by
  simp [negative, Nat.mod_eq_of_lt hb]

theorem signedValue_cons {b : UInt8} {bs : List UInt8} (h : bs ≠ []) :
    signedValue (b :: bs) = b.toNat % 128 + 128 * signedValue bs := by
  simp only [signedValue, value, negative_cons h, List.length_cons]
  split_ifs
  · push_cast
    ring
  · push_cast
    ring

/-- An encoding of an unsigned integer: enough groups and no more, and a sum that fits. -/
theorem unsigned_iff {n v : ℕ} {bs : List UInt8} (hn : 0 < n) :
    Unsigned n bs v ↔ Groups bs ∧ 7 * (bs.length - 1) < n ∧ value bs = v ∧ v < 2 ^ n := by
  constructor
  · intro h
    induction h with
    | last hb hn' => exact ⟨.last hb, by simpa using hn, by simp [value, Nat.mod_eq_of_lt hb], hn'⟩
    | @more n v b bs hb hn' _ ih =>
      obtain ⟨hbs, hlen, hv, hlt⟩ := ih (by omega)
      have byte := b.toNat_lt
      have pos := hbs.length_pos
      refine ⟨.more hb hbs, ?_, by rw [value, hv]; omega, ?_⟩
      · rw [List.length_cons]
        omega
      · rw [two_pow_split hn']
        omega
  · rintro ⟨hbs, hlen, rfl, hlt⟩
    induction hbs generalizing n with
    | @last b hb =>
      have same : value [b] = b.toNat := by simp [value, Nat.mod_eq_of_lt hb]
      rw [same] at hlt ⊢
      exact .last hb hlt
    | @more b bs hb hbs ih =>
      have pos := hbs.length_pos
      rw [List.length_cons] at hlen
      have wide : 7 < n := by omega
      have byte := b.toNat_lt
      rw [value, two_pow_split wide] at hlt
      have same : value (b :: bs) = 128 * value bs + (b.toNat - 128) := by
        rw [value]
        omega
      rw [same]
      exact .more hb wide (ih (by omega) (by omega) (by omega))

/-- The same for a signed one. -/
theorem signed_iff {n : ℕ} {v : ℤ} {bs : List UInt8} (hn : 0 < n) :
    Signed n bs v ↔ Groups bs ∧ 7 * (bs.length - 1) < n ∧ signedValue bs = v ∧ -2 ^ (n - 1) ≤ v ∧ v < 2 ^ (n - 1) := by
  constructor
  · intro h
    induction h with
    | @pos n b hb hn' =>
      have low : ¬64 ≤ b.toNat := by omega
      refine ⟨.last (by omega), by simpa using hn, ?_, ?_, by exact_mod_cast hn'⟩
      · simp only [signedValue, negative_singleton (by omega : b.toNat < 128), if_neg low, value]
        omega
      · have half : (0 : ℤ) ≤ 2 ^ (n - 1) := by positivity
        omega
    | @neg n b hb hb' hn' =>
      refine ⟨.last hb', by simpa using hn, ?_, ?_, ?_⟩
      · simp only [signedValue, negative_singleton hb', if_pos hb, value, List.length_singleton]
        omega
      · zify at hn'
        linarith
      · have half : (0 : ℤ) ≤ 2 ^ (n - 1) := by positivity
        omega
    | @more n v b bs hb hn' _ ih =>
      obtain ⟨hbs, hlen, hv, hlow, hhigh⟩ := ih (by omega)
      have byte := b.toNat_lt
      have pos := hbs.length_pos
      refine ⟨.more hb hbs, ?_, by rw [signedValue_cons hbs.ne_nil, hv]; omega, ?_, ?_⟩
      · rw [List.length_cons]
        omega
      · rw [half_split hn']
        omega
      · rw [half_split hn']
        omega
  · rintro ⟨hbs, hlen, rfl, hlow, hhigh⟩
    induction hbs generalizing n with
    | @last b hb =>
      by_cases hneg : 64 ≤ b.toNat
      · have same : signedValue [b] = b.toNat - 128 := by
          simp only [signedValue, negative_singleton hb, if_pos hneg, value, List.length_singleton]
          omega
        rw [same] at hlow hhigh ⊢
        refine .neg hneg hb ?_
        zify
        linarith
      · have same : signedValue [b] = b.toNat := by
          simp only [signedValue, negative_singleton hb, if_neg hneg, value]
          omega
        rw [same] at hhigh ⊢
        exact .pos (by omega) (by exact_mod_cast hhigh)
    | @more b bs hb hbs ih =>
      have pos := hbs.length_pos
      rw [List.length_cons] at hlen
      have wide : 7 < n := by omega
      have byte := b.toNat_lt
      rw [signedValue_cons hbs.ne_nil, half_split wide] at hlow hhigh
      have same : signedValue (b :: bs) = 128 * signedValue bs + (b.toNat - 128) := by
        rw [signedValue_cons hbs.ne_nil]
        omega
      rw [same]
      exact .more hb wide (ih (by omega) (by omega) (by omega) (by omega))

/-- The groups in front of a byte string are determined. -/
theorem Groups.unique {bs bs' rest rest' : List UInt8} (h : Groups bs) (h' : Groups bs') (he : bs ++ rest = bs' ++ rest') :
    bs = bs' ∧ rest = rest' := by
  induction h generalizing bs' with
  | @last b hb =>
    cases h' with
    | last hb' => simpa using he
    | more hb' _ =>
      obtain ⟨rfl, -⟩ := List.cons.inj he
      omega
  | @more b bs hb _ ih =>
    cases h' with
    | last hb' =>
      obtain ⟨rfl, -⟩ := List.cons.inj he
      omega
    | more hb' hbs' =>
      obtain ⟨rfl, htail⟩ := List.cons.inj he
      obtain ⟨rfl, rfl⟩ := ih hbs' htail
      exact ⟨rfl, rfl⟩

theorem Groups.getLast?_cons {b : UInt8} {bs : List UInt8} (h : Groups bs) : (b :: bs).getLast? = bs.getLast? := by
  obtain ⟨last, hlast⟩ := Option.ne_none_iff_exists'.mp (mt List.getLast?_eq_none_iff.mp h.ne_nil)
  rw [List.getLast?_cons, hlast, Option.getD_some]

/-- Whether the groups add up to an `n`-bit number is seen on the last byte, if it has
bits to spare. -/
theorem value_lt_iff {n : ℕ} {bs : List UInt8} (h : Groups bs) (hn : 7 * (bs.length - 1) < n) :
    value bs < 2 ^ n ↔ (n < 7 * bs.length → ∀ b ∈ bs.getLast?, b.toNat < 2 ^ (n - 7 * (bs.length - 1))) := by
  induction h generalizing n with
  | @last b hb =>
    have same : value [b] = b.toNat := by simp [value, Nat.mod_eq_of_lt hb]
    simp only [same, List.length_singleton, List.getLast?_singleton, Option.mem_some_iff, forall_eq', Nat.sub_self,
      Nat.mul_zero, Nat.sub_zero]
    refine ⟨fun h _ => h, fun h => ?_⟩
    by_cases hsmall : n < 7
    · exact h (by omega)
    · have full : 2 ^ 7 ≤ 2 ^ n := Nat.pow_le_pow_right (by decide) (by omega)
      omega
  | @more b bs _ hbs ih =>
    have pos := hbs.length_pos
    rw [List.length_cons, Nat.add_sub_cancel] at hn ⊢
    have wide : 7 < n := by omega
    have fits : value (b :: bs) < 2 ^ n ↔ value bs < 2 ^ (n - 7) := by
      rw [value, two_pow_split wide]
      omega
    rw [fits, ih (by omega), hbs.getLast?_cons]
    have spare : n - 7 < 7 * bs.length ↔ n < 7 * (bs.length + 1) := by omega
    have bits : n - 7 - 7 * (bs.length - 1) = n - 7 * bs.length := by omega
    rw [spare, bits]

/-- The same for signed integers, where the spare bits repeat the sign. -/
theorem signedValue_bounds_iff {n : ℕ} {bs : List UInt8} (h : Groups bs) (hn : 7 * (bs.length - 1) < n) :
    (-2 ^ (n - 1) ≤ signedValue bs ∧ signedValue bs < 2 ^ (n - 1)) ↔ (n < 7 * bs.length → ∀ b ∈ bs.getLast?,
      b.toNat < 2 ^ (n - 1 - 7 * (bs.length - 1)) ∨ 128 ≤ b.toNat + 2 ^ (n - 1 - 7 * (bs.length - 1))) := by
  induction h generalizing n with
  | @last b hb =>
    have same : signedValue [b] = b.toNat - if 64 ≤ b.toNat then 128 else 0 := by
      simp only [signedValue, negative_singleton hb, value, List.length_singleton]
      split_ifs <;> omega
    simp only [same, List.length_singleton, List.getLast?_singleton, Option.mem_some_iff, forall_eq', Nat.sub_self,
      Nat.mul_zero, Nat.sub_zero]
    have cast : ((2 ^ (n - 1) : ℕ) : ℤ) = 2 ^ (n - 1) := by push_cast; rfl
    rw [← cast]
    by_cases hsmall : n < 7
    · have half : 2 ^ (n - 1) ≤ 2 ^ 5 := Nat.pow_le_pow_right (by decide) (by omega)
      split_ifs <;> omega
    · have half : 2 ^ 6 ≤ 2 ^ (n - 1) := Nat.pow_le_pow_right (by decide) (by omega)
      split_ifs <;> omega
  | @more b bs hb hbs ih =>
    have pos := hbs.length_pos
    rw [List.length_cons, Nat.add_sub_cancel] at hn ⊢
    have wide : 7 < n := by omega
    have fits : (-2 ^ (n - 1) ≤ signedValue (b :: bs) ∧ signedValue (b :: bs) < 2 ^ (n - 1)) ↔
        (-2 ^ (n - 7 - 1) ≤ signedValue bs ∧ signedValue bs < 2 ^ (n - 7 - 1)) := by
      rw [signedValue_cons hbs.ne_nil, half_split wide]
      omega
    rw [fits, ih (by omega), hbs.getLast?_cons]
    have spare : n - 7 < 7 * bs.length ↔ n < 7 * (bs.length + 1) := by omega
    have bits : n - 7 - 1 - 7 * (bs.length - 1) = n - 1 - 7 * bs.length := by omega
    rw [spare, bits]

/-! ### The shortest encodings -/

/-- The encoding of an unsigned integer without padding. -/
def encodeUnsigned (v : ℕ) : List UInt8 :=
  if v < 128 then [UInt8.ofNat v] else UInt8.ofNat (v % 128 + 128) :: encodeUnsigned (v / 128)
termination_by v

/-- The encoding of a signed integer without padding. -/
def encodeSigned (v : ℤ) : List UInt8 :=
  if -64 ≤ v ∧ v < 64 then [UInt8.ofNat (v % 128).toNat]
  else UInt8.ofNat ((v % 128).toNat + 128) :: encodeSigned (v / 128)
termination_by v.natAbs

theorem toNat_ofNat {n : ℕ} (h : n < 256) : (UInt8.ofNat n).toNat = n := by
  rw [UInt8.toNat_ofNat', Nat.mod_eq_of_lt h]

theorem encodeUnsigned_spec {n v : ℕ} (hn : 0 < n) (hv : v < 2 ^ n) : Unsigned n (encodeUnsigned v) v := by
  induction v using encodeUnsigned.induct generalizing n with
  | case1 v hsmall =>
    have byte : (UInt8.ofNat v).toNat = v := toNat_ofNat (by omega)
    rw [encodeUnsigned, if_pos hsmall]
    have h : Unsigned n [UInt8.ofNat v] (UInt8.ofNat v).toNat := .last (by omega) (by omega)
    rwa [byte] at h
  | case2 v hlarge ih =>
    have byte : (UInt8.ofNat (v % 128 + 128)).toNat = v % 128 + 128 := toNat_ofNat (by omega)
    have wide : 7 < n := by
      by_contra hle
      have small := Nat.pow_le_pow_right (by decide : 0 < 2) (Nat.not_lt.mp hle)
      omega
    have split := two_pow_split wide
    rw [encodeUnsigned, if_neg hlarge]
    have h : Unsigned n (UInt8.ofNat (v % 128 + 128) :: encodeUnsigned (v / 128)) _ :=
      .more (by omega) wide (ih (by omega) (by omega))
    rwa [byte, Nat.add_sub_cancel, Nat.div_add_mod] at h

theorem encodeSigned_spec {n : ℕ} {v : ℤ} (hn : 0 < n) (hlow : -2 ^ (n - 1) ≤ v) (hhigh : v < 2 ^ (n - 1)) :
    Signed n (encodeSigned v) v := by
  induction v using encodeSigned.induct generalizing n with
  | case1 v hsmall =>
    have byte : (UInt8.ofNat (v % 128).toNat).toNat = (v % 128).toNat := toNat_ofNat (by omega)
    rw [encodeSigned, if_pos hsmall]
    by_cases hneg : v < 0
    · have h : Signed n [UInt8.ofNat (v % 128).toNat] ((UInt8.ofNat (v % 128).toNat).toNat - 128) := by
        refine .neg (by omega) (by omega) ?_
        zify
        omega
      rwa [byte, show ((v % 128).toNat : ℤ) - 128 = v by omega] at h
    · have h : Signed n [UInt8.ofNat (v % 128).toNat] (UInt8.ofNat (v % 128).toNat).toNat := by
        refine .pos (by omega) ?_
        zify
        omega
      rwa [byte, show ((v % 128).toNat : ℤ) = v by omega] at h
  | case2 v hlarge ih =>
    have byte : (UInt8.ofNat ((v % 128).toNat + 128)).toNat = (v % 128).toNat + 128 := toNat_ofNat (by omega)
    have wide : 7 < n := by
      by_contra hle
      have small := pow_le_pow_right₀ (by norm_num : (1 : ℤ) ≤ 2) (by omega : n - 1 ≤ 6)
      omega
    have split := half_split wide
    rw [encodeSigned, if_neg hlarge]
    have h : Signed n (UInt8.ofNat ((v % 128).toNat + 128) :: encodeSigned (v / 128)) _ :=
      .more (by omega) wide (ih (by omega) (by omega) (by omega))
    rwa [byte, show 128 * (v / 128) + (((v % 128).toNat + 128 : ℕ) - 128 : ℤ) = v by omega] at h

end SpidirWasm.Leb128
