import SpidirWasm.Jit.LinkedImage

/-! One relocation, with the memory it leaves behind also where it fails. A PC-relative
field holds the distance from its site to the target modulo the size of the address
space, and is refused exactly when no signed 32-bit value is that distance. -/

namespace SpidirWasm.Jit

open Checked
open Spidir (Word)

/-- `jit_apply_reloc` on memory: whether it succeeds, and the memory behind it. -/
def applyReloc (code : Word) (codeSize : ℕ) (reloc : Reloc) (target : Word) (mem : Memory UInt8) : Bool × Memory UInt8 :=
  let F := target
  let P := code + BitVec.ofNat 64 reloc.offset
  let A := BitVec.ofInt 64 reloc.addend
  match reloc.kind with
  | .pc32 =>
    let value := (F + A - P).toInt
    if sizeT (reloc.offset + 4) ≤ codeSize ∧ -2 ^ 31 ≤ value ∧ value ≤ 2 ^ 31 - 1 then
      (true, mem.write P.toNat (Word.toBytes 4 (F + A - P)))
    else (false, mem)
  | .abs64 =>
    if sizeT (reloc.offset + 8) ≤ codeSize then (true, mem.write P.toNat (Word.toBytes 8 (F + A))) else (false, mem)

/-- Where the field of a relocation lies, for code that starts at `code`. -/
def Reloc.site (r : Reloc) (code : Word) : Word := code + BitVec.ofNat 64 r.offset

/-- What a relocation refers to. -/
def Reloc.value (r : Reloc) (target : Word) : Word := target + BitVec.ofInt 64 r.addend

/-- The low half of a word whose value is that of a signed 32-bit integer. -/
theorem signExtend_low {d : Word} (h : -2 ^ 31 ≤ d.toInt ∧ d.toInt ≤ 2 ^ 31 - 1) : (d.setWidth 32).signExtend 64 = d := by
  apply BitVec.eq_of_toInt_eq
  rw [BitVec.toInt_signExtend_of_le (by decide), BitVec.toInt_setWidth]
  have whole := BitVec.toInt_eq_toNat_cond d
  have bound := d.isLt
  simp only [Int.bmod]
  omega

/-- A distance is one of a signed 32-bit integer if its value is. -/
theorem exists_signExtend_iff {d : Word} : (∃ v : BitVec 32, v.signExtend 64 = d) ↔ -2 ^ 31 ≤ d.toInt ∧ d.toInt ≤ 2 ^ 31 - 1 := by
  constructor
  · rintro ⟨v, rfl⟩
    rw [BitVec.toInt_signExtend_of_le (by decide)]
    have low := @BitVec.le_toInt 32 v
    have high := @BitVec.toInt_lt 32 v
    omega
  · exact fun h => ⟨_, signExtend_low h⟩

variable {code target : Word} {codeSize : ℕ} {r : Reloc} {mem : Memory UInt8}

/-- No signed 32-bit value is the distance from the site to the target. -/
def Reloc.TooFar (r : Reloc) (code target : Word) : Prop :=
  r.kind = .pc32 ∧ ∀ v : BitVec 32, v.signExtend 64 + r.site code ≠ r.value target

/-- The field of a relocation that has been applied. -/
def Reloc.Filled (r : Reloc) (code target : Word) (mem : Memory UInt8) : Prop :=
  ∃ bytes, mem.load (r.site code).toNat r.kind.size = some bytes ∧
    match r.kind with
    | .pc32 => ((Word.ofBytes bytes).setWidth 32).signExtend 64 + r.site code = r.value target
    | .abs64 => Word.ofBytes bytes = r.value target

/-- What a relocation stores, in as many bytes as its field has. -/
def Reloc.contents (r : Reloc) (code target : Word) : Word :=
  match r.kind with
  | .pc32 => r.value target - r.site code
  | .abs64 => r.value target

/-- Where no distance is too far, the check of the signed range says so. -/
theorem tooFar_iff (hkind : r.kind = .pc32) : r.TooFar code target ↔
    ¬(-2 ^ 31 ≤ (r.value target - r.site code).toInt ∧ (r.value target - r.site code).toInt ≤ 2 ^ 31 - 1) := by
  rw [← exists_signExtend_iff, Reloc.TooFar, not_exists]
  simp only [hkind, true_and, BitVec.eq_sub_iff_add_eq, ne_eq]

/-- The bytes that a relocation stores fill its field. -/
theorem filled_write (hnear : ¬r.TooFar code target) :
    r.Filled code target (mem.write (r.site code).toNat (Word.toBytes r.kind.size (r.contents code target))) := by
  have loaded := Memory.load_write_self mem (r.site code).toNat (Word.toBytes r.kind.size (r.contents code target))
  rw [Word.length_toBytes] at loaded
  refine ⟨_, loaded, ?_⟩
  rw [Word.ofBytes_toBytes]
  cases hkind : r.kind with
  | pc32 =>
    have near := not_not.mp (mt (tooFar_iff hkind).mpr hnear)
    have low : (((r.value target - r.site code).setWidth 32).setWidth 64).setWidth 32 = (r.value target - r.site code).setWidth 32 := by
      simp
    simp only [Reloc.contents, hkind, RelocKind.size]
    rw [low, signExtend_low near, BitVec.sub_add_cancel]
  | abs64 => simp [Reloc.contents, hkind, RelocKind.size]

/-- A relocation fails on an ill-placed field or a distance too far, and stores its field otherwise. -/
theorem applyReloc_eq (code target : Word) (codeSize : ℕ) (mem : Memory UInt8) (hoffset : r.offset + 8 < 2 ^ 64) :
    (applyReloc code codeSize r target mem = (false, mem) ∧ (codeSize < r.offset + r.kind.size ∨ r.TooFar code target)) ∨
    (applyReloc code codeSize r target mem =
      (true, mem.write (r.site code).toNat (Word.toBytes r.kind.size (r.contents code target))) ∧
      r.offset + r.kind.size ≤ codeSize ∧ ¬r.TooFar code target) := by
  rw [applyReloc]
  cases hkind : r.kind with
  | pc32 =>
    have size : sizeT (r.offset + 4) = r.offset + 4 := Nat.mod_eq_of_lt (by omega)
    simp only [size, RelocKind.size, Reloc.contents, hkind, tooFar_iff hkind]
    split_ifs with h
    · exact .inr ⟨rfl, h.1, not_not.mpr h.2⟩
    · exact .inl ⟨rfl, by rwa [← not_le, ← not_and_or]⟩
  | abs64 =>
    have size : sizeT (r.offset + 8) = r.offset + 8 := Nat.mod_eq_of_lt hoffset
    have near : ¬r.TooFar code target := by simp [Reloc.TooFar, hkind]
    simp only [size, RelocKind.size, Reloc.contents, hkind]
    split_ifs with h
    · exact .inr ⟨rfl, h, near⟩
    · exact .inl ⟨rfl, .inl (not_le.mp h)⟩

/-- The address of a byte of a field is that of a byte of the code. -/
theorem address_of_field {a : ℕ} (ha : (r.site code).toNat ≤ a) :
    BitVec.ofNat 64 a = code + BitVec.ofNat 64 (r.offset + (a - (r.site code).toNat)) := by
  have split : a = (r.site code).toNat + (a - (r.site code).toNat) := by omega
  rw [BitVec.ofNat_add, ← BitVec.add_assoc, ← Reloc.site]
  conv_lhs => rw [split, BitVec.ofNat_add, BitVec.ofNat_toNat, BitVec.setWidth_eq]

/-- A relocation that is applied fills its field with the distance from the site to the target, or with the target, and touches the
field alone, which lies in the code. It fails exactly where the field does not lie in the code or the distance is too far, and
leaves the memory as it is. -/
theorem reloc_applied (code target : Word) (codeSize : ℕ) (r : Reloc) (mem : Memory UInt8) (hoffset : r.offset + 8 < 2 ^ 64) :
    ((applyReloc code codeSize r target mem).1 = false ↔ codeSize < r.offset + r.kind.size ∨ r.TooFar code target) ∧
    ((applyReloc code codeSize r target mem).1 = false → (applyReloc code codeSize r target mem).2 = mem) ∧
    ((applyReloc code codeSize r target mem).1 = true → r.Filled code target (applyReloc code codeSize r target mem).2) ∧
    ∀ a, (applyReloc code codeSize r target mem).2 a ≠ mem a →
      (r.site code).toNat ≤ a ∧ a < (r.site code).toNat + r.kind.size ∧
        ∃ i < codeSize, BitVec.ofNat 64 a = code + BitVec.ofNat 64 i := by
  rcases applyReloc_eq code target codeSize mem hoffset with
    ⟨hrun, hfail⟩ | ⟨hrun, hin, hnear⟩
  · rw [hrun]
    exact ⟨⟨fun _ => hfail, fun _ => rfl⟩, fun _ => rfl, fun h => absurd h Bool.false_ne_true, fun a ha => absurd rfl ha⟩
  · rw [hrun]
    refine ⟨⟨fun h => absurd h.symm Bool.false_ne_true, fun h => ?_⟩, fun h => absurd h.symm Bool.false_ne_true,
      fun _ => filled_write hnear, fun a ha => ?_⟩
    · obtain h | h := h
      · omega
      · exact absurd h hnear
    · have range : (r.site code).toNat ≤ a ∧ a < (r.site code).toNat + r.kind.size := by
        by_contra hout
        refine ha (Memory.write_of_not_mem ?_)
        rw [Word.length_toBytes]
        omega
      exact ⟨range.1, range.2, r.offset + (a - (r.site code).toNat), by omega, address_of_field range.1⟩

/-- A relocation of a call: the field behind the opcode, from whose end the target is counted. -/
def callReloc : Reloc := { offset := 1, addend := -4, kind := .pc32 }

theorem reloc_applied_call :
    callReloc.Filled 0x1000 0x2000 (applyReloc 0x1000 16 callReloc 0x2000 fun _ => some 0xCC).2 :=
  (reloc_applied 0x1000 0x2000 16 callReloc _ (by decide)).2.2.1 (by decide)

/-! ### The linker's relocations -/

section Link

variable {l : Linker} {f : FunctionCodegen} {s : Linked} {t : ℕ} {bytes : List UInt8}

/-- The distance that the linker computes, as the machine does. -/
theorem ofInt_distance (t p : ℕ) (a : ℤ) :
    BitVec.ofInt 64 (t + a - p) = BitVec.ofNat 64 t + BitVec.ofInt 64 a - BitVec.ofNat 64 p := by
  rw [BitVec.eq_sub_iff_add_eq, ← BitVec.ofInt_natCast 64 p, ← BitVec.ofInt_natCast 64 t, ← BitVec.ofInt_add, ← BitVec.ofInt_add,
    Int.sub_add_cancel]

/-- In the code of a function bytes can be stored. -/
theorem poke_code (h : l.Ok) (hf : f ∈ l.codegen.functions) (hne : 0 < bytes.length)
    (hin : r.offset + bytes.length ≤ f.blob.code.length) :
    poke l (l.entry f + r.offset) bytes s = some ((), { s with image := s.image.write (l.entry f + r.offset) bytes }) := by
  obtain ⟨hstart, hstop⟩ := h.code hf
  have fits := h.fits
  rw [poke_eq_some, sizeT_of_lt (by omega)]
  exact ⟨by omega, rfl⟩

/-- In the code of a function nothing is outside of the binary, so that a relocation of the linker is that of memory. -/
theorem jitApplyReloc_eq (h : l.Ok) (hf : f ∈ l.codegen.functions) (hoffset : r.offset + 8 < 2 ^ 64) :
    jitApplyReloc l (l.entry f) f.blob.code.length r t s =
      if (applyReloc (BitVec.ofNat 64 (l.entry f)) f.blob.code.length r (BitVec.ofNat 64 t) s.image).1 = true then
        some ((), { s with image := (applyReloc (BitVec.ofNat 64 (l.entry f)) f.blob.code.length r (BitVec.ofNat 64 t) s.image).2 })
      else none := by
  have site : BitVec.ofNat 64 (l.entry f) + BitVec.ofNat 64 r.offset = BitVec.ofNat 64 (l.entry f + r.offset) :=
    (BitVec.ofNat_add _ _).symm
  have hplace : r.offset < f.blob.code.length → (BitVec.ofNat 64 (l.entry f + r.offset)).toNat = l.entry f + r.offset := by
    intro hin
    obtain ⟨hstart, hstop⟩ := h.code hf
    have fits := h.fits
    rw [BitVec.toNat_ofNat, Nat.mod_eq_of_lt (by omega)]
  rw [jitApplyReloc, applyReloc]
  cases hkind : r.kind with
  | pc32 =>
    have size : sizeT (r.offset + 4) = r.offset + 4 := Nat.mod_eq_of_lt (by omega)
    simp only [size, site, ← ofInt_distance, BitVec.toInt_ofInt, check_bind, ofInt_bmod]
    by_cases hin : r.offset + 4 ≤ f.blob.code.length
    · by_cases hnear : -2 ^ 31 ≤ (t + r.addend - (l.entry f + r.offset : ℕ) : ℤ).bmod (2 ^ 64) ∧
          (t + r.addend - (l.entry f + r.offset : ℕ) : ℤ).bmod (2 ^ 64) ≤ 2 ^ 31 - 1
      · simp only [hin, hnear, and_self, if_true]
        rw [poke_code h hf (by simp) (by simpa using hin), hplace (by omega)]
      · simp only [hin, hnear, and_false, if_true, if_false, Bool.false_eq_true]
    · simp only [hin, false_and, if_false, Bool.false_eq_true]
  | abs64 =>
    have size : sizeT (r.offset + 8) = r.offset + 8 := Nat.mod_eq_of_lt hoffset
    simp only [size, site, check_bind]
    by_cases hin : r.offset + 8 ≤ f.blob.code.length
    · simp only [hin, if_true]
      rw [poke_code h hf (by simp) (by simpa using hin), hplace (by omega), BitVec.ofInt_add, BitVec.ofInt_natCast]
    · simp only [hin, if_false, Bool.false_eq_true]

end Link

end SpidirWasm.Jit
