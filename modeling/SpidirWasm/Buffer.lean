import SpidirWasm.Logic.Checked
import SpidirWasm.Wasm.Types

/-! The byte cursor of `buffer.c`. The cursor keeps the byte just before it, since
instruction handlers read their opcode back through `data[-1]`. -/

namespace SpidirWasm

open Checked

/-- The unread bytes and the byte before them. -/
structure Buffer where
  prev : UInt8 := 0
  data : List UInt8 := []
  deriving DecidableEq, Repr, Inhabited

abbrev Pull (α : Type) := Checked Buffer α

/-- `buffer_pull`: the next `len` bytes. -/
def bufferPull (len : ℕ) : Pull (List UInt8) := fun b =>
  if b.data.length < len then none
  else some (b.data.take len, ⟨(b.data.take len).getLast?.getD b.prev, b.data.drop len⟩)

/-- `BUFFER_PULL(uint8_t, buffer)`. -/
def bufferPullU8 : Pull UInt8 := fun b =>
  match b.data with
  | [] => none
  | byte :: rest => some (byte, ⟨byte, rest⟩)

/-- `((uint8_t*)code->data)[-1]`. -/
def bufferPrev : Pull UInt8 := read Buffer.prev

/-- The value of little-endian bytes, as `memcpy` into an integer or a float reads them. -/
def leBits : List UInt8 → ℕ
  | [] => 0
  | byte :: rest => byte.toNat + 256 * leBits rest

/-- The loop shared by the four LEB128 readers: `w`-bit accumulation, failing once
`shift` passes `limit`. It returns the bits, the final shift and the last byte. -/
def lebLoop (w limit : ℕ) : (result shift : ℕ) → List UInt8 → Option (ℕ × ℕ × UInt8 × List UInt8)
  | _, _, [] => none
  | result, shift, byte :: rest =>
    if shift ≤ limit then
      let result := (result ||| ((byte.toNat &&& 0x7f) <<< shift)) % 2 ^ w
      if byte.toNat &&& 0x80 ≠ 0 then lebLoop w limit result (shift + 7) rest
      else some (result, shift + 7, byte, rest)
    else none

/-- An unsigned LEB128 integer. -/
def pullUnsigned (w limit : ℕ) : Pull ℕ := fun b =>
  (lebLoop w limit 0 0 b.data).map fun (result, _, last, rest) => (result, ⟨last, rest⟩)

/-- A signed LEB128 integer, sign-extended from the last byte's `0x40` when the
encoding stops short of `w` bits; in two's complement. -/
def pullSigned (w limit : ℕ) : Pull ℕ := fun b =>
  (lebLoop w limit 0 0 b.data).map fun (result, shift, last, rest) =>
    (if shift < w ∧ last.toNat &&& 0x40 ≠ 0 then
      result ||| (((2 ^ w - 1) <<< shift) % 2 ^ w) else result, ⟨last, rest⟩)

def bufferPullU32 : Pull ℕ := pullUnsigned 32 28

def bufferPullU64 : Pull ℕ := pullUnsigned 64 63

def bufferPullI32 : Pull ℕ := pullSigned 32 28

def bufferPullI64 : Pull ℕ := pullSigned 64 63

/-- `is_valid_utf8`. -/
def isValidUtf8 : List UInt8 → Bool
  | [] => true
  | a :: rest =>
    let cont (b : UInt8) : Bool := b.toNat &&& 0xC0 = 0x80
    if a.toNat ≤ 0x7F then isValidUtf8 rest
    else if a.toNat &&& 0xE0 = 0xC0 then
      match rest with
      | b :: rest => cont b && !decide (a.toNat &&& 0x1F < 0x02) && isValidUtf8 rest
      | _ => false
    else if a.toNat &&& 0xF0 = 0xE0 then
      match rest with
      | b :: c :: rest =>
        let cp := ((a.toNat &&& 0x0F) <<< 12) ||| ((b.toNat &&& 0x3F) <<< 6) ||| (c.toNat &&& 0x3F)
        cont b && cont c && !decide (cp < 0x0800 ∨ (0xD800 ≤ cp ∧ cp ≤ 0xDFFF)) && isValidUtf8 rest
      | _ => false
    else if a.toNat &&& 0xF8 = 0xF0 then
      match rest with
      | b :: c :: d :: rest =>
        let cp := ((a.toNat &&& 0x07) <<< 18) ||| ((b.toNat &&& 0x3F) <<< 12) |||
          ((c.toNat &&& 0x3F) <<< 6) ||| (d.toNat &&& 0x3F)
        cont b && cont c && cont d && !decide (cp < 0x010000 ∨ 0x10FFFF < cp) && isValidUtf8 rest
      | _ => false
    else false

/-- `buffer_pull_name`: a length-prefixed UTF-8 string. -/
def bufferPullName : Pull (List UInt8) := do
  let len ← bufferPullU32
  let name ← bufferPull len
  check (isValidUtf8 name)
  return name

/-- `buffer_pull_val_type`. -/
def bufferPullValType : Pull Wasm.ValueType := do
  let byte ← bufferPullU8
  lift (match byte.toNat with
    | 0x7C => some .f64
    | 0x7D => some .f32
    | 0x7E => some .i64
    | 0x7F => some .i32
    | _ => none)

/-! ### Every reader consumes a prefix -/

theorem bufferPull_eq_some (len : ℕ) (b : Buffer) (r : List UInt8 × Buffer) :
    bufferPull len b = some r ↔ len ≤ b.data.length ∧
      r = (b.data.take len, ⟨(b.data.take len).getLast?.getD b.prev, b.data.drop len⟩) := by
  unfold bufferPull
  split_ifs with h
  · simp; omega
  · simp [Nat.not_lt.mp h, eq_comm]

theorem bufferPullU8_eq_some (b : Buffer) (r : UInt8 × Buffer) :
    bufferPullU8 b = some r ↔ b.data = r.1 :: r.2.data ∧ r.2.prev = r.1 := by
  obtain ⟨prev, data⟩ := b
  obtain ⟨byte, prev', data'⟩ := r
  cases data <;> simp [bufferPullU8]
  grind

theorem lebLoop_suffix {w limit result shift : ℕ} {bs : List UInt8} {out last rest} {s : ℕ}
    (h : lebLoop w limit result shift bs = some (out, s, last, rest)) :
    ∃ used, used ≠ [] ∧ bs = used ++ rest := by
  induction bs generalizing result shift with
  | nil => simp [lebLoop] at h
  | cons byte bs ih =>
    simp only [lebLoop] at h
    split_ifs at h with h₁ h₂
    · obtain ⟨used, -, rfl⟩ := ih h
      exact ⟨byte :: used, by simp, rfl⟩
    · simp only [Option.some.injEq, Prod.mk.injEq] at h
      exact ⟨[byte], by simp, by simp [h.2.2.2]⟩

end SpidirWasm
