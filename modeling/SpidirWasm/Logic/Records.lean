import SpidirWasm.Wasm.Accesses

/-! Packed records: numbers of given widths, in little-endian bytes and one behind the other. A
reader that knows the widths gets the numbers back. -/

namespace SpidirWasm.Records

open Wasm (leBytes leBytes_length leBits_leBytes)

/-- The bytes of a record, whose fields have a width in bytes and a value. -/
def pack : List (ℕ × ℕ) → List UInt8
  | [] => []
  | (n, v) :: fields => leBytes n v ++ pack fields

/-- The values of the fields with such widths. -/
def unpack : List ℕ → List UInt8 → List ℕ
  | [], _ => []
  | n :: widths, bytes => leBits (bytes.take n) :: unpack widths (bytes.drop n)

theorem length_pack (fields : List (ℕ × ℕ)) : (pack fields).length = (fields.map Prod.fst).sum := by
  induction fields with
  | nil => rfl
  | cons field fields ih => rw [pack, List.length_append, leBytes_length, ih, List.map_cons, List.sum_cons]

/-- The fields are read back, as far as they fit. -/
theorem unpack_pack (fields : List (ℕ × ℕ)) : unpack (fields.map Prod.fst) (pack fields) = fields.map fun f => f.2 % 256 ^ f.1 := by
  induction fields with
  | nil => rfl
  | cons field fields ih =>
    obtain ⟨n, v⟩ := field
    have front : (pack ((n, v) :: fields)).take n = leBytes n v := by
      rw [pack, List.take_append_of_le_length (leBytes_length n v).ge, List.take_of_length_le (leBytes_length n v).le]
    have rest : (pack ((n, v) :: fields)).drop n = pack fields := by
      rw [pack, List.drop_append_of_le_length (leBytes_length n v).ge, List.drop_of_length_le (leBytes_length n v).le, List.nil_append]
    rw [List.map_cons, unpack, front, rest, ih, leBits_leBytes, List.map_cons]

/-- Words of the right widths are read back as they are. -/
theorem ofNat_unpack {n w : ℕ} (h : 256 ^ n = 2 ^ w) (x : BitVec w) : BitVec.ofNat w (x.toNat % 256 ^ n) = x := by
  rw [h, Nat.mod_eq_of_lt x.isLt, BitVec.ofNat_toNat, BitVec.setWidth_eq]

end SpidirWasm.Records
