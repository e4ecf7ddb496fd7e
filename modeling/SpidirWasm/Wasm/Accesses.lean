import SpidirWasm.Wasm.SectionFormat

/-! The loads and the stores of WebAssembly: the bytes that they access, and the numbers that
these stand for. -/

namespace SpidirWasm.Wasm

/-- A load of some bytes, as a number with or without a sign. -/
structure LoadInstr where
  type : ValueType
  bytes : ℕ
  signed : Bool := false
  deriving DecidableEq, Repr

structure StoreInstr where
  type : ValueType
  bytes : ℕ
  deriving DecidableEq, Repr

/-- The loads in the order of their opcodes. -/
def loads : List LoadInstr :=
  [⟨.i32, 4, false⟩, ⟨.i64, 8, false⟩, ⟨.f32, 4, false⟩, ⟨.f64, 8, false⟩, ⟨.i32, 1, true⟩, ⟨.i32, 1, false⟩, ⟨.i32, 2, true⟩,
    ⟨.i32, 2, false⟩, ⟨.i64, 1, true⟩, ⟨.i64, 1, false⟩, ⟨.i64, 2, true⟩, ⟨.i64, 2, false⟩, ⟨.i64, 4, true⟩, ⟨.i64, 4, false⟩]

def stores : List StoreInstr :=
  [⟨.i32, 4⟩, ⟨.i64, 8⟩, ⟨.f32, 4⟩, ⟨.f64, 8⟩, ⟨.i32, 1⟩, ⟨.i32, 2⟩, ⟨.i64, 1⟩, ⟨.i64, 2⟩, ⟨.i64, 4⟩]

/-- The load of an opcode. -/
def LoadInstr.ofOpcode (opcode : ℕ) : Option LoadInstr := if 0x28 ≤ opcode then loads[opcode - 0x28]? else none

/-- The store of an opcode. -/
def StoreInstr.ofOpcode (opcode : ℕ) : Option StoreInstr := if 0x36 ≤ opcode then stores[opcode - 0x36]? else none

/-- The number that a load makes of its bytes, the lowest one first. -/
def LoadInstr.value (i : LoadInstr) (bytes : List UInt8) : ℤ :=
  if i.signed ∧ 2 ^ (8 * i.bytes) ≤ 2 * leBits bytes then leBits bytes - 2 ^ (8 * i.bytes) else leBits bytes

/-- The bytes that a store makes of a number. -/
def StoreInstr.bytesOf (i : StoreInstr) (v : ℕ) : List UInt8 := leBytes i.bytes v

theorem StoreInstr.length_bytesOf (i : StoreInstr) (v : ℕ) : (i.bytesOf v).length = i.bytes := leBytes_length _ _

/-- The low part of a number comes back from its bytes. -/
theorem leBits_leBytes (n v : ℕ) : leBits (leBytes n v) = v % 256 ^ n := by
  induction n generalizing v with
  | zero => rw [leBytes, leBits, pow_zero, Nat.mod_one]
  | succ n ih =>
    have low : (UInt8.ofNat v).toNat = v % 256 := UInt8.toNat_ofNat'
    rw [leBytes, leBits, ih, low, pow_succ', Nat.mod_mul]

end SpidirWasm.Wasm
