import Mathlib.Data.BitVec
import SpidirWasm.Wasm.SectionFormat

/-! The read-modify-write instructions of WebAssembly's threads: what they make of a cell of
some bytes, and their sub-opcodes. -/

namespace SpidirWasm.Wasm

inductive AtomicOp where
  | add | sub | and | or | xor | xchg | cmpxchg
  deriving DecidableEq, Repr

/-- The cell behind an instruction, from the cell before it and the operands. -/
def AtomicOp.next (n : ℕ) (op : AtomicOp) (old : BitVec (8 * n)) (args : List (BitVec 64)) : BitVec (8 * n) :=
  match op, args with
  | add, [x] => old + x.setWidth _
  | sub, [x] => old - x.setWidth _
  | and, [x] => old &&& x.setWidth _
  | or, [x] => old ||| x.setWidth _
  | xor, [x] => old ^^^ x.setWidth _
  | xchg, [x] => x.setWidth _
  | cmpxchg, [expected, replacement] => if old = expected.setWidth _ then replacement.setWidth _ else old
  | _, _ => old

/-- An instruction on `bytes` bytes, which leaves a value of its type. -/
structure RmwInstr where
  op : AtomicOp
  is64 : Bool
  bytes : ℕ
  deriving DecidableEq, Repr

/-- How many operands there are above the address. -/
def AtomicOp.arity (op : AtomicOp) : ℕ := if op = cmpxchg then 2 else 1

/-- The operations in the order of their sub-opcodes, seven of which an operation has. -/
def atomicOps : List AtomicOp := [.add, .sub, .and, .or, .xor, .xchg, .cmpxchg]

/-- The type and the bytes of the seven. -/
def atomicShapes : List (Bool × ℕ) := [(false, 4), (true, 8), (false, 1), (false, 2), (true, 1), (true, 2), (true, 4)]

/-- The instruction of a sub-opcode. -/
def RmwInstr.ofSub (sub : ℕ) : Option RmwInstr :=
  if 0x1E ≤ sub then
    atomicOps[(sub - 0x1E) / 7]?.bind fun op => atomicShapes[(sub - 0x1E) % 7]?.map fun shape => ⟨op, shape.1, shape.2⟩
  else none

/-- The bytes of a number are those of its low part. -/
theorem leBytes_mod (n v : ℕ) : leBytes n (v % 256 ^ n) = leBytes n v := by
  induction n generalizing v with
  | zero => rfl
  | succ n ih =>
    have low : UInt8.ofNat (v % 256 ^ (n + 1)) = UInt8.ofNat v := by
      rw [← UInt8.toNat_inj, UInt8.toNat_ofNat', UInt8.toNat_ofNat']
      exact Nat.mod_mod_of_dvd v (Dvd.intro_left _ (pow_succ 256 n).symm)
    have high : v % 256 ^ (n + 1) / 256 = v / 256 % 256 ^ n := by
      rw [pow_succ', Nat.mod_mul_right_div_self]
    rw [leBytes, leBytes, low, high, ih]

/-- Apart from the exchanges, the order of two updates by one operation does not matter. -/
theorem AtomicOp.next_comm {n : ℕ} {op : AtomicOp} (hx : op ≠ xchg) (hc : op ≠ cmpxchg) (c : BitVec (8 * n)) (a b : List (BitVec 64)) :
    op.next n (op.next n c a) b = op.next n (op.next n c b) a := by
  rcases a with _ | ⟨x, _ | ⟨x', a⟩⟩ <;> rcases b with _ | ⟨y, _ | ⟨y', b⟩⟩ <;> cases op
  all_goals first
    | rfl
    | exact absurd rfl hx
    | exact absurd rfl hc
    | exact add_right_comm _ _ _
    | exact sub_right_comm _ _ _
    | simp only [next]; ac_rfl

end SpidirWasm.Wasm
