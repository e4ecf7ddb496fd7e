import Mathlib.Algebra.Group.Int.Defs
import Mathlib.Algebra.Group.Nat.Defs
import Mathlib.Data.BitVec

/-! The integer instructions of WebAssembly: what they compute, and their opcodes. An
operation that has no result traps. -/

namespace SpidirWasm.Wasm

inductive IUnop where
  | clz | ctz | popcnt
  | extendS (bits : ℕ)
  deriving DecidableEq, Repr

inductive IBinop where
  | add | sub | mul | divS | divU | remS | remU | and | or | xor | shl | shrS | shrU | rotl | rotr
  deriving DecidableEq, Repr

inductive IRelop where
  | eq | ne | ltS | ltU | gtS | gtU | leS | leU | geS | geU
  deriving DecidableEq, Repr

section Eval

variable {n : ℕ} (a b : BitVec n)

def IUnop.eval : IUnop → BitVec n
  | clz => a.clz
  | ctz => a.ctz
  | popcnt => a.cpop
  | extendS bits => (a.setWidth bits).signExtend n

/-- A quotient is cut off towards zero, and it has to be a number of the width. A shift or a
rotation goes by a count modulo the width. -/
def IBinop.eval : IBinop → Option (BitVec n)
  | add => some (a + b)
  | sub => some (a - b)
  | mul => some (a * b)
  | divS =>
    if b = 0 then none
    else if a.toInt.tdiv b.toInt = 2 ^ (n - 1) then none
    else some (BitVec.ofInt n (a.toInt.tdiv b.toInt))
  | divU => if b = 0 then none else some (BitVec.ofNat n (a.toNat / b.toNat))
  | remS => if b = 0 then none else some (BitVec.ofInt n (a.toInt.tmod b.toInt))
  | remU => if b = 0 then none else some (BitVec.ofNat n (a.toNat % b.toNat))
  | and => some (a &&& b)
  | or => some (a ||| b)
  | xor => some (a ^^^ b)
  | shl => some (a <<< (b.toNat % n))
  | shrS => some (a.sshiftRight (b.toNat % n))
  | shrU => some (a >>> (b.toNat % n))
  | rotl => some (a.rotateLeft (b.toNat % n))
  | rotr => some (a.rotateRight (b.toNat % n))

def IRelop.eval : IRelop → Bool
  | eq => a = b
  | ne => a ≠ b
  | ltS => a.toInt < b.toInt
  | ltU => a.toNat < b.toNat
  | gtS => b.toInt < a.toInt
  | gtU => b.toNat < a.toNat
  | leS => a.toInt ≤ b.toInt
  | leU => a.toNat ≤ b.toNat
  | geS => b.toInt ≤ a.toInt
  | geU => b.toNat ≤ a.toNat

end Eval

/-- The bits of `i32` and of `i64`. -/
def intBits (is64 : Bool) : ℕ := if is64 then 64 else 32

/-- An integer instruction; `extend` goes from `i32` to `i64`. -/
inductive IntInstr where
  | eqz (is64 : Bool)
  | relop (is64 : Bool) (op : IRelop)
  | unop (is64 : Bool) (op : IUnop)
  | binop (is64 : Bool) (op : IBinop)
  | wrap
  | extend (signed : Bool)
  deriving DecidableEq, Repr

namespace IntInstr

/-- The types of the operands, the first one below the others. -/
def args : IntInstr → List Bool
  | eqz is64 | unop is64 _ => [is64]
  | relop is64 _ | binop is64 _ => [is64, is64]
  | wrap => [true]
  | extend _ => [false]

/-- The type of the result. -/
def ret : IntInstr → Bool
  | unop is64 _ | binop is64 _ => is64
  | extend _ => true
  | eqz _ | relop _ _ | wrap => false

/-- The result for words of which the bits of the types count. -/
def eval : IntInstr → List (BitVec 64) → Option (BitVec 64)
  | eqz is64, [x] => some (if x.setWidth (intBits is64) = 0 then 1 else 0)
  | relop is64 op, [x, y] => some (if op.eval (x.setWidth (intBits is64)) (y.setWidth (intBits is64)) then 1 else 0)
  | unop is64 op, [x] => some ((op.eval (x.setWidth (intBits is64))).setWidth 64)
  | binop is64 op, [x, y] => (op.eval (x.setWidth (intBits is64)) (y.setWidth (intBits is64))).map (·.setWidth 64)
  | wrap, [x] => some ((x.setWidth 32).setWidth 64)
  | extend signed, [x] => some (if signed then (x.setWidth 32).signExtend 64 else (x.setWidth 32).setWidth 64)
  | _, _ => none

/-- The tests and the comparisons of a type, in the order of their opcodes. -/
def tests (is64 : Bool) : List IntInstr :=
  eqz is64 :: [IRelop.eq, .ne, .ltS, .ltU, .gtS, .gtU, .leS, .leU, .geS, .geU].map (relop is64)

/-- The arithmetic of a type. -/
def arithmetic (is64 : Bool) : List IntInstr :=
  [IUnop.clz, .ctz, .popcnt].map (unop is64) ++
    [IBinop.add, .sub, .mul, .divS, .divU, .remS, .remU, .and, .or, .xor, .shl, .shrS, .shrU, .rotl, .rotr].map (binop is64)

/-- The extensions in a type. -/
def extensions : List IntInstr :=
  [unop false (.extendS 8), unop false (.extendS 16), unop true (.extendS 8), unop true (.extendS 16), unop true (.extendS 32)]

/-- The instruction of an opcode. -/
def ofOpcode (opcode : ℕ) : Option IntInstr :=
  if 0x45 ≤ opcode ∧ opcode ≤ 0x4F then (tests false)[opcode - 0x45]?
  else if 0x50 ≤ opcode ∧ opcode ≤ 0x5A then (tests true)[opcode - 0x50]?
  else if 0x67 ≤ opcode ∧ opcode ≤ 0x78 then (arithmetic false)[opcode - 0x67]?
  else if 0x79 ≤ opcode ∧ opcode ≤ 0x8A then (arithmetic true)[opcode - 0x79]?
  else if opcode = 0xA7 then some wrap
  else if opcode = 0xAC then some (extend true)
  else if opcode = 0xAD then some (extend false)
  else if 0xC0 ≤ opcode ∧ opcode ≤ 0xC4 then extensions[opcode - 0xC0]?
  else none

end IntInstr

end SpidirWasm.Wasm
