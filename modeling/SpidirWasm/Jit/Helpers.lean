import SpidirWasm.Spidir.Builder

/-! The runtime helpers of `helpers.c` and the signatures they are declared with. -/

namespace SpidirWasm.Jit

open Spidir (ValueType)

/-- The operation of an atomic read-modify-write helper. -/
inductive RmwOp where
  | add | sub | and | or | xor | xchg | cmpxchg
  deriving DecidableEq, Repr, Inhabited

/-- The width in bytes of an atomic access, as the helper names spell it. -/
inductive AtomicWidth where
  | w1 | w2 | w4 | w8
  deriving DecidableEq, Repr, Inhabited

/-- The helpers on one float, by their wasm name. -/
inductive FloatUnary where
  | abs | neg | ceil | floor | trunc | nearest | sqrt
  deriving DecidableEq, Repr, Inhabited

/-- The helpers on two floats. -/
inductive FloatBinary where
  | min | max | copysign
  deriving DecidableEq, Repr, Inhabited

/-- `jit_helper_kind_t`. A family of kinds that differ in operation and width is one
constructor, `JIT_HELPER_F32_ABS` being `fUnary false .abs`; a flag tells the
64-bit kind of a pair, and in `truncSat` the output, the input and the sign. -/
inductive HelperKind where
  | memorySize | memoryGrow | memoryCopy | memoryFill | memoryInit
  | fUnary (is64 : Bool) (op : FloatUnary)
  | fBinary (is64 : Bool) (op : FloatBinary)
  | truncSat (out64 in64 unsigned : Bool)
  | trap
  | atomicNotify | atomicWait4 | atomicWait8 | atomicFence
  | atomicLoad (w : AtomicWidth)
  | atomicStore (w : AtomicWidth)
  | atomicRmw (op : RmwOp) (w : AtomicWidth)
  deriving DecidableEq, Repr, Inhabited

/-- The type of the value an atomic helper moves. -/
def AtomicWidth.type : AtomicWidth → ValueType
  | .w8 => .i64
  | _ => .i32

def floatType (is64 : Bool) : ValueType := if is64 then .f64 else .f32

def intType (is64 : Bool) : ValueType := if is64 then .i64 else .i32

/-- `m_helper_defs`: return type and argument types. `JIT_HELPER_ATOMIC_FENCE` has no entry. -/
def helperDef : HelperKind → Option (ValueType × List ValueType)
  | .memorySize => some (.i32, [.ptr, .ptr])
  | .memoryGrow => some (.i32, [.ptr, .ptr, .i32])
  | .memoryCopy => some (.none, [.ptr, .ptr, .i32])
  | .memoryFill => some (.none, [.ptr, .i32, .i32])
  | .memoryInit => some (.none, [.ptr, .ptr, .i32, .i32, .i32])
  | .fUnary is64 _ => some (floatType is64, [floatType is64])
  | .fBinary is64 _ => some (floatType is64, [floatType is64, floatType is64])
  | .truncSat out64 in64 _ => some (intType out64, [floatType in64])
  | .trap => some (.none, [])
  | .atomicNotify => some (.i32, [.ptr, .i32])
  | .atomicWait4 => some (.i32, [.ptr, .i32, .i64])
  | .atomicWait8 => some (.i32, [.ptr, .i64, .i64])
  | .atomicFence => none
  | .atomicLoad w => some (w.type, [.ptr])
  | .atomicStore w => some (.none, [.ptr, w.type])
  | .atomicRmw .cmpxchg w => some (w.type, [.ptr, w.type, w.type])
  | .atomicRmw _ w => some (w.type, [.ptr, w.type])

end SpidirWasm.Jit
