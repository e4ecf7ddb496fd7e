import Mathlib.Algebra.Group.Int.Defs
import Mathlib.Algebra.Group.Nat.Defs
import Mathlib.Data.Int.Notation
import Mathlib.Data.Nat.Notation
import Mathlib.Tactic.Common

/-! The data of a loaded module, field by field as `wasm_module_t` holds it. An
array with its count is a list, a nullable pointer an `Option`, and the union in
`wasm_value_t` is one bit pattern read at the value's kind. -/

namespace SpidirWasm.Wasm

/-- Bytes with their terminating NUL left off. -/
abbrev Name := List UInt8

/-- `wasm_value_type_t`; `invalid` is the zero of the enumeration. -/
inductive ValueType where
  | invalid | f64 | f32 | i64 | i32
  deriving DecidableEq, Repr, Inhabited

/-- `wasm_value_t`: an integer in two's complement or the bits of a float. -/
structure WasmValue where
  kind : ValueType := .invalid
  bits : ℕ := 0
  deriving DecidableEq, Repr, Inhabited

/-- `wasm_type_t`, a function signature. -/
structure FuncType where
  argTypes : List ValueType := []
  resultTypes : List ValueType := []
  deriving DecidableEq, Repr, Inhabited

structure WasmGlobal where
  value : WasmValue := {}
  mutable : Bool := false
  deriving DecidableEq, Repr, Inhabited

structure WasmTable where
  min : ℕ := 0
  max : ℕ := 0
  deriving DecidableEq, Repr, Inhabited

structure ElemSegment where
  tableidx : ℕ := 0
  offset : ℕ := 0
  funcs : List ℕ := []
  deriving DecidableEq, Repr, Inhabited

structure DataSegment where
  offset : ℕ := 0
  data : List UInt8 := []
  active : Bool := false
  deriving DecidableEq, Repr, Inhabited

/-- `wasm_extern_type_t`. -/
inductive ExternType where
  | func | table | mem | global | tag
  deriving DecidableEq, Repr, Inhabited

structure WasmImport where
  moduleName : Option Name := none
  itemName : Option Name := none
  kind : ExternType := .func
  index : ℕ := 0
  deriving DecidableEq, Repr, Inhabited

/-- `wasm_export_type_t`. -/
inductive ExportKind where
  | func | table | memory | global | tag
  deriving DecidableEq, Repr, Inhabited

structure WasmExport where
  name : Option Name := none
  kind : ExportKind := .func
  index : ℕ := 0
  deriving DecidableEq, Repr, Inhabited

structure WasmMemory where
  min : ℕ := 0
  max : ℕ := 0
  shared : Bool := false
  deriving DecidableEq, Repr, Inhabited

/-- `wasm_module_t`. `code` is null until the code section is read, and
`functionNames` until a function-names subsection is. -/
structure WasmModule where
  types : List FuncType := []
  functions : List ℕ := []
  globals : List WasmGlobal := []
  imports : List WasmImport := []
  exports : List WasmExport := []
  tables : List WasmTable := []
  elems : List ElemSegment := []
  data : List DataSegment := []
  code : Option (List (List UInt8)) := none
  memory : WasmMemory := {}
  startFunc : ℤ := -1
  moduleName : Option Name := none
  functionNames : Option (List (Option Name)) := none
  deriving DecidableEq, Repr, Inhabited

namespace WasmModule

/-- The size of the function index space, imports first. -/
def totalFuncs (m : WasmModule) : ℕ := m.imports.length + m.functions.length

/-- `wasm_get_func` at a nonnegative index. -/
def getFunc (m : WasmModule) (index : ℕ) : Option FuncType :=
  if index < m.imports.length then
    match m.imports[index]? with
    | some i => if i.kind = .func then m.types[i.index]? else none
    | none => none
  else
    match m.functions[index - m.imports.length]? with
    | some typeidx => m.types[typeidx]?
    | none => none

end WasmModule

end SpidirWasm.Wasm
