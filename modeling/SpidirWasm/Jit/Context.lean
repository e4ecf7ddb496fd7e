import SpidirWasm.Jit.Helpers
import SpidirWasm.Logic.Checked
import SpidirWasm.Wasm.Types

/-! The context that the translation of one module threads through its functions:
what is known of each function, global, table and data segment, the queue of
functions still to translate, and the lazily declared helpers. -/

namespace SpidirWasm.Jit

open Checked
open Spidir (ValueType FuncRef MemSize)
open Wasm (WasmModule FuncType)

/-- `jit_function_t`. -/
structure JitFunction where
  spidir : FuncRef := {}
  cfiThunk : ℕ := 0
  address : ℕ := 0
  inited : Bool := false
  hasCfi : Bool := false
  deriving DecidableEq, Repr, Inhabited

/-- `jit_global_t`; `none` is the offset -1 of an immutable global. -/
structure JitGlobal where
  offset : Option ℕ := none
  type : ValueType := .none
  deriving DecidableEq, Repr, Inhabited

structure JitTable where
  global : ℕ := 0
  length : ℕ := 0
  used : Bool := false
  deriving DecidableEq, Repr, Inhabited

/-- `jit_data_t`; `none` is the offset -1 of an active segment. -/
structure JitData where
  offset : Option ℕ := none
  deriving DecidableEq, Repr, Inhabited

/-- The spidir module: how many functions, extern functions and extern globals were
created, and the graph of every function that was built. -/
structure SpidirModule where
  functions : ℕ := 0
  externFunctions : ℕ := 0
  externGlobals : ℕ := 0
  bodies : ℕ → Option Spidir.Builder := fun _ => none

/-- `jit_context_t`. The import resolver of the configuration is `resolveImport`, from
module name, item name and type to an address; a queue is listed from its end. -/
structure JitContext where
  spidir : SpidirModule := {}
  module : WasmModule := {}
  functions : List JitFunction := []
  globals : List JitGlobal := []
  tables : List JitTable := []
  data : List JitData := []
  queue : List ℕ := []
  helpers : HelperKind → Option FuncRef := fun _ => none
  resolveImport : Option Wasm.Name → Option Wasm.Name → FuncType → Option ℕ := fun _ _ _ => none

/-- `jit_get_spidir_value_type`, which asserts on an invalid type. -/
def jitGetSpidirValueType : Wasm.ValueType → Option ValueType
  | .f64 => some .f64
  | .f32 => some .f32
  | .i64 => some .i64
  | .i32 => some .i32
  | .invalid => none

/-- `jit_get_spidir_mem_size`. -/
def jitGetSpidirMemSize : ValueType → Option MemSize
  | .f64 => some .size8
  | .f32 => some .size4
  | .i64 => some .size8
  | .i32 => some .size4
  | _ => none

/-- The return type of a signature; more than one result is refused. -/
def jitRetType (type : FuncType) : Option ValueType :=
  match type.resultTypes with
  | [] => some .none
  | [result] => jitGetSpidirValueType result
  | _ => none

/-- The spidir types of the wasm parameters. -/
def jitArgTypes (type : FuncType) : Option (List ValueType) :=
  type.argTypes.mapM jitGetSpidirValueType

/-- The parameter types a function is declared with: the memory base and the state base
come first. -/
def jitParams (type : FuncType) : Option (List ValueType) :=
  (jitArgTypes type).map fun args => .ptr :: .ptr :: args

/-- The types of a signature, one by one. -/
theorem mapM_get {types : List Wasm.ValueType} {args : List ValueType} (h : types.mapM jitGetSpidirValueType = some args) :
    args.length = types.length ∧ ∀ i : ℕ, types[i]?.bind jitGetSpidirValueType = args[i]? := by
  induction types generalizing args with
  | nil =>
    obtain rfl := Option.some.inj h
    exact ⟨rfl, fun _ => rfl⟩
  | cons argType rest ih =>
    simp only [List.mapM_cons, Option.bind_eq_bind, Option.bind_eq_some_iff, Option.pure_def, Option.some.injEq] at h
    obtain ⟨t, ht, args, hrest, rfl⟩ := h
    refine ⟨congrArg (· + 1) (ih hrest).1, fun i => ?_⟩
    cases i with
    | zero => exact ht
    | succ i => exact (ih hrest).2 i

/-- `spidir_module_create_extern_function`. -/
def createExternFunction (ret : ValueType) (args : List ValueType) : Checked JitContext FuncRef := do
  let id ← read fun c : JitContext => c.spidir.externFunctions
  update fun c => { c with spidir := { c.spidir with externFunctions := id + 1 } }
  return ⟨true, id, ret, args⟩

/-- `spidir_module_create_function`. -/
def createFunction (ret : ValueType) (args : List ValueType) : Checked JitContext FuncRef := do
  let id ← read fun c : JitContext => c.spidir.functions
  update fun c => { c with spidir := { c.spidir with functions := id + 1 } }
  return ⟨false, id, ret, args⟩

theorem createExternFunction_bind {α : Type} (ret : ValueType) (args : List ValueType) (f : FuncRef → Checked JitContext α)
    (c : JitContext) : (createExternFunction ret args >>= f) c = f ⟨true, c.spidir.externFunctions, ret, args⟩
      { c with spidir := { c.spidir with externFunctions := c.spidir.externFunctions + 1 } } := rfl

theorem createFunction_bind {α : Type} (ret : ValueType) (args : List ValueType) (f : FuncRef → Checked JitContext α) (c : JitContext) :
    (createFunction ret args >>= f) c = f ⟨false, c.spidir.functions, ret, args⟩
      { c with spidir := { c.spidir with functions := c.spidir.functions + 1 } } := rfl

/-- `jit_prepare_function`. -/
def jitPrepareFunction (funcidx : ℕ) : Checked JitContext Unit := do
  let m ← read JitContext.module
  check (funcidx < m.functions.length + m.imports.length)
  let function ← lift (← read JitContext.functions)[funcidx]?
  if function.inited then return
  let type ← lift (m.getFunc funcidx)
  let retType ← lift (jitRetType type)
  let args ← lift (jitParams type)
  if funcidx < m.imports.length then
    let item ← lift m.imports[funcidx]?
    check (item.kind = .func)
    let resolve ← read JitContext.resolveImport
    let addr ← lift (resolve item.moduleName item.itemName type)
    let func ← createExternFunction retType args
    update fun c => { c with
      functions := c.functions.modify funcidx fun f =>
        { f with spidir := func, address := addr, inited := true } }
  else
    let func ← createFunction retType args
    update fun c => { c with
      functions := c.functions.modify funcidx fun f => { f with spidir := func, inited := true }
      queue := funcidx :: c.queue }

/-- `jit_get_helper`. -/
def jitGetHelper (kind : HelperKind) : Checked JitContext FuncRef := do
  match (← read JitContext.helpers) kind with
  | some func => return func
  | none =>
    let (ret, args) ← lift (helperDef kind)
    let func ← createExternFunction ret args
    update fun c => { c with helpers := Function.update c.helpers kind (some func) }
    return func

/-- `wasm_get_func_type` of `inst.c`. -/
def wasmGetFuncType (m : WasmModule) (funcidx : ℕ) : Option FuncType :=
  let typeidx := if funcidx < m.imports.length then m.imports[funcidx]?.map (·.index)
    else m.functions[funcidx - m.imports.length]?
  typeidx.bind fun i => m.types[i]?

end SpidirWasm.Jit
