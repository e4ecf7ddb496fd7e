import SpidirWasm.Jit.EmitRuns
import SpidirWasm.Jit.InstanceState

/-! The emission of a module's graphs: functions that can be reached from outside are
prepared first, with a thunk for each entry of an element segment, and the queue of prepared
functions is worked off while the translation of their bodies prepares more. -/

namespace SpidirWasm.Jit

open Checked
open Spidir (Builder Inst Value ValueType FuncRef)
open Wasm (WasmModule FuncType Name)
open Relation (ReflTransGen)

/-- `spidir_module_create_extern_global`. -/
def createExternGlobal : Checked JitContext ℕ := do
  let id ← read fun c : JitContext => c.spidir.externGlobals
  update fun c => { c with spidir := { c.spidir with externGlobals := id + 1 } }
  return id

/-- `jit_prepare_table`. -/
def jitPrepareTable (id : ℕ) : Checked JitContext Unit := do
  let table ← lift (← read JitContext.module).tables[id]?
  let global ← createExternGlobal
  update fun c => { c with tables := c.tables.modify id fun t => { t with global, length := table.min } }

/-- `wasm_get_func`, as the index of the type, which is its id in `jit_cfi_get_type_id`. -/
def funcTypeIndex (m : WasmModule) (funcidx : ℕ) : Option ℕ :=
  if funcidx < m.imports.length then m.imports[funcidx]?.map (·.index) else m.functions[funcidx - m.imports.length]?

/-- References to `n` parameters, from the `i`-th on. -/
def buildParams : (i n : ℕ) → Emit (List Value)
  | _, 0 => return []
  | i, n + 1 => do
    let value ← build (.param i)
    let rest ← buildParams (i + 1) n
    return value :: rest

/-- `jit_build_cfi_thunk`. -/
def jitBuildCfiThunk (typeId argCount : ℕ) (callee : FuncRef) : Emit Unit := do
  let entry ← createBlock
  let cfiFailed ← createBlock
  let cfiSuccess ← createBlock
  update fun s => s.withBuilder (s.builder.setEntryBlock entry)
  setBlock entry
  let expectedTypeId ← build (.iconst .i64 (BitVec.ofNat 64 typeId))
  let gotTypeId ← build (.param 2)
  let same ← build (.icmp .eq .i32 expectedTypeId gotTypeId)
  terminate (.brcond same cfiSuccess cfiFailed)
  setBlock cfiFailed
  jitEmitTrap
  setBlock cfiSuccess
  let memBase ← build (.param 0)
  let stateBase ← build (.param 1)
  let args ← buildParams 3 argCount
  let res ← build (.call callee (memBase :: stateBase :: args))
  terminate (.ret res)

/-- `spidir_module_build_function` with a finished graph. -/
def setBody (id : ℕ) (body : Builder) : Checked JitContext Unit :=
  update fun c => { c with spidir := { c.spidir with bodies := Function.update c.spidir.bodies id (some body) } }

/-- Run an emission on a graph of its own. -/
def buildGraph (params : List ValueType) (m : Emit Unit) : Checked JitContext Builder := fun c =>
  (m { ctx := c, builder := { params } }).map fun r => (r.2.builder, r.2.ctx)

/-- `jit_create_cfi_thunk`, with the id of the function it builds. -/
def jitCreateCfiThunk (funcidx : ℕ) : Checked JitContext ℕ := do
  let m ← read JitContext.module
  let type ← lift (m.getFunc funcidx)
  let typeId ← lift (funcTypeIndex m funcidx)
  let retType ← lift (jitRetType type)
  let args ← lift (jitArgTypes type)
  let params := ValueType.ptr :: .ptr :: .i64 :: args
  let thunk ← createFunction retType params
  let func ← lift (← read JitContext.functions)[funcidx]?
  update fun c => { c with
    functions := c.functions.modify funcidx fun f => { f with hasCfi := true, cfiThunk := thunk.id } }
  let body ← buildGraph params (jitBuildCfiThunk typeId type.argTypes.length func.spidir)
  setBody thunk.id body
  return thunk.id

/-- The loops of `jit_emit_spidir` over the functions of the element segments. -/
def emitElems : List ℕ → Checked JitContext (List ℕ)
  | [] => return []
  | funcidx :: rest => do
    jitPrepareFunction funcidx
    let thunk ← jitCreateCfiThunk funcidx
    let thunks ← emitElems rest
    return thunk :: thunks

/-- The loop that empties the queue. -/
def emitQueue : (fuel : ℕ) → Checked JitContext (List ℕ)
  | 0 => fail
  | fuel + 1 => do
    match ← read JitContext.queue with
    | [] => return []
    | funcidx :: queue => do
      update fun c => { c with queue }
      let function ← lift (← read JitContext.functions)[funcidx]?
      jitFunction funcidx
      let built ← emitQueue fuel
      return function.spidir.id :: built

/-- `jit_emit_spidir`, with the ids of the functions whose bodies it builds, in order. -/
def jitEmitSpidir (fuel : ℕ) : Checked JitContext (List ℕ) := do
  let m ← read JitContext.module
  m.exports.forM fun e => do
    if e.kind = .func then jitPrepareFunction e.index
  forFrom jitPrepareTable 0 m.tables.length
  let thunks ← emitElems (m.elems.flatMap (·.funcs))
  if 0 ≤ m.startFunc then jitPrepareFunction m.startFunc.toNat
  let functions ← emitQueue fuel
  return thunks ++ functions

/-- The context that `wasm_module_jit` starts with. -/
def startContext (m : WasmModule) (resolveImport : Option Name → Option Name → FuncType → Option ℕ) : JitContext :=
  { module := m, functions := List.replicate m.totalFuncs {}, tables := List.replicate m.tables.length {}, resolveImport }

end SpidirWasm.Jit
