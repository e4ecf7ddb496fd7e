import SpidirWasm.Jit.Control

/-! The translation of one function body, from its parameters and locals to its last
`end`. The fuel of the opcode loop is the length of the code, of which every opcode
reads at least one byte. -/

namespace SpidirWasm.Jit

open Checked
open Spidir (Builder Inst ValueType)
open Wasm (WasmModule FuncType)

/-- Add a local holding the value of `i`. -/
def addLocal (type : ValueType) (i : Inst) : Emit Unit := do
  let value ← build i
  update fun s => s.withLocals (s.func.locals ++ [⟨value, type⟩])

/-- The wasm parameters; the hidden ones are 0 and 1. -/
def addParams : ℕ → List Wasm.ValueType → Emit Unit
  | _, [] => return
  | i, argType :: rest => do
    addLocal (← lift (jitGetSpidirValueType argType)) (.param (i + 2))
    addParams (i + 1) rest

/-- The zero a declared local starts with. -/
def localConst : ValueType → Inst
  | .f32 => .fconst32 0
  | .f64 => .fconst64 0
  | type => .iconst type 0

/-- One entry of the locals declaration: a count and a type. -/
def addLocalGroup : Handler Unit := do
  let count ← pull bufferPullU32
  let valType ← pull bufferPullValType
  emit do
    let type ← lift (jitGetSpidirValueType valType)
    forFrom (fun _ => addLocal type (localConst type)) 0 count

/-- The entry block and the label of the function body. -/
def enterBody : Emit Unit := do
  let block ← createBlock
  update fun s => s.withBuilder (s.builder.setEntryBlock block)
  setBlock block
  pushLabel {}

/-- `jit_build_function` before its first opcode. -/
def jitEnterFunction (type : FuncType) : Handler Unit := do
  emit do
    addParams 0 type.argTypes
    let retType ← lift (jitRetType type)
    update fun s => { s with func := { s.func with retType } }
  let localsCount ← pull bufferPullU32
  forFrom (fun _ => addLocalGroup) 0 localsCount
  emit enterBody

/-- The opcode loop. -/
def jitOpcodes : (fuel : ℕ) → Handler Unit
  | 0 => return
  | fuel + 1 => do
    if (← read (·.code.data)) ≠ [] then
      check ((← read (·.func.labels)) ≠ [])
      jitWasmOpcode
      jitOpcodes fuel

/-- The type and the code of an internal function. -/
def internalFunction (m : WasmModule) (funcidx : ℕ) : Option (FuncType × List UInt8) := do
  guard (m.imports.length ≤ funcidx)
  let typeidx ← m.functions[funcidx - m.imports.length]?
  let type ← m.types[typeidx]?
  let code ← (← m.code)[funcidx - m.imports.length]?
  return (type, code)

/-- The state in which a function's translation starts. -/
def functionState (ctx : JitContext) (params : List ValueType) (code : List UInt8) : JitState :=
  { code := ⟨0, code⟩, ctx, builder := { params } }

/-- `jit_build_function` on a builder for a function with the given parameters. -/
def jitBuildFunction (params : List ValueType) (funcidx : ℕ) : Checked JitContext Builder := fun ctx => do
  let (type, code) ← internalFunction ctx.module funcidx
  let (_, s) ← jitEnterFunction type (functionState ctx params code)
  let (_, s) ← jitOpcodes s.code.data.length s
  guard (s.code.data = [] ∧ s.func.labels = [])
  return (s.builder, s.ctx)

/-- `jit_function`. -/
def jitFunction (funcidx : ℕ) : Checked JitContext Unit := do
  let function ← lift (← read JitContext.functions)[funcidx]?
  check (function.inited = true)
  check (function.spidir.external = false)
  let body ← jitBuildFunction function.spidir.args funcidx
  update fun c => { c with spidir := { c.spidir with
    bodies := Function.update c.spidir.bodies function.spidir.id (some body) } }

end SpidirWasm.Jit
