import SpidirWasm.Jit.Context
import SpidirWasm.Logic.Layout
import SpidirWasm.Util.Hmap

/-! Code generation, up to the layout of the binary. Spidir emits one function at a time;
what it emits names the functions it calls, and those are queued. The offsets in the code
and in the constants are given out in the order of emission. -/

namespace SpidirWasm.Jit

open Checked
open Util (Hmap)
open Wasm (WasmModule)

/-- `spidir_reloc_kind_t`, for x86-64. -/
inductive RelocKind where
  | pc32 | abs64
  deriving DecidableEq, Repr, Inhabited

/-- `spidir_reloc_target_kind_t` with the target. -/
inductive RelocTarget where
  | constpool
  | global (id : ℕ)
  | internal (id : ℕ)
  | external (id : ℕ)
  | libcall (kind : ℕ)
  deriving DecidableEq, Repr, Inhabited

/-- `spidir_codegen_reloc_t`. -/
structure Reloc where
  offset : ℕ := 0
  addend : ℤ := 0
  kind : RelocKind := .pc32
  target : RelocTarget := .constpool
  deriving DecidableEq, Repr, Inhabited

/-- `spidir_codegen_blob_handle_t`: what spidir emits for a function. -/
structure Blob where
  code : List UInt8 := []
  constpool : List UInt8 := []
  constpoolAlign : ℕ := 1
  relocs : List Reloc := []
  deriving DecidableEq, Repr, Inhabited

/-- `spidir_codegen_emit_function` for the functions of the module, by their ids. -/
abbrev Emitter := ℕ → Option Blob

/-- `function_codegen_t`. -/
structure FunctionCodegen where
  blob : Blob := {}
  function : ℕ := 0
  codeOffset : ℕ := 0
  constpoolOffset : ℕ := 0
  deriving DecidableEq, Repr, Inhabited

/-- `codegen_ctx_t` apart from what is captured for debugging; the queue is listed from
its end. -/
structure Codegen where
  queue : List ℕ := []
  functions : List FunctionCodegen := []
  funcToIdx : Hmap := {}
  globalOffsets : Hmap := {}
  imports : Hmap := {}
  codeSize : ℕ := 0
  rodataSize : ℕ := 0
  deriving DecidableEq, Repr, Inhabited

/-- A `size_t`. -/
def sizeT (n : ℕ) : ℕ := n % 2 ^ 64

/-- A `uint32_t`. -/
def uint32 (n : ℕ) : ℕ := n % 2 ^ 32

/-- `jit_codegen_visited_function`. -/
def jitCodegenVisitedFunction (cg : Codegen) (function : ℕ) : Bool := (cg.funcToIdx.lookup function).isSome

/-- Where a function's code starts, and the code size behind it. -/
def placeCode (codeSize : ℕ) (blob : Blob) : ℕ × ℕ :=
  let codeSize := sizeT (sizeT (alignUp codeSize 16) + 16)
  (codeSize, sizeT (codeSize + blob.code.length))

/-- Where a function's constants start, and the size of the constants behind them. -/
def placePool (rodataSize : ℕ) (blob : Blob) : ℕ × ℕ :=
  let rodataSize := sizeT (rodataSize + alignUp rodataSize blob.constpoolAlign)
  (rodataSize, sizeT (rodataSize + blob.constpool.length))

/-- What `jit_codegen_function` adds for a blob it got from spidir. -/
def Codegen.place (cg : Codegen) (function : ℕ) (blob : Blob) : Codegen :=
  let (codeOffset, codeSize) := placeCode cg.codeSize blob
  if blob.constpool.length ≠ 0 then
    let (constpoolOffset, rodataSize) := placePool cg.rodataSize blob
    { cg with
      functions := cg.functions ++ [⟨blob, function, uint32 codeOffset, uint32 constpoolOffset⟩]
      codeSize, rodataSize }
  else
    { cg with
      functions := cg.functions ++ [⟨blob, function, uint32 codeOffset, 2 ^ 32 - 1⟩]
      codeSize }

/-- The functions that a blob's relocations queue. -/
def queueTargets (relocs : List Reloc) (cg : Codegen) : Codegen :=
  relocs.foldl (fun cg reloc =>
    match reloc.target with
    | .internal id => if jitCodegenVisitedFunction cg id then cg else { cg with queue := id :: cg.queue }
    | _ => cg) cg

/-- `jit_codegen_function`. -/
def jitCodegenFunction (emitter : Emitter) (function : ℕ) : Checked Codegen Unit := do
  if jitCodegenVisitedFunction (← get) function then return
  let funcToIdx ← lift ((← read Codegen.funcToIdx).insert true function (← read (·.functions.length)))
  let blob ← lift (emitter function)
  update fun cg => queueTargets blob.relocs ({ cg with funcToIdx }.place function blob)

/-- `jit_try_codegen_function`. -/
def jitTryCodegenFunction (emitter : Emitter) (ctx : JitContext) (funcidx : ℕ) : Checked Codegen Unit := do
  let func ← lift ctx.functions[funcidx]?
  check (func.inited = true)
  if func.spidir.external = false then jitCodegenFunction emitter func.spidir.id
  if func.hasCfi then jitCodegenFunction emitter func.cfiThunk

/-- The loop of `jit_codegen_functions` over the imports, from the `i`-th on. -/
def codegenImports (ctx : JitContext) : ℕ → List Wasm.WasmImport → Checked Codegen Unit
  | _, [] => return
  | i, item :: imports => do
    if item.kind = .func then
      let func ← lift ctx.functions[i]?
      check (func.inited = true)
      check (func.spidir.external = true)
      let map ← lift ((← read Codegen.imports).insert true func.spidir.id func.address)
      update fun cg => { cg with imports := map }
    codegenImports ctx (i + 1) imports

/-- The loop that empties the queue. -/
def codegenQueue (emitter : Emitter) : (fuel : ℕ) → Checked Codegen Unit
  | 0 => fail
  | fuel + 1 => do
    match ← read Codegen.queue with
    | [] => return
    | function :: queue => do
      update fun cg => { cg with queue }
      jitCodegenFunction emitter function
      codegenQueue emitter fuel

/-- `jit_codegen_functions`. -/
def jitCodegenFunctions (emitter : Emitter) (ctx : JitContext) (fuel : ℕ) : Checked Codegen Unit := do
  ctx.module.exports.forM fun e => do
    if e.kind = .func then jitTryCodegenFunction emitter ctx e.index
  codegenImports ctx 0 ctx.module.imports
  ctx.module.elems.forM fun elem => elem.funcs.forM fun funcidx => jitTryCodegenFunction emitter ctx funcidx
  if 0 ≤ ctx.module.startFunc then jitTryCodegenFunction emitter ctx ctx.module.startFunc.toNat
  codegenQueue emitter fuel

/-- One table of `jit_codegen_tables`. -/
def codegenTable (table : JitTable) : Checked Codegen Unit := do
  if table.used then
    let offset ← read fun cg : Codegen => sizeT (alignUp cg.rodataSize 8)
    update fun cg => { cg with rodataSize := sizeT (offset + 8 * table.length) }
    let map ← lift ((← read Codegen.globalOffsets).insert true table.global offset)
    update fun cg => { cg with globalOffsets := map }

/-- `jit_codegen_tables`. -/
def jitCodegenTables (ctx : JitContext) : Checked Codegen Unit :=
  forFrom (fun i => do codegenTable (← lift ctx.tables[i]?)) 0 ctx.module.tables.length

/-! ### One function -/

variable {emitter : Emitter} {cg cg' : Codegen} {function : ℕ} {blob : Blob}

/-- Queueing changes nothing but the queue. -/
theorem queueTargets_eq (relocs : List Reloc) (cg : Codegen) : ∃ queue, queueTargets relocs cg = { cg with queue } := by
  induction relocs generalizing cg with
  | nil => exact ⟨cg.queue, rfl⟩
  | cons reloc relocs ih =>
    have rest (queue : List ℕ) : ∃ queue', queueTargets relocs { cg with queue } = { cg with queue := queue' } := ih { cg with queue }
    have unfold : queueTargets (reloc :: relocs) cg = queueTargets relocs (match reloc.target with
      | .internal id => if jitCodegenVisitedFunction cg id then cg else { cg with queue := id :: cg.queue }
      | _ => cg) := rfl
    rw [unfold]
    cases reloc.target with
    | internal id =>
      simp only
      split_ifs
      · exact rest cg.queue
      · exact rest (id :: cg.queue)
    | _ => exact rest cg.queue

/-- A function that was not emitted before gets the next index and the next offsets. -/
theorem jitCodegenFunction_eq_some : jitCodegenFunction emitter function cg = some ((), cg') ↔
    jitCodegenVisitedFunction cg function = true ∧ cg' = cg ∨
    jitCodegenVisitedFunction cg function = false ∧ ∃ funcToIdx blob,
      cg.funcToIdx.insert true function cg.functions.length = some funcToIdx ∧ emitter function = some blob ∧
      cg' = queueTargets blob.relocs ({ cg with funcToIdx }.place function blob) := by
  rw [jitCodegenFunction, get_bind]
  cases hv : jitCodegenVisitedFunction cg function with
  | true =>
    rw [if_pos rfl, pure_eq_some]
    simp
  | false =>
    rw [if_neg Bool.false_ne_true, read_bind, read_bind]
    simp only [lift_bind_eq_some, update_eq_some, Prod.mk.injEq, true_and, Bool.false_eq_true, false_and, false_or]
    exact exists_congr fun funcToIdx => exists_and_left.symm

end SpidirWasm.Jit
