import SpidirWasm.Jit.Codegen
import SpidirWasm.Jit.EmitSpidir

/-! The linker. What spidir emitted is copied into the binary and relocated in one pass; a
function that is the target of an indirect jump gets an `endbr64` in front of it as soon as
its address is taken, here and when exports, the start function and the tables are filled in.
With debug capture on, the pass records what it did. -/

namespace SpidirWasm.Jit

open Checked
open Util (Hmap)
open Spidir (Word)
open Wasm (WasmModule FuncType Name)

/-- The host and the C runtime: the size of a page, the address of a binary of so many pages
and whether its protection can be set, and the addresses of helpers and libcalls. -/
structure JitHost where
  pageSize : ℕ
  jitAlloc : (rxPageCount roPageCount : ℕ) → Option ℕ
  jitLock : (binary rxPageCount roPageCount : ℕ) → Bool
  helperAddress : HelperKind → ℕ
  resolveLibcall : ℕ → Option ℕ

/-- `spidir_reloc_target_kind_t`. -/
inductive RelocTargetKind where
  | constpool | global | internal | external | libcall
  deriving DecidableEq, Repr, Inhabited

def RelocTarget.kind : RelocTarget → RelocTargetKind
  | .constpool => .constpool
  | .global _ => .global
  | .internal _ => .internal
  | .external _ => .external
  | .libcall _ => .libcall

/-! ### Debug info -/

/-- `wasm_jit_func_layout_t`. -/
structure FuncLayout where
  funcidx : ℕ
  cfiThunk : Bool
  address : ℕ
  codeSize : ℕ
  constAddress : Option ℕ
  constSize : ℕ
  deriving DecidableEq, Repr, Inhabited

/-- `wasm_jit_reloc_t`. -/
structure JitReloc where
  address : ℕ
  addend : ℤ
  kind : RelocKind
  targetKind : RelocTargetKind
  targetFuncidx : ℕ
  targetCfi : Bool
  targetLibcall : ℕ
  targetAddress : ℕ
  ownerFuncidx : ℕ
  ownerCfi : Bool
  deriving DecidableEq, Repr, Inhabited

/-- `wasm_jit_debug_info_t`. -/
structure DebugInfo where
  funcs : List FuncLayout := []
  relocs : List JitReloc := []
  codeBase : ℕ := 0
  codeSize : ℕ := 0
  rodataBase : ℕ := 0
  rodataSize : ℕ := 0
  deriving DecidableEq, Repr, Inhabited

/-- The maps from spidir's ids back to function indices: for functions, for thunks and for
external functions. -/
structure DebugMaps where
  funcToFuncidx : Hmap := {}
  cfiToFuncidx : Hmap := {}
  externToFuncidx : Hmap := {}
  deriving DecidableEq, Repr, Inhabited

/-- One function of `jit_codegen_prepare_debug_maps`. -/
def prepareDebugMap (maps : DebugMaps) (i : ℕ) (func : JitFunction) : Option DebugMaps :=
  if !func.inited then some maps
  else do
    let maps ← if func.spidir.external then
        (maps.externToFuncidx.insert true func.spidir.id i).map fun externToFuncidx => { maps with externToFuncidx }
      else (maps.funcToFuncidx.insert true func.spidir.id i).map fun funcToFuncidx => { maps with funcToFuncidx }
    if func.hasCfi then (maps.cfiToFuncidx.insert true func.cfiThunk i).map fun cfiToFuncidx => { maps with cfiToFuncidx }
    else some maps

/-- The loop of `jit_codegen_prepare_debug_maps`, from the `i`-th function on. -/
def prepareDebugMaps (maps : DebugMaps) : ℕ → List JitFunction → Option DebugMaps
  | _, [] => some maps
  | i, func :: rest => (prepareDebugMap maps i func).bind fun maps => prepareDebugMaps maps (i + 1) rest

/-- `jit_codegen_prepare_debug_maps`. -/
def jitCodegenPrepareDebugMaps (ctx : JitContext) : Option DebugMaps := prepareDebugMaps {} 0 ctx.functions

/-- The maps are prepared for the capture alone. -/
def captureMaps (captureDebug : Bool) (ctx : JitContext) : Option DebugMaps :=
  if captureDebug then jitCodegenPrepareDebugMaps ctx else some {}

/-! ### Addresses -/

/-- What the linker reads: the sizes in `codegen` are those of whole pages. -/
structure Linker where
  host : JitHost
  ctx : JitContext
  codegen : Codegen
  binary : ℕ
  captureDebug : Bool
  maps : DebugMaps

/-- What the linker writes: the binary, and the records of the capture. -/
structure Linked where
  image : Memory UInt8
  funcs : List FuncLayout := []
  relocs : List JitReloc := []

/-- Where the constants start. -/
def Linker.rodata (l : Linker) : ℕ := l.binary + l.codegen.codeSize

/-- Bytes are stored at an address; outside of the binary that is a fault. -/
def poke (l : Linker) (address : ℕ) (bytes : List UInt8) : Checked Linked Unit := do
  check (l.binary ≤ sizeT address ∧ sizeT address + bytes.length ≤ l.rodata + l.codegen.rodataSize)
  update fun s => { s with image := s.image.write (sizeT address) bytes }

def endbr64 : List UInt8 := [0xF3, 0x0F, 0x1E, 0xFA]

/-- `jit_get_indirect`. -/
def jitGetIndirect (l : Linker) (func : ℕ) : Checked Linked ℕ := do
  poke l (func - 4) endbr64
  return func - 4

/-- `jit_get_internal_function_addr`. -/
def jitGetInternalFunctionAddr (l : Linker) (function : ℕ) : Checked Linked ℕ := do
  let index ← lift (l.codegen.funcToIdx.lookup function)
  let func ← lift l.codegen.functions[index]?
  jitGetIndirect l (l.binary + func.codeOffset)

/-- `jit_get_function_addr`. -/
def jitGetFunctionAddr (l : Linker) (funcidx : ℕ) : Checked Linked ℕ := do
  let func ← lift l.ctx.functions[funcidx]?
  check (func.inited = true)
  if func.spidir.external then return func.address
  else jitGetInternalFunctionAddr l func.spidir.id

/-! ### Relocations -/

/-- The helpers in the order of their table. -/
def HelperKind.all : List HelperKind :=
  let floats := [false, true]
  let widths : List AtomicWidth := [.w1, .w2, .w4, .w8]
  let floatOps (is64 : Bool) : List HelperKind :=
    [FloatUnary.abs, .neg, .ceil, .floor, .trunc, .nearest, .sqrt].map (HelperKind.fUnary is64) ++
      [FloatBinary.min, .max, .copysign].map (HelperKind.fBinary is64)
  [.memorySize, .memoryGrow, .memoryCopy, .memoryFill, .memoryInit] ++ floats.flatMap floatOps ++
    floats.flatMap (fun out64 => floats.flatMap fun in64 => floats.map (HelperKind.truncSat out64 in64)) ++
    [.trap, .atomicNotify, .atomicWait4, .atomicWait8, .atomicFence] ++
    widths.map HelperKind.atomicLoad ++ widths.map HelperKind.atomicStore ++
    [RmwOp.add, .sub, .and, .or, .xor, .xchg, .cmpxchg].flatMap fun op => widths.map (HelperKind.atomicRmw op)

/-- `jit_helper_lookup_address`. -/
def jitHelperLookupAddress (host : JitHost) (ctx : JitContext) (externalId : ℕ) : Option ℕ :=
  (HelperKind.all.find? fun kind => (ctx.helpers kind).any fun func => func.id = externalId).map host.helperAddress

/-- `jit_apply_reloc`; the offset is far below the size of the type it has in spidir. -/
def jitApplyReloc (l : Linker) (code codeSize : ℕ) (reloc : Reloc) (target : ℕ) : Checked Linked Unit :=
  match reloc.kind with
  | .pc32 => do
    check (reloc.offset + 4 ≤ codeSize)
    let value := (target + reloc.addend - (code + reloc.offset : ℕ) : ℤ).bmod (2 ^ 64)
    check (-2 ^ 31 ≤ value ∧ value ≤ 2 ^ 31 - 1)
    poke l (code + reloc.offset) (Word.toBytes 4 (BitVec.ofInt 64 value))
  | .abs64 => do
    check (reloc.offset + 8 ≤ codeSize)
    poke l (code + reloc.offset) (Word.toBytes 8 (BitVec.ofInt 64 (target + reloc.addend)))

/-- The address that a relocation refers to. -/
def relocTarget (l : Linker) (func : FunctionCodegen) (reloc : Reloc) : Checked Linked ℕ :=
  match reloc.target with
  | .constpool => return l.rodata + func.constpoolOffset
  | .global id => do
    let rodataOffset ← lift (l.codegen.globalOffsets.lookup id)
    return sizeT (l.rodata + rodataOffset)
  | .internal id => do
    let index ← lift (l.codegen.funcToIdx.lookup id)
    let callee ← lift l.codegen.functions[index]?
    if reloc.kind = .abs64 then jitGetIndirect l (l.binary + callee.codeOffset) else return l.binary + callee.codeOffset
  | .external id =>
    match jitHelperLookupAddress l.host l.ctx id with
    | some address => return address
    | none => lift (l.codegen.imports.lookup id)
  | .libcall kind => lift (l.host.resolveLibcall kind)

/-- The function that an internal id stands for, and whether it is its thunk. -/
def debugFunction (l : Linker) (id : ℕ) : Checked Linked (ℕ × Bool) :=
  match l.maps.funcToFuncidx.lookup id with
  | some funcidx => return (funcidx, false)
  | none => do return (← lift (l.maps.cfiToFuncidx.lookup id), true)

/-- What is recorded of a target when it is nothing in wasm. -/
def noTarget : ℕ × Bool × ℕ := (2 ^ 32 - 1, false, 0)

/-- What is recorded of a target: the function, whether it is its thunk, and the libcall. -/
def debugTarget (l : Linker) (reloc : Reloc) : Checked Linked (ℕ × Bool × ℕ) :=
  match reloc.target with
  | .internal id => do
    let (funcidx, cfi) ← debugFunction l id
    return (uint32 funcidx, cfi, 0)
  | .external id => return (((l.maps.externToFuncidx.lookup id).map uint32).getD (2 ^ 32 - 1), false, 0)
  | .libcall kind => return (2 ^ 32 - 1, false, kind)
  | _ => return noTarget

/-- What is done for the capture alone. -/
def Linker.captured (l : Linker) {α : Type} (m : Checked Linked α) (otherwise : α) : Checked Linked α :=
  if l.captureDebug then m else pure otherwise

/-- A relocation is recorded. -/
def recordReloc (l : Linker) (func : FunctionCodegen) (owner : ℕ × Bool) (reloc : Reloc) (target : ℕ) (debug : ℕ × Bool × ℕ) :
    Checked Linked Unit :=
  update fun s => { s with relocs := s.relocs ++ [{
    address := l.binary + func.codeOffset + reloc.offset
    addend := reloc.addend
    kind := reloc.kind
    targetKind := reloc.target.kind
    targetFuncidx := debug.1
    targetCfi := debug.2.1
    targetLibcall := debug.2.2
    targetAddress := target
    ownerFuncidx := uint32 owner.1
    ownerCfi := owner.2 }] }

/-- One relocation of `jit_codegen_link`. -/
def linkReloc (l : Linker) (func : FunctionCodegen) (owner : ℕ × Bool) (reloc : Reloc) : Checked Linked Unit := do
  let target ← relocTarget l func reloc
  let debug ← l.captured (debugTarget l reloc) noTarget
  jitApplyReloc l (l.binary + func.codeOffset) func.blob.code.length reloc target
  l.captured (recordReloc l func owner reloc target debug) ()

/-- The owner of a function's code, whose layout is recorded. -/
def recordLayout (l : Linker) (func : FunctionCodegen) : Checked Linked (ℕ × Bool) := do
  let owner ← debugFunction l func.function
  update fun s => { s with funcs := s.funcs ++ [{
    funcidx := uint32 owner.1
    cfiThunk := owner.2
    address := l.binary + func.codeOffset
    codeSize := func.blob.code.length
    constAddress := if func.blob.constpool.length ≠ 0 then some (l.rodata + func.constpoolOffset) else none
    constSize := func.blob.constpool.length }] }
  return owner

/-- A copy of bytes, if there are any. -/
def copyBytes (l : Linker) (address : ℕ) (bytes : List UInt8) : Checked Linked Unit :=
  if bytes.length ≠ 0 then poke l address bytes else pure ()

/-- One function of `jit_codegen_link`. -/
def linkFunction (l : Linker) (func : FunctionCodegen) : Checked Linked Unit := do
  copyBytes l (l.binary + func.codeOffset) func.blob.code
  copyBytes l (l.rodata + func.constpoolOffset) func.blob.constpool
  let owner ← l.captured (recordLayout l func) (2 ^ 64 - 1, false)
  func.blob.relocs.forM (linkReloc l func owner)

/-- `jit_codegen_link`. -/
def jitCodegenLink (l : Linker) : Checked Linked Unit := l.codegen.functions.forM (linkFunction l)

/-! ### Exports, start function and tables -/

/-- `wasm_jit_export_t`; nothing is filled in for a memory. -/
inductive JitExport where
  | func (address : ℕ)
  | global (offset : Option ℕ)
  | memory
  deriving DecidableEq, Repr, Inhabited

/-- One export of `jit_codegen_fill_functions`. -/
def fillExport (l : Linker) (e : Wasm.WasmExport) : Checked Linked JitExport :=
  match e.kind with
  | .func => do return .func (← jitGetFunctionAddr l e.index)
  | .global => do return .global (← lift l.ctx.globals[e.index]?).offset
  | .memory => return .memory
  | _ => fail

def fillExports (l : Linker) : List Wasm.WasmExport → Checked Linked (List JitExport)
  | [] => return []
  | e :: rest => do
    let first ← fillExport l e
    let others ← fillExports l rest
    return first :: others

/-- `jit_codegen_fill_functions`. -/
def jitCodegenFillFunctions (l : Linker) : Checked Linked (List JitExport × Option ℕ) := do
  let exports ← fillExports l l.ctx.module.exports
  if 0 ≤ l.ctx.module.startFunc then do
    let entry ← jitGetFunctionAddr l l.ctx.module.startFunc.toNat
    return (exports, some entry)
  else return (exports, none)

/-- The entries of a segment, from slot `i` of the table at `slots` on. -/
def fillSlots (l : Linker) (slots : ℕ) : ℕ → List ℕ → Checked Linked Unit
  | _, [] => return
  | i, funcidx :: rest => do
    let function ← lift l.ctx.functions[funcidx]?
    check (function.hasCfi = true)
    let address ← jitGetInternalFunctionAddr l function.cfiThunk
    poke l (slots + 8 * i) (Word.toBytes 8 (BitVec.ofNat 64 address))
    fillSlots l slots (i + 1) rest

/-- One segment of `jit_codegen_fill_tables`. -/
def fillElem (l : Linker) (elem : Wasm.ElemSegment) : Checked Linked Unit := do
  check (elem.tableidx < l.ctx.module.tables.length)
  let table ← lift l.ctx.tables[elem.tableidx]?
  if table.used then
    let rodataOffset ← lift (l.codegen.globalOffsets.lookup table.global)
    check (elem.offset + elem.funcs.length < 2 ^ 64)
    check (elem.offset + elem.funcs.length ≤ table.length)
    fillSlots l (l.rodata + rodataOffset) elem.offset elem.funcs

/-- `jit_codegen_fill_tables`. -/
def jitCodegenFillTables (l : Linker) : Checked Linked Unit := l.ctx.module.elems.forM (fillElem l)

/-! ### The binary -/

/-- What `jit_codegen` fills of a `wasm_module_jit_t`, with the contents of the binary. -/
structure WasmModuleJit where
  binary : ℕ
  rxPageCount : ℕ
  roPageCount : ℕ
  image : Memory UInt8
  exports : List JitExport
  startFunc : Option ℕ
  debug : DebugInfo := {}

/-- The code region of a fresh binary, and its constants. -/
def freshImage (binary codeSize rodataSize : ℕ) : Memory UInt8 :=
  Memory.map (binary + codeSize) rodataSize 0 (Memory.map binary codeSize 0xCC fun _ => none)

/-- The code generation of `jit_codegen` up to the allocation of the binary. -/
def codegenAll (emitter : Emitter) (ctx : JitContext) (fuel : ℕ) : Checked Codegen Unit := do
  jitCodegenFunctions emitter ctx fuel
  jitCodegenTables ctx

/-- The sizes in whole pages. -/
def Codegen.pages (cg : Codegen) (pageSize : ℕ) : Codegen :=
  { cg with codeSize := sizeT (alignUp cg.codeSize pageSize), rodataSize := sizeT (alignUp cg.rodataSize pageSize) }

/-- `jit_codegen`. -/
def jitCodegen (host : JitHost) (emitter : Emitter) (captureDebug : Bool) (fuel : ℕ) (ctx : JitContext) : Option WasmModuleJit := do
  let maps ← captureMaps captureDebug ctx
  let (_, cg) ← codegenAll emitter ctx fuel {}
  let codegen := cg.pages host.pageSize
  let rxPageCount := codegen.codeSize / host.pageSize
  let roPageCount := codegen.rodataSize / host.pageSize
  let binary ← host.jitAlloc rxPageCount roPageCount
  let l : Linker := { host, ctx, codegen, binary, captureDebug, maps }
  let (_, s) ← jitCodegenLink l { image := freshImage binary codegen.codeSize codegen.rodataSize }
  let debug : DebugInfo := if captureDebug then
      { funcs := s.funcs, relocs := s.relocs, codeBase := binary, codeSize := cg.codeSize, rodataBase := l.rodata, rodataSize := cg.rodataSize }
    else {}
  let ((exports, startFunc), s) ← jitCodegenFillFunctions l s
  let (_, s) ← jitCodegenFillTables l s
  guard (host.jitLock binary rxPageCount roPageCount)
  return { binary, rxPageCount, roPageCount, image := s.image, exports, startFunc, debug }

end SpidirWasm.Jit
