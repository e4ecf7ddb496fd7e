import SpidirWasm.Buffer
import SpidirWasm.Logic.Keeping

/-! The module loader of `module.c`, section by section. A section parser writes
into the module as it goes and the writes of a failing parser stay visible: the
loader's cleanup frees that half-built module. The section parsers count their
entries with an `int`, which overflows behind `2 ^ 31 - 1` entries. -/

namespace SpidirWasm.Wasm

open Keeping

/-- What a section parser works on: the module and the rest of its contents. -/
structure LoadState where
  module : WasmModule := {}
  buffer : Buffer := {}

abbrev Load (α : Type) := Keeping LoadState α

namespace Load

/-- A reader of `buffer.c` on the section's contents. -/
def pull {α : Type} (m : Pull α) : Load α := do
  let (a, buffer) ← lift (m (← read LoadState.buffer))
  update fun s => { s with buffer }
  return a

def module : Load WasmModule := read LoadState.module

def modify (f : WasmModule → WasmModule) : Load Unit :=
  update fun s => { s with module := f s.module }

/-- `buffer->len`. -/
def len : Load ℕ := read fun s => s.buffer.data.length

/-- `CHECK(buffer->len == 0)`. -/
def atEnd : Load Unit := do
  let n ← len
  check (n = 0)

end Load

open Load

/-- `module->functions_count + module->imports_count`, a `uint32_t` sum. -/
def WasmModule.totalFuncs32 (m : WasmModule) : ℕ := m.totalFuncs % 2 ^ 32

def modulePullMagicVersion : Pull Unit := do
  let magic ← bufferPull 8
  Checked.check (magic = [0x00, 0x61, 0x73, 0x6D, 0x01, 0x00, 0x00, 0x00])

/-- `n` value types. -/
def pullValTypes (n : ℕ) : Load (List ValueType) := collectInt (pull bufferPullValType) 0 n

def wasmPullResultType : Load (List ValueType) := do
  let count ← pull bufferPullU32
  check (count ≤ (← len))
  pullValTypes count

def wasmParseTypeSection : Load Unit := do
  let count ← pull bufferPullU32
  check (count < (← len))
  modify fun m => { m with types := List.replicate count {} }
  forInt (fun i => do
    let type ← pull bufferPullU8
    check (type = 0x60)
    let args ← wasmPullResultType
    modify fun m => { m with types := m.types.modify i fun t => { t with argTypes := args } }
    let results ← wasmPullResultType
    modify fun m => { m with types := m.types.modify i fun t => { t with resultTypes := results } }) 0 count
  atEnd

/-- A nonempty name, as imports and exports require. -/
def pullItemName : Load Name := do
  let name ← pull bufferPullName
  check (0 < name.length)
  return name

def wasmParseImportSection : Load Unit := do
  let count ← pull bufferPullU32
  check (count ≤ (← len))
  modify fun m => { m with imports := List.replicate count {} }
  forInt (fun i => do
    let moduleName ← pullItemName
    let itemName ← pullItemName
    let byte ← pull bufferPullU8
    let index ← pull bufferPullU32
    check (byte = 0x00)
    check (index < (← module).types.length)
    let item : WasmImport := { moduleName := some moduleName, itemName := some itemName, index }
    modify fun m => { m with imports := m.imports.set i item }) 0 count
  atEnd

def wasmParseFunctionSection : Load Unit := do
  let count ← pull bufferPullU32
  check (count ≤ (← len))
  modify fun m => { m with functions := List.replicate count 0 }
  forInt (fun i => do
    let typeidx ← pull bufferPullU32
    check (typeidx < (← module).types.length)
    modify fun m => { m with functions := m.functions.set i typeidx }) 0 count
  atEnd

def pageSize : ℕ := 65536

/-- The limits of the memory section, in pages. -/
def pullMemoryLimits : Load Unit := do
  let limitType ← pull bufferPullU8
  if limitType = 0x00 then
    let min ← pull bufferPullU64
    modify fun m => { m with memory := ⟨min, (2 ^ 32 - 1) / pageSize - 1, false⟩ }
  else if limitType = 0x01 then
    let min ← pull bufferPullU64
    let max ← pull bufferPullU64
    modify fun m => { m with memory := ⟨min, max, false⟩ }
  else if limitType = 0x03 then
    let min ← pull bufferPullU64
    let max ← pull bufferPullU64
    modify fun m => { m with memory := ⟨min, max, true⟩ }
  else fail

def wasmParseMemorySection : Load Unit := do
  let count ← pull bufferPullU32
  check (count = 1)
  pullMemoryLimits
  let memory := (← module).memory
  check (memory.min ≤ memory.max)
  -- into bytes, with the 64-bit overflow check of `__builtin_mul_overflow`
  check (memory.min * pageSize < 2 ^ 64)
  check (memory.max * pageSize < 2 ^ 64)
  modify fun m => { m with memory := { m.memory with min := memory.min * pageSize, max := memory.max * pageSize } }
  check (memory.min * pageSize ≤ 2 ^ 32)
  check (memory.max * pageSize ≤ 2 ^ 32)
  atEnd

/-- The constant behind a `const` opcode. -/
def pullConstant (opcode : ℕ) : Load WasmValue :=
  match opcode with
  | 0x41 => do let bits ← pull bufferPullI32; return ⟨.i32, bits⟩
  | 0x42 => do let bits ← pull bufferPullI64; return ⟨.i64, bits⟩
  | 0x43 => do let bytes ← pull (bufferPull 4); return ⟨.f32, leBits bytes⟩
  | 0x44 => do let bytes ← pull (bufferPull 8); return ⟨.f64, leBits bytes⟩
  | _ => fail

def wasmParseConstantExpr : Load WasmValue := do
  let byte ← pull bufferPullU8
  let value ← pullConstant byte.toNat
  let last ← pull bufferPullU8
  check (last = 0x0B)
  return value

def wasmParseGlobalSection : Load Unit := do
  let count ← pull bufferPullU32
  check (count ≤ (← len))
  modify fun m => { m with globals := List.replicate count {} }
  forInt (fun i => do
    let type ← pull bufferPullValType
    let mut_ ← pull bufferPullU8
    check (mut_ = 0x00 ∨ mut_ = 0x01)
    let value ← wasmParseConstantExpr
    check (value.kind = type)
    modify fun m => { m with globals := m.globals.set i ⟨value, mut_ = 0x01⟩ }) 0 count
  atEnd

/-- The limits of a table. -/
def pullTableLimits : Load WasmTable := do
  let limitType ← pull bufferPullU8
  if limitType = 0x00 then
    let min ← pull bufferPullU32
    return ⟨min, 2 ^ 32 - 1⟩
  else if limitType = 0x01 then
    let min ← pull bufferPullU32
    let max ← pull bufferPullU32
    return ⟨min, max⟩
  else fail

def wasmParseTableSection : Load Unit := do
  let count ← pull bufferPullU32
  check (count ≤ (← len))
  modify fun m => { m with tables := List.replicate count {} }
  forInt (fun i => do
    let reftype ← pull bufferPullU8
    check (reftype = 0x70)
    let table ← pullTableLimits
    modify fun m => { m with tables := m.tables.set i table }
    check (table.min ≤ table.max)) 0 count
  atEnd

/-- A function index of an element segment. -/
def pullFuncIndex : Load ℕ := do
  let fidx ← pull bufferPullU32
  check (fidx < (← module).totalFuncs32)
  return fidx

/-- `n` of them. -/
def pullFuncIndices (n : ℕ) : Load (List ℕ) := collectInt pullFuncIndex 0 n

def wasmParseElementSection : Load Unit := do
  let count ← pull bufferPullU32
  check (count ≤ (← len))
  modify fun m => { m with elems := List.replicate count {} }
  forInt (fun i => do
    let kind ← pull bufferPullU32
    check (kind = 0)
    let offset ← wasmParseConstantExpr
    check (offset.kind = .i32)
    let funcsCount ← pull bufferPullU32
    check (funcsCount < (← len))
    let funcs ← pullFuncIndices funcsCount
    modify fun m => { m with elems := m.elems.set i { tableidx := 0, offset := offset.bits, funcs } }) 0 count
  atEnd

def wasmParseDataSection : Load Unit := do
  let count ← pull bufferPullU32
  check (count ≤ (← len))
  modify fun m => { m with data := List.replicate count {} }
  forInt (fun i => do
    let kind ← pull bufferPullU32
    if kind = 0 then
      let offset ← wasmParseConstantExpr
      check (offset.kind = .i32)
      let len ← pull bufferPullU32
      let data ← pull (bufferPull len)
      modify fun m => { m with data := m.data.set i { offset := offset.bits, data, active := true } }
    else if kind = 1 then
      let len ← pull bufferPullU32
      let data ← pull (bufferPull len)
      modify fun m => { m with data := m.data.set i { offset := 0, data, active := false } }
    else fail) 0 count
  atEnd

/-- The kind of an export whose index is in range. -/
def exportKind (byte : UInt8) (index : ℕ) : Load ExportKind := do
  let m ← module
  if byte = 0x00 then
    check (index < m.totalFuncs32)
    return .func
  else if byte = 0x02 then
    check (index = 0)
    return .memory
  else if byte = 0x03 then
    check (index < m.globals.length)
    return .global
  else fail

def wasmParseExportSection : Load Unit := do
  let count ← pull bufferPullU32
  check (count ≤ (← len))
  modify fun m => { m with exports := List.replicate count {} }
  forInt (fun i => do
    let name ← pullItemName
    let byte ← pull bufferPullU8
    let index ← pull bufferPullU32
    let kind ← exportKind byte index
    modify fun m => { m with exports := m.exports.set i { name := some name, kind, index } }) 0 count
  atEnd

/-- The type index of the start function. -/
def startTypeidx (m : WasmModule) (index : ℕ) : Load ℕ := do
  if index < m.imports.length then
    let item ← lift m.imports[index]?
    check (item.kind = .func)
    return item.index
  else lift m.functions[index - m.imports.length]?

def wasmParseStartSection : Load Unit := do
  let index ← pull bufferPullU32
  modify fun m => { m with startFunc := index }
  atEnd
  let m ← module
  check (index < m.totalFuncs32)
  let type ← lift m.types[← startTypeidx m index]?
  check (type.argTypes.length = 0)
  check (type.resultTypes.length = 0)

def wasmParseCodeSection : Load Unit := do
  let count ← pull bufferPullU32
  check (count = (← module).functions.length)
  modify fun m => { m with code := some (List.replicate count []) }
  forInt (fun i => do
    let length ← pull bufferPullU32
    let data ← pull (bufferPull length)
    modify fun m => { m with code := m.code.map (·.set i data) }) 0 count
  atEnd

/-- `name_section_copy_str`: an empty name is null. -/
def nameSectionCopyStr : Pull (Option Name) := do
  let name ← bufferPullName
  return if name.length = 0 then none else some name

/-- The name of one function; an index outside the function space is dropped. -/
def setFunctionName (totalFuncs funcidx : ℕ) (name : Option Name) : Load Unit := do
  let m ← module
  if funcidx < totalFuncs ∧ m.functionNames ≠ none then
    -- the old name is freed and the new one stored, also behind the end of an array that is too short
    forbid (∃ names ∈ m.functionNames, names.length ≤ funcidx)
    modify fun m => { m with functionNames := m.functionNames.map (·.set funcidx name) }

/-- `name_count` entries of the function-names subsection, read from its own contents. -/
def parseFunctionNames (totalFuncs : ℕ) (contents : Buffer) : ℕ → Load Unit
  | 0 => pure ()
  | n + 1 => do
    let (funcidx, contents) ← lift (bufferPullU32 contents)
    let (name, contents) ← lift (nameSectionCopyStr contents)
    setFunctionName totalFuncs funcidx name
    parseFunctionNames totalFuncs contents n

/-- `CALLOC` the array of function names, the first time it is needed. -/
def allocFunctionNames (totalFuncs : ℕ) : Load Unit := do
  if (← module).functionNames = none ∧ totalFuncs ≠ 0 then
    modify fun m => { m with functionNames := some (List.replicate totalFuncs none) }

/-- One subsection of the `name` section. -/
def parseNameSubsection (totalFuncs : ℕ) : Load Unit := do
  let subsecId ← pull bufferPullU8
  let subsecSize ← pull bufferPullU32
  let contents ← pull (bufferPull subsecSize)
  if subsecId = 0 then
    if (← module).moduleName = none then
      let (name, _) ← lift (nameSectionCopyStr ⟨0, contents⟩)
      modify fun m => { m with moduleName := name }
  else if subsecId = 1 then
    allocFunctionNames totalFuncs
    let (nameCount, contents) ← lift (bufferPullU32 ⟨0, contents⟩)
    parseFunctionNames totalFuncs contents nameCount

/-- The subsection loop; `fuel` bounds it by the bytes left. -/
def nameSubsections (totalFuncs : ℕ) : (fuel : ℕ) → Load Unit
  | 0 => pure ()
  | fuel + 1 => do
    if (← len) ≠ 0 then
      parseNameSubsection totalFuncs
      nameSubsections totalFuncs fuel

def wasmParseNameSection : Load Unit := do
  let totalFuncs := (← module).totalFuncs
  nameSubsections totalFuncs (← len)

/-- `m_expected_section_order`, by section id. -/
def expectedSectionOrder : List ℕ := [1, 2, 3, 4, 5, 13, 6, 7, 8, 9, 12, 10, 11]

/-- `find_section_index`: the first place of `id` from `index` on. -/
def findSectionIndex (id index : ℕ) : Option ℕ :=
  ((expectedSectionOrder.drop index).idxOf? id).map (index + ·)

/-- The switch of `wasm_load_module`, on the contents of one section. -/
def wasmParseSection (id : ℕ) : Load Unit :=
  match id with
  | 0 => do
    let name ← pull bufferPullName
    if name = [0x6E, 0x61, 0x6D, 0x65] then wasmParseNameSection
  | 1 => wasmParseTypeSection
  | 2 => wasmParseImportSection
  | 3 => wasmParseFunctionSection
  | 4 => wasmParseTableSection
  | 5 => wasmParseMemorySection
  | 6 => wasmParseGlobalSection
  | 7 => wasmParseExportSection
  | 8 => wasmParseStartSection
  | 9 => wasmParseElementSection
  | 10 => wasmParseCodeSection
  | 11 => wasmParseDataSection
  | 12 => pure ()
  | _ => fail

/-- The state of `wasm_load_module` between two sections. -/
structure Loader where
  module : WasmModule := {}
  buffer : Buffer := {}
  currentIndex : ℕ := 0

/-- `wasm_pull_section`: the id and the contents. -/
def wasmPullSection : Pull (ℕ × List UInt8) := do
  let id ← bufferPullU8
  let len ← bufferPullU32
  let contents ← bufferPull len
  return (id.toNat, contents)

/-- A section parser on its contents. -/
def parseContents (contents : List UInt8) (m : Load Unit) : Keeping Loader Unit :=
  zoom (fun l => ⟨l.module, ⟨0, contents⟩⟩) (fun s l => { l with module := s.module }) m

/-- One turn of the section loop: pull a section, check its place, parse it. -/
def wasmLoadSection : Keeping Loader Unit := do
  let ((id, contents), buffer) ← lift (wasmPullSection (← read Loader.buffer))
  update fun l => { l with buffer }
  if id ≠ 0 then
    let index ← lift (findSectionIndex id (← read Loader.currentIndex))
    update fun l => { l with currentIndex := index + 1 }
  parseContents contents (wasmParseSection id)

/-- `while (buffer.len != 0)`; a turn reads at least two bytes. -/
def wasmLoadSections : (fuel : ℕ) → Keeping Loader Unit
  | 0 => pure ()
  | fuel + 1 => do
    if (← read fun l : Loader => l.buffer.data.length) ≠ 0 then
      wasmLoadSection
      wasmLoadSections fuel

/-- The loader behind the magic number. -/
def loaderStart (data : List UInt8) : Option Loader :=
  (modulePullMagicVersion ⟨0, data⟩).map fun (_, buffer) => { buffer }

/-- `wasm_load_module` up to its cleanup. -/
def wasmLoadModuleRun : Keeping Loader Unit := do
  wasmLoadSections (← read fun l : Loader => l.buffer.data.length)
  let m ← read Loader.module
  -- with functions there must be a code section
  check (0 < m.functions.length → m.code ≠ none)

/-- `wasm_load_module`: the cleanup of a failed load frees the module. There is no module
either where the load does something undefined. -/
def wasmLoadModule (data : List UInt8) : Option WasmModule := do
  let start ← loaderStart data
  let (ending, l, _) := wasmLoadModuleRun start
  ending.result.map fun _ => l.module

/-- The module at every point of the run of `wasm_load_module`, up to where it is undefined. -/
def loadPoints (data : List UInt8) : List WasmModule :=
  match loaderStart data with
  | none => [{}]
  | some start => {} :: (wasmLoadModuleRun.points start).map Loader.module

end SpidirWasm.Wasm
