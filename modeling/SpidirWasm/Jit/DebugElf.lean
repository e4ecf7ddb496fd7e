import SpidirWasm.Jit.Link
import SpidirWasm.Util.Elf64
import SpidirWasm.Util.String

/-! The debug ELF: a file with the live code and constants of a module, a symbol for every
function, and an entry for every absolute relocation. The tables are accumulated first and
then stitched together. -/

namespace SpidirWasm.Jit

open Checked
open Elf64
open StringTable (cString stringAt)
open Wasm (WasmModule Name)

/-! ### String tables -/

/-- A control byte is shown as a question mark. -/
def printable (b : UInt8) : UInt8 := if b < 0x20 ∨ b = 0x7F then 0x3F else b

/-- `strtab_emit_chars`. -/
def strtabEmitChars (strtab str : List UInt8) : List UInt8 := strtab ++ (cString str).map printable

/-- `strtab_emit_str`, with the offset of the string. -/
def strtabEmitStr (strtab str : List UInt8) : BitVec 32 × List UInt8 :=
  (BitVec.ofNat 32 strtab.length, strtabEmitChars strtab str ++ [0])

/-- `strtab_emit_prefixed_str`. -/
def strtabEmitPrefixedStr (strtab front str : List UInt8) : BitVec 32 × List UInt8 :=
  (BitVec.ofNat 32 strtab.length, strtabEmitChars (strtabEmitChars strtab front) str ++ [0])

/-! ### Names -/

/-- The name of a function in the `name` section if it has a nonempty one; behind the end of
the array that is a fault. -/
def debugName (m : WasmModule) (funcidx : ℕ) : Option (Option Name) :=
  match m.functionNames with
  | some names => names[funcidx]?.map fun name => (name.map cString).filter fun name => name ≠ []
  | none => some none

/-- `make_func_label`: a debug name, the two names of an import, the name of the first export,
or the index. -/
def makeFuncLabel (m : WasmModule) (funcidx : ℕ) : Option Name := do
  match ← debugName m funcidx with
  | some name => return name
  | none =>
    match m.imports[funcidx]? with
    | some imp => return cString (← imp.moduleName) ++ ascii "." ++ cString (← imp.itemName)
    | none =>
      match m.exports.find? fun e => e.kind = .func ∧ e.index = funcidx with
      | some e => return cString (← e.name)
      | none =>
        match Util.funcLabel funcidx (List.replicate 32 0) with
        | .ok ((), label) => return cString label
        | _ => none

def FloatUnary.name : FloatUnary → String
  | .abs => "abs"
  | .neg => "neg"
  | .ceil => "ceil"
  | .floor => "floor"
  | .trunc => "trunc"
  | .nearest => "nearest"
  | .sqrt => "sqrt"

def FloatBinary.name : FloatBinary → String
  | .min => "min"
  | .max => "max"
  | .copysign => "copysign"

def AtomicWidth.name : AtomicWidth → String
  | .w1 => "1"
  | .w2 => "2"
  | .w4 => "4"
  | .w8 => "8"

def RmwOp.name : RmwOp → String
  | .add => "add"
  | .sub => "sub"
  | .and => "and"
  | .or => "or"
  | .xor => "xor"
  | .xchg => "xchg"
  | .cmpxchg => "cmpxchg"

/-- The names in `m_helper_defs`; the fence has none. -/
def HelperKind.name : HelperKind → Option String
  | .memorySize => some "wasm_host_memory_size"
  | .memoryGrow => some "wasm_host_memory_grow"
  | .memoryCopy => some "jit_helper_memory_copy"
  | .memoryFill => some "jit_helper_memory_fill"
  | .memoryInit => some "jit_helper_memory_init"
  | .fUnary is64 op => some ((if is64 then "f64_" else "f32_") ++ op.name)
  | .fBinary is64 op => some ((if is64 then "f64_" else "f32_") ++ op.name)
  | .truncSat out64 in64 unsigned =>
    some ((if out64 then "i64" else "i32") ++ "_trunc_sat_" ++ (if in64 then "f64" else "f32") ++ if unsigned then "_u" else "_s")
  | .trap => some "jit_helper_trap"
  | .atomicNotify => some "wasm_host_atomic_notify"
  | .atomicWait4 => some "wasm_host_atomic_wait_4"
  | .atomicWait8 => some "wasm_host_atomic_wait_8"
  | .atomicFence => none
  | .atomicLoad w => some ("atomic_load_" ++ w.name)
  | .atomicStore w => some ("atomic_store_" ++ w.name)
  | .atomicRmw op w => some ("atomic_rmw_" ++ op.name ++ "_" ++ w.name)

/-- `jit_get_helper_name`. -/
def jitGetHelperName (host : JitHost) (address : ℕ) : Option Name :=
  ((HelperKind.all.find? fun kind => host.helperAddress kind = address).bind HelperKind.name).map ascii

/-! ### The tables -/

/-- `func_sym_slot_t`, whose indices are `UINT32_MAX` where there is no symbol. -/
structure FuncSymSlot where
  symIndex : ℕ := 2 ^ 32 - 1
  cfiSymIndex : ℕ := 2 ^ 32 - 1
  deriving DecidableEq, Repr, Inhabited

/-- The tables that `wasm_jit_emit_debug_elf` accumulates, the symbols by function, and those
of other targets by address. -/
structure DebugElf where
  strtab : List UInt8 := [0]
  symtab : List Elf64Sym := []
  relaText : List Elf64Rela := []
  slots : List FuncSymSlot := []
  extCache : List (ℕ × ℕ) := []
  deriving DecidableEq, Repr, Inhabited

/-- Where the names of targets that are nothing in wasm come from: the host's helpers, and
`jit_get_libcall_name`. -/
structure DebugNames where
  host : JitHost
  libcallName : ℕ → Option Name

def haveRodata (debug : DebugInfo) : Bool := debug.rodataSize ≠ 0

/-- The relocations that get an entry. -/
def absRelocs (debug : DebugInfo) : List JitReloc := debug.relocs.filter fun r => r.kind = .abs64

/-- `have_rela`; the count is a `uint32_t`. -/
def haveRela (debug : DebugInfo) : Bool := uint32 (absRelocs debug).length ≠ 0

/-- The indices of the sections behind the null section. -/
structure SectionIndices where
  text : ℕ
  rodata : ℕ
  symtab : ℕ
  strtab : ℕ
  rela : ℕ
  shstrtab : ℕ
  shnum : ℕ
  deriving DecidableEq, Repr

/-- The indices under the two flags. -/
def sectionIndices (haveRodata haveRela : Bool) : SectionIndices :=
  let symtab := if haveRodata then 3 else 2
  let shstrtab := if haveRela then symtab + 3 else symtab + 2
  { text := 1
    rodata := if haveRodata then 2 else 0
    symtab
    strtab := symtab + 1
    rela := if haveRela then symtab + 2 else 0
    shstrtab
    shnum := shstrtab + 1 }

def DebugInfo.indices (debug : DebugInfo) : SectionIndices := sectionIndices (haveRodata debug) (haveRela debug)

/-- A string is added to `.strtab`. -/
def emitString (emit : List UInt8 → BitVec 32 × List UInt8) : Checked DebugElf (BitVec 32) := fun s =>
  some ((emit s.strtab).1, { s with strtab := (emit s.strtab).2 })

/-- `PUSH_SYM`. -/
def pushSym (sym : Elf64Sym) : Checked DebugElf Unit := update fun s => { s with symtab := s.symtab ++ [sym] }

/-- The index that the next symbol gets. -/
def nextSym : Checked DebugElf ℕ := read fun s => uint32 s.symtab.length

/-- The slot of a function is filled in. -/
def setSlot (funcidx : ℕ) (f : FuncSymSlot → FuncSymSlot) : Checked DebugElf Unit := do
  check (funcidx < (← read DebugElf.slots).length)
  update fun s => { s with slots := s.slots.modify funcidx f }

/-- The null symbol, the name of the module and the sections; the index of `.rodata`'s symbol. -/
def emitLocals (m : WasmModule) (debug : DebugInfo) : Checked DebugElf ℕ := do
  pushSym ⟨0, stInfo stbLocal sttNotype, 0, shnUndef, 0, 0⟩
  m.moduleName.toList.forM fun name => do
    let off ← emitString fun strtab => strtabEmitStr strtab name
    pushSym ⟨off, stInfo stbLocal sttObject, 0, shnAbs, 0, 0⟩
  pushSym ⟨0, stInfo stbLocal sttSection, 0, .ofNat 16 debug.indices.text, .ofNat 64 debug.codeBase, 0⟩
  if haveRodata debug then
    let symIndex ← nextSym
    pushSym ⟨0, stInfo stbLocal sttSection, 0, .ofNat 16 debug.indices.rodata, .ofNat 64 debug.rodataBase, 0⟩
    return symIndex
  else return 0

/-- The address of an import, as far as some relocation refers to it. -/
def importAddress (debug : DebugInfo) (i : ℕ) : ℕ :=
  match debug.relocs.find? fun r => r.targetFuncidx = i ∧ r.targetCfi = false with
  | some r => r.targetAddress
  | none => 0

/-- The symbol of an import. -/
def emitImport (m : WasmModule) (debug : DebugInfo) (i : ℕ) (imp : Wasm.WasmImport) : Checked DebugElf Unit := do
  if imp.kind = .func then
    let label ← lift (makeFuncLabel m i)
    let off ← emitString fun strtab => strtabEmitStr strtab label
    let symIndex ← nextSym
    setSlot i fun slot => { slot with symIndex }
    pushSym ⟨off, stInfo stbGlobal sttFunc, 0, shnUndef, .ofNat 64 (importAddress debug i), 0⟩

/-- The loop over the imports, from the `i`-th on. -/
def emitImports (m : WasmModule) (debug : DebugInfo) : ℕ → List Wasm.WasmImport → Checked DebugElf Unit
  | _, [] => return
  | i, imp :: imports => do
    emitImport m debug i imp
    emitImports m debug (i + 1) imports

/-- The symbol of a function or thunk that was emitted. -/
def emitLayout (m : WasmModule) (debug : DebugInfo) (fl : FuncLayout) : Checked DebugElf Unit := do
  let label ← lift (makeFuncLabel m fl.funcidx)
  let symIndex ← nextSym
  let off ← emitString fun strtab =>
    if fl.cfiThunk then strtabEmitPrefixedStr strtab (ascii "cfi.") label else strtabEmitStr strtab label
  setSlot fl.funcidx fun slot => if fl.cfiThunk then { slot with cfiSymIndex := symIndex } else { slot with symIndex }
  pushSym ⟨off, stInfo stbGlobal sttFunc, 0, .ofNat 16 debug.indices.text, .ofNat 64 fl.address, .ofNat 64 fl.codeSize⟩

/-- The alias of an export, whose name the primary symbol does not have. -/
def emitAlias (m : WasmModule) (e : Wasm.WasmExport) : Checked DebugElf Unit := do
  if e.kind = .func ∧ e.index < m.totalFuncs then
    let slot ← lift (← read DebugElf.slots)[e.index]?
    if slot.symIndex ≠ 2 ^ 32 - 1 then
      let primary ← lift (← read DebugElf.symtab)[slot.symIndex]?
      let name ← lift e.name
      if stringAt (← read DebugElf.strtab) primary.name.toNat ≠ cString name then
        let off ← emitString fun strtab => strtabEmitStr strtab name
        pushSym ⟨off, stInfo stbGlobal sttFunc, 0, primary.shndx, primary.value, primary.size⟩

/-- The symbol of a function that is the target of a relocation. -/
def slotSym (m : WasmModule) (r : JitReloc) : Checked DebugElf ℕ := do
  if r.targetFuncidx ≠ 2 ^ 32 - 1 ∧ r.targetFuncidx < m.totalFuncs then
    let slot ← lift (← read DebugElf.slots)[r.targetFuncidx]?
    return if r.targetCfi then slot.cfiSymIndex else slot.symIndex
  else return 2 ^ 32 - 1

/-- The symbol of another target, one for each address. -/
def synthSym (name : Option Name) (address : ℕ) : Checked DebugElf ℕ := do
  let cached := (← read DebugElf.extCache).find? fun c => c.1 = address
  let symIndex := (cached.map Prod.snd).getD 0
  if symIndex = 0 then
    let off ← emitString fun strtab => strtabEmitStr strtab (name.getD (ascii "<unknown>"))
    let symIndex ← nextSym
    pushSym ⟨off, stInfo stbGlobal sttFunc, 0, shnUndef, .ofNat 64 address, 0⟩
    update fun s => { s with extCache := s.extCache ++ [(address, symIndex)] }
    return symIndex
  else return symIndex

/-- The symbol and the addend of a relocation against a function. -/
def funcSym (names : DebugNames) (m : WasmModule) (r : JitReloc) : Checked DebugElf (ℕ × BitVec 64) := do
  let slotSym ← slotSym m r
  if slotSym ≠ 2 ^ 32 - 1 then
    let sym ← lift (← read DebugElf.symtab)[slotSym]?
    return (slotSym, .ofInt 64 r.addend + (.ofNat 64 r.targetAddress - sym.value))
  else return (← synthSym (jitGetHelperName names.host r.targetAddress) r.targetAddress, .ofInt 64 r.addend)

/-- The symbol and the addend of a relocation. -/
def relocSym (names : DebugNames) (m : WasmModule) (debug : DebugInfo) (symRodata : ℕ) (r : JitReloc) :
    Checked DebugElf (ℕ × BitVec 64) :=
  match r.targetKind with
  | .internal | .external => funcSym names m r
  | .constpool | .global =>
    if haveRodata debug then return (symRodata, .ofInt 64 r.addend + (.ofNat 64 r.targetAddress - .ofNat 64 debug.rodataBase))
    else return (0, .ofInt 64 r.addend)
  | .libcall => do return (← synthSym (names.libcallName r.targetLibcall) r.targetAddress, .ofInt 64 r.addend)

/-- The entry of an absolute relocation. -/
def emitRela (names : DebugNames) (m : WasmModule) (debug : DebugInfo) (symRodata : ℕ) (r : JitReloc) : Checked DebugElf Unit := do
  if r.kind = .abs64 then
    let (sym, addend) ← relocSym names m debug symRodata r
    update fun s => { s with relaText := s.relaText ++ [⟨.ofNat 64 r.address, sym, rX8664, addend⟩] }

/-- The loop over the relocations, if there is a section for them. -/
def emitRelas (names : DebugNames) (m : WasmModule) (debug : DebugInfo) (symRodata : ℕ) : Checked DebugElf Unit :=
  if haveRela debug then debug.relocs.forM (emitRela names m debug symRodata) else pure ()

/-- The tables of a module, and the index of the first global symbol. -/
def emitTables (names : DebugNames) (m : WasmModule) (debug : DebugInfo) : Checked DebugElf ℕ := do
  let symRodata ← emitLocals m debug
  update fun s => { s with slots := List.replicate m.totalFuncs {} }
  let firstGlobal ← nextSym
  emitImports m debug 0 m.imports
  debug.funcs.forM (emitLayout m debug)
  m.exports.forM (emitAlias m)
  emitRelas names m debug symRodata
  return firstGlobal

/-! ### The file -/

/-- The names of the sections in `.shstrtab`. -/
structure SectionNames where
  text : BitVec 32
  rodata : BitVec 32
  symtab : BitVec 32
  strtab : BitVec 32
  rela : BitVec 32
  shstrtab : BitVec 32
  table : List UInt8
  deriving DecidableEq, Repr

/-- The names under the two flags. -/
def sectionNames (haveRodata haveRela : Bool) : SectionNames :=
  let (text, table) := strtabEmitStr [0] (ascii ".text")
  let (rodata, table) := if haveRodata then strtabEmitStr table (ascii ".rodata") else (0, table)
  let (symtab, table) := strtabEmitStr table (ascii ".symtab")
  let (strtab, table) := strtabEmitStr table (ascii ".strtab")
  let (rela, table) := if haveRela then strtabEmitStr table (ascii ".rela.text") else (0, table)
  let (shstrtab, table) := strtabEmitStr table (ascii ".shstrtab")
  { text, rodata, symtab, strtab, rela, shstrtab, table }

def DebugInfo.names (debug : DebugInfo) : SectionNames := sectionNames (haveRodata debug) (haveRela debug)

/-- The offsets of the sections and of their headers, and the size of the file. -/
structure FileOffsets where
  text : ℕ
  rodata : ℕ
  symtab : ℕ
  strtab : ℕ
  rela : ℕ
  shstrtab : ℕ
  shdrs : ℕ
  size : ℕ
  deriving DecidableEq, Repr

/-- The bytes of `.symtab`. -/
def DebugElf.symtabBytes (tables : DebugElf) : List UInt8 := tables.symtab.flatMap Elf64Sym.bytes

/-- The bytes of `.rela.text`. -/
def DebugElf.relaBytes (tables : DebugElf) : List UInt8 := tables.relaText.flatMap Elf64Rela.bytes

def fileOffsets (debug : DebugInfo) (tables : DebugElf) : FileOffsets :=
  let text := alignUp 64 16
  let off := text + debug.codeSize
  let (rodata, off) := if haveRodata debug then (alignUp off 16, alignUp off 16 + debug.rodataSize) else (0, off)
  let symtab := alignUp off 8
  let strtab := symtab + tables.symtabBytes.length
  let off := strtab + tables.strtab.length
  let (rela, off) := if haveRela debug then (alignUp off 8, alignUp off 8 + tables.relaBytes.length) else (0, off)
  let shstrtab := off
  let shdrs := alignUp (shstrtab + debug.names.table.length) 8
  { text, rodata, symtab, strtab, rela, shstrtab, shdrs, size := shdrs + debug.indices.shnum * 64 }

/-- `e_ident`: the magic number, 64 bits, little-endian, version 1. -/
def elfIdent : BitVec 128 := 0x00010102464C457F

def elfHeader (debug : DebugInfo) (tables : DebugElf) : Elf64Ehdr where
  ident := elfIdent
  type := 3
  machine := 62
  version := 1
  shoff := .ofNat 64 (fileOffsets debug tables).shdrs
  ehsize := 64
  shentsize := 64
  shnum := .ofNat 16 debug.indices.shnum
  shstrndx := .ofNat 16 debug.indices.shstrtab

/-- The section headers, by their indices. -/
def sectionHeaders (debug : DebugInfo) (tables : DebugElf) (firstGlobal : ℕ) : List (ℕ × Elf64Shdr) :=
  let off := fileOffsets debug tables
  let ix := debug.indices
  let name := debug.names
  [(0, ({} : Elf64Shdr)),
    (ix.text, {
      name := name.text, type := shtProgbits, flags := shfAlloc ||| shfExecinstr, addr := .ofNat 64 debug.codeBase
      offset := .ofNat 64 off.text, size := .ofNat 64 debug.codeSize, addralign := 16 })] ++
  (if haveRodata debug then [(ix.rodata, {
      name := name.rodata, type := shtProgbits, flags := shfAlloc, addr := .ofNat 64 debug.rodataBase
      offset := .ofNat 64 off.rodata, size := .ofNat 64 debug.rodataSize, addralign := 16 })] else []) ++
  [(ix.symtab, {
      name := name.symtab, type := shtSymtab, flags := shfAlloc
      offset := .ofNat 64 off.symtab, size := .ofNat 64 tables.symtabBytes.length
      link := .ofNat 32 ix.strtab, info := .ofNat 32 firstGlobal, addralign := 8, entsize := 24 }),
    (ix.strtab, {
      name := name.strtab, type := shtStrtab
      offset := .ofNat 64 off.strtab, size := .ofNat 64 tables.strtab.length, addralign := 1 })] ++
  (if haveRela debug then [(ix.rela, {
      name := name.rela, type := shtRela, flags := shfInfoLink
      offset := .ofNat 64 off.rela, size := .ofNat 64 tables.relaBytes.length
      link := .ofNat 32 ix.symtab, info := .ofNat 32 ix.text, addralign := 8, entsize := 24 })] else []) ++
  [(ix.shstrtab, {
      name := name.shstrtab, type := shtStrtab
      offset := .ofNat 64 off.shstrtab, size := .ofNat 64 name.table.length, addralign := 1 })]

/-- What is copied into the file in front of the section headers, by its offset. -/
def fileContents (debug : DebugInfo) (tables : DebugElf) (code rodata : List UInt8) : List (ℕ × List UInt8) :=
  let off := fileOffsets debug tables
  [(0, (elfHeader debug tables).bytes), (off.text, code)] ++
  (if haveRodata debug then [(off.rodata, rodata)] else []) ++
  [(off.symtab, tables.symtabBytes), (off.strtab, tables.strtab)] ++
  (if haveRela debug then [(off.rela, tables.relaBytes)] else []) ++
  [(off.shstrtab, debug.names.table)]

/-- The section headers with their offsets. -/
def headerTable (debug : DebugInfo) (tables : DebugElf) (firstGlobal : ℕ) : List (ℕ × List UInt8) :=
  (sectionHeaders debug tables firstGlobal).map fun h => ((fileOffsets debug tables).shdrs + 64 * h.1, h.2.bytes)

/-- The file for given tables, and its size; the code and the constants are the live ones. -/
def stitch (jit : WasmModuleJit) (tables : DebugElf) (firstGlobal : ℕ) : Option (Memory UInt8 × ℕ) := do
  let size := (fileOffsets jit.debug tables).size
  guard (size < 2 ^ 64)
  let code ← jit.image.load jit.debug.codeBase jit.debug.codeSize
  let rodata ← jit.image.load jit.debug.rodataBase jit.debug.rodataSize
  let file ← Memory.storeAll (fileContents jit.debug tables code rodata ++ headerTable jit.debug tables firstGlobal)
    (Memory.map 0 size 0 fun _ => none)
  return (file, size)

/-- `wasm_jit_emit_debug_elf`. -/
def wasmJitEmitDebugElf (names : DebugNames) (m : WasmModule) (jit : WasmModuleJit) : Option (Memory UInt8 × ℕ) := do
  let (firstGlobal, tables) ← emitTables names m jit.debug {}
  stitch jit tables firstGlobal

end SpidirWasm.Jit
