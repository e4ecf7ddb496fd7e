import SpidirWasm.Jit.DebugSymbols

/-! The symbol table of the debug ELF as a reader sees it: the symbols by their labels, the
locals in front, and a symbol for each function and thunk that was emitted. The offsets of
the labels have 32 bits, so the string table may not be longer than they reach. -/

namespace SpidirWasm.Jit

open Checked
open Elf64
open StringTable (Holds cString stringAt)
open Wasm (WasmModule WasmImport WasmExport Name)

variable {l : Linker} {m : WasmModule} {debug : DebugInfo} {tables : DebugElf} {strtab : List UInt8} {d : DebugSymbol} {sym : Elf64Sym}

/-- A symbol whose label is read at its offset. -/
structure DebugSymbol.Is (strtab : List UInt8) (d : DebugSymbol) (sym : Elf64Sym) : Prop where
  label : Holds strtab sym.name.toNat d.label
  fields : sym = ⟨sym.name, d.info, 0, d.shndx, d.value, d.size⟩

/-- In a string table of up to 4 GiB no offset is cut. -/
theorem DebugSymbol.In.is (h : d.In strtab sym) (hstrtab : strtab.length ≤ 2 ^ 32) : d.Is strtab sym := by
  obtain ⟨off, hoff, rfl⟩ := h
  have fits : (BitVec.ofNat 32 off).toNat = off := by
    have := hoff.lt
    rw [BitVec.toNat_ofNat, Nat.mod_eq_of_lt (by omega)]
  exact ⟨fits.symm ▸ hoff, rfl⟩

/-- The primary symbol of a function or thunk that was emitted: its label, and its code in `.text`. -/
structure PrimarySymbol (l : Linker) (m : WasmModule) (debug : DebugInfo) (f : FunctionCodegen) (d : DebugSymbol) : Prop where
  label : ∃ funcidx thunk label, l.owner f.function = some (funcidx, thunk) ∧ makeFuncLabel m (uint32 funcidx) = some label ∧
    d.label = if thunk then ascii "cfi." ++ sanitise label else sanitise label
  info : d.info = stInfo stbGlobal sttFunc
  shndx : d.shndx = .ofNat 16 debug.indices.text
  value : d.value = .ofNat 64 (l.entry f)
  size : d.size = .ofNat 64 f.blob.code.length

/-- The code of a function lies in `.text`. -/
def InText (l : Linker) (debug : DebugInfo) (f : FunctionCodegen) : Prop :=
  debug.codeBase ≤ l.entry f ∧ l.entry f + f.blob.code.length ≤ debug.codeBase + debug.codeSize

/-- The symbols of a module: the locals, the imports of functions, the functions and thunks one by one,
aliases of exports, and other targets of relocations. -/
structure SymbolsOf (names : DebugNames) (l : Linker) (m : WasmModule) (debug : DebugInfo) (tables : DebugElf)
    (imports funcs aliases synths : List DebugSymbol) : Prop where
  symtab : List.Forall₂ (DebugSymbol.Is tables.strtab) (localSymbols m debug ++ imports ++ funcs ++ aliases ++ synths) tables.symtab
  imports : importSymbols m debug 0 m.imports = some imports
  funcs : List.Forall₂ (PrimarySymbol l m debug) l.codegen.functions funcs
  aliases : ∀ d ∈ aliases, ∃ e ∈ m.exports, ∃ name primary, e.kind = .func ∧ e.name = some name ∧ primary ∈ tables.symtab ∧
    d = aliasSymbol name primary
  synths : ∀ d ∈ synths, ∃ r ∈ debug.relocs, r.kind = .abs64 ∧ d = synthSymbol (synthName names r) r.targetAddress

/-- A symbol table in order. -/
structure WellFormed (names : DebugNames) (l : Linker) (m : WasmModule) (debug : DebugInfo) (tables : DebugElf) (firstGlobal : ℕ) :
    Prop where
  null : tables.symtab[0]? = some nullSym
  few : firstGlobal < 2 ^ 32
  locals : firstGlobal ≤ tables.symtab.length ∧ ∀ (i : ℕ) (sym : Elf64Sym), tables.symtab[i]? = some sym →
    (sym.bind = stbLocal ↔ i < firstGlobal)
  symbols : ∃ imports funcs aliases synths, SymbolsOf names l m debug tables imports funcs aliases synths
  inText : ∀ f ∈ l.codegen.functions, InText l debug f
  indices : ∀ e ∈ tables.relaText, e.sym < tables.symtab.length

/-! ### Local and global -/

theorem stInfo_bind {bind : ℕ} (h : bind < 16) (type : ℕ) : (stInfo bind type).toNat / 16 = bind := by
  rw [stInfo, BitVec.toNat_ofNat]
  omega

theorem localSymbols_info : ∀ d ∈ localSymbols m debug, ∃ type, d.info = stInfo stbLocal type := by
  intro d hd
  simp only [localSymbols, List.mem_append, List.mem_singleton, List.mem_map] at hd
  obtain ((rfl | ⟨_, -, rfl⟩) | rfl) | hd := hd
  · exact ⟨_, rfl⟩
  · exact ⟨_, rfl⟩
  · exact ⟨_, rfl⟩
  · split_ifs at hd
    · obtain rfl := List.mem_singleton.mp hd
      exact ⟨_, rfl⟩
    · cases hd

theorem importSymbols_info {i : ℕ} {imports : List WasmImport} {ds : List DebugSymbol} (h : importSymbols m debug i imports = some ds) :
    ∀ d ∈ ds, d.info = stInfo stbGlobal sttFunc := by
  induction imports generalizing i ds with
  | nil =>
    obtain rfl := Option.some.inj h
    simp
  | cons imp imports ih =>
    simp only [importSymbols, Option.bind_eq_bind, Option.bind_eq_some_iff, Option.pure_def, Option.some.injEq] at h
    obtain ⟨first, hfirst, rest, hrest, rfl⟩ := h
    intro d hd
    obtain hd | hd := List.mem_append.mp hd
    · rw [importSymbol] at hfirst
      split_ifs at hfirst
      · obtain ⟨label, -, rfl⟩ := Option.map_eq_some_iff.mp hfirst
        obtain rfl := List.mem_singleton.mp hd
        rfl
      · obtain rfl := Option.some.inj hfirst
        cases hd
    · exact ih hrest d hd

namespace SymbolsOf

variable {names : DebugNames} {imports funcs aliases synths : List DebugSymbol} (h : SymbolsOf names l m debug tables imports funcs aliases synths)
include h

/-- All symbols behind the locals are global. -/
theorem globals : ∀ d ∈ imports ++ funcs ++ aliases ++ synths, d.info = stInfo stbGlobal sttFunc := by
  intro d hd
  simp only [List.mem_append] at hd
  obtain ((hd | hd) | hd) | hd := hd
  · exact importSymbols_info h.imports d hd
  · obtain ⟨i, hi⟩ := List.mem_iff_getElem?.mp hd
    obtain ⟨f, -, hf⟩ := getElem?_of_forall₂ h.funcs.flip hi
    exact hf.info
  · obtain ⟨e, -, name, primary, -, -, -, rfl⟩ := h.aliases d hd
    rfl
  · obtain ⟨r, -, -, rfl⟩ := h.synths d hd
    rfl

/-- The locals are those in front. -/
theorem bind_iff {i : ℕ} (hi : tables.symtab[i]? = some sym) : sym.bind = stbLocal ↔ i < (localSymbols m debug).length := by
  obtain ⟨d, hd, his⟩ := getElem?_of_forall₂ h.symtab.flip hi
  have bind : sym.bind = d.info.toNat / 16 := by rw [Elf64Sym.bind, his.fields]
  rw [bind]
  simp only [List.append_assoc] at hd
  by_cases hlocal : i < (localSymbols m debug).length
  · rw [List.getElem?_append_left hlocal] at hd
    obtain ⟨type, htype⟩ := localSymbols_info d (List.mem_of_getElem? hd)
    rw [htype, stInfo_bind (by decide)]
    exact iff_of_true rfl hlocal
  · rw [List.getElem?_append_right (Nat.le_of_not_lt hlocal)] at hd
    have global := h.globals d (by simpa only [List.append_assoc] using List.mem_of_getElem? hd)
    rw [global, stInfo_bind (by decide)]
    exact iff_of_false (by decide) hlocal

end SymbolsOf

/-! ### The table of a module -/

theorem layoutSymbol_primary {f : FunctionCodegen} {fl : FuncLayout} (hfl : LayoutOf l f fl) (hd : layoutSymbol m debug fl = some d) :
    PrimarySymbol l m debug f d := by
  obtain ⟨funcidx, howner, hfuncidx⟩ := hfl.owner
  obtain ⟨label, hlabel, rfl⟩ := Option.map_eq_some_iff.mp hd
  refine ⟨⟨funcidx, fl.cfiThunk, label, howner, hfuncidx ▸ hlabel, rfl⟩, rfl, rfl, ?_, ?_⟩
  · rw [hfl.address]
  · rw [hfl.codeSize]

/-- The tables in order, as long as the offsets of the strings fit. -/
theorem emitTables_wellFormed {names : DebugNames} {firstGlobal : ℕ} {relocs : List JitReloc} (hrun : emitTables names m debug {} = some (firstGlobal, tables))
    (hcaptured : Captured l l.codegen.functions debug.funcs relocs) (hstrtab : tables.strtab.length ≤ 2 ^ 32)
    (hinside : ∀ f ∈ l.codegen.functions, InText l debug f) : WellFormed names l m debug tables firstGlobal := by
  obtain ⟨imports, funcs, aliases, synths, hadds, hnull, rfl, himports, hfuncs, haliases, hsynths, hindices⟩ := emitTables_symbols hrun
  obtain ⟨⟨syms, hsyms, hin⟩, -⟩ := hadds
  rw [List.nil_append] at hsyms
  have primaries : List.Forall₂ (PrimarySymbol l m debug) l.codegen.functions funcs := by
    refine List.forall₂_iff_get.mpr ⟨hcaptured.layouts.length_eq.trans hfuncs.length_eq, fun i hi hi' => ?_⟩
    obtain ⟨fl, hfl, hlayout⟩ := getElem?_of_forall₂ hcaptured.layouts (List.getElem?_eq_getElem hi)
    obtain ⟨d, hd, hsymbol⟩ := getElem?_of_forall₂ hfuncs hfl
    obtain rfl := Option.some.inj ((List.getElem?_eq_getElem hi').symm.trans hd)
    exact layoutSymbol_primary hlayout hsymbol
  have symbols : SymbolsOf names l m debug tables imports funcs aliases synths :=
    ⟨hsyms ▸ hin.imp fun _ _ h => h.is hstrtab, himports, primaries, haliases, hsynths⟩
  have count := symbols.symtab.length_eq
  have few : (localSymbols m debug).length < 2 ^ 32 := Nat.lt_of_le_of_lt (localSymbols_length_le m debug) (by decide)
  simp only [List.length_append] at count
  exact ⟨hnull, few, ⟨by omega, fun i sym hi => symbols.bind_iff hi⟩, ⟨imports, funcs, aliases, synths, symbols⟩, hinside, hindices⟩

variable {host : JitHost} {emitter : Emitter} {ctx : JitContext} {fuel size : ℕ} {jit : WasmModuleJit} {cg : Codegen} {file : Memory UInt8}

/-- The code of what was emitted lies in `.text`. -/
theorem captured_inText {maps : DebugMaps} (hcodegen : codegenAll emitter ctx fuel {} = some ((), cg)) (hinfo : CapturedInfo host ctx cg maps jit)
    (hcode : codeEnd 0 (cg.functions.map FunctionCodegen.blob) < 2 ^ 64) :
    ∀ f ∈ cg.functions, InText (captureLinker host ctx cg jit.binary maps) jit.debug f := by
  intro f hf
  obtain ⟨-, hinside⟩ := (codegenAll_inside hcodegen hcode).2 f hf
  rw [InText, hinfo.codeBase, hinfo.codeSize]
  show jit.binary ≤ jit.binary + f.codeOffset ∧ jit.binary + f.codeOffset + f.blob.code.length ≤ jit.binary + cg.codeSize
  omega

/-- The symbol table that a reader of the file finds is in order: the null symbol, the locals and
their count, the label of every symbol at its offset, a symbol for every function and thunk with
its code in `.text`, and the indices of the relocations. -/
theorem debug_symbols_wellFormed {names : DebugNames} {firstGlobal : ℕ} (hcodegen : codegenAll emitter ctx fuel {} = some ((), cg))
    (hjit : jitCodegen host emitter true fuel ctx = some jit) (hrun : wasmJitEmitDebugElf names ctx.module jit = some (file, size))
    (htables : emitTables names ctx.module jit.debug {} = some (firstGlobal, tables)) (hstrtab : tables.strtab.length ≤ 2 ^ 32)
    (hcode : codeEnd 0 (cg.functions.map FunctionCodegen.blob) < 2 ^ 64) :
    ∃ maps ehdr symtab strtab, jitCodegenPrepareDebugMaps ctx = some maps ∧ readEhdr file = some ehdr ∧
      Found file ehdr jit.debug.indices.symtab (ascii ".symtab") symtab ∧ symtab.contents file = some tables.symtabBytes ∧
      symtab.info.toNat = firstGlobal ∧ Found file ehdr jit.debug.indices.strtab (ascii ".strtab") strtab ∧
      strtab.contents file = some tables.strtab ∧
      WellFormed names (captureLinker host ctx cg jit.binary maps) ctx.module jit.debug tables firstGlobal := by
  obtain ⟨maps, cg', hmaps, hcodegen', hinfo⟩ := jitCodegen_captured hjit
  obtain rfl : cg = cg' := (Prod.mk.inj (Option.some.inj (hcodegen.symm.trans hcodegen'))).2
  obtain ⟨⟨firstGlobal', tables'⟩, htables', hstitch⟩ := Option.bind_eq_some_iff.mp hrun
  obtain ⟨rfl, rfl⟩ := Prod.mk.inj (Option.some.inj (htables.symm.trans htables'))
  obtain ⟨code, rodata, h⟩ := stitch_eq_some hstitch
  obtain ⟨symtab, hsymtab, hcontents, hinfo'⟩ := h.symtab_section
  obtain ⟨strtab, hstrtabFound, hstrtabContents⟩ := h.strtab_section
  have inText := captured_inText hcodegen hinfo hcode
  have wf : WellFormed names (captureLinker host ctx cg jit.binary maps) ctx.module jit.debug tables firstGlobal :=
    emitTables_wellFormed htables hinfo.records hstrtab inText
  refine ⟨maps, _, symtab, strtab, hmaps, h.readEhdr_eq, hsymtab, hcontents, ?_, hstrtabFound, hstrtabContents, wf⟩
  rw [hinfo', BitVec.toNat_ofNat, Nat.mod_eq_of_lt wf.few]

theorem debug_symbols_wellFormed_named : ∃ ctx cg jit file size firstGlobal tables maps ehdr symtab strtab,
    jitEmitSpidir 2 (startContext namedModule fun _ _ _ => none) = some ([1, 2, 0], ctx) ∧
    codegenAll recursiveEmitter ctx 10 {} = some ((), cg) ∧ jitCodegen sampleHost recursiveEmitter true 10 ctx = some jit ∧
    wasmJitEmitDebugElf sampleNames ctx.module jit = some (file, size) ∧
    emitTables sampleNames ctx.module jit.debug {} = some (firstGlobal, tables) ∧
    jitCodegenPrepareDebugMaps ctx = some maps ∧ readEhdr file = some ehdr ∧
    Found file ehdr jit.debug.indices.symtab (ascii ".symtab") symtab ∧ symtab.contents file = some tables.symtabBytes ∧
    symtab.info.toNat = firstGlobal ∧ Found file ehdr jit.debug.indices.strtab (ascii ".strtab") strtab ∧
    strtab.contents file = some tables.strtab ∧
    WellFormed sampleNames (captureLinker sampleHost ctx cg jit.binary maps) ctx.module jit.debug tables firstGlobal := by
  have run : ((jitEmitSpidir 2 (startContext namedModule fun _ _ _ => none)).bind fun r =>
      (codegenAll recursiveEmitter r.2 10 {}).bind fun g => (jitCodegen sampleHost recursiveEmitter true 10 r.2).bind fun jit =>
        (emitTables sampleNames r.2.module jit.debug {}).map fun f =>
          (r.1, decide (codeEnd 0 (g.2.functions.map FunctionCodegen.blob) < 2 ^ 64), decide (f.2.strtab.length ≤ 2 ^ 32),
            decide ((fileOffsets jit.debug f.2).size < 2 ^ 64), (jit.image.load jit.debug.codeBase jit.debug.codeSize).isSome,
            (jit.image.load jit.debug.rodataBase jit.debug.rodataSize).isSome)) =
      some ([1, 2, 0], true, true, true, true, true) := by decide +kernel
  obtain ⟨⟨built, ctx⟩, hemit, run⟩ := Option.bind_eq_some_iff.mp run
  obtain ⟨⟨_, cg⟩, hcodegen, run⟩ := Option.bind_eq_some_iff.mp run
  obtain ⟨jit, hjit, run⟩ := Option.bind_eq_some_iff.mp run
  obtain ⟨⟨firstGlobal, tables⟩, htables, run⟩ := Option.map_eq_some_iff.mp run
  simp only [Prod.mk.injEq, decide_eq_true_eq] at run
  obtain ⟨rfl, hcode, hstrtab, hsize, hload, hconstants⟩ := run
  obtain ⟨⟨file, size⟩, hfile⟩ := Option.isSome_iff_exists.mp (stitch_isSome firstGlobal hsize hload hconstants)
  have emitted : wasmJitEmitDebugElf sampleNames ctx.module jit = some (file, size) := by
    simp only [wasmJitEmitDebugElf, htables, Option.bind_eq_bind, Option.bind_some, hfile]
  obtain ⟨maps, ehdr, symtab, strtab, h⟩ := debug_symbols_wellFormed hcodegen hjit emitted htables hstrtab hcode
  exact ⟨ctx, cg, jit, file, size, firstGlobal, tables, maps, ehdr, symtab, strtab, hemit, hcodegen, hjit, emitted, htables, h⟩

section Alias

variable {s t : DebugElf} {e : WasmExport} {slot : FuncSymSlot} {primary : Elf64Sym} {name : Name}

/-- An export that the primary symbol is named after gets no alias, and every other one does. -/
theorem emitAlias_eq (hkind : e.kind = .func) (hlt : e.index < m.totalFuncs) (hslot : s.slots[e.index]? = some slot)
    (hindex : slot.symIndex ≠ 2 ^ 32 - 1) (hprimary : s.symtab[slot.symIndex]? = some primary) (hname : e.name = some name) :
    emitAlias m e s = some ((), if stringAt s.strtab primary.name.toNat = cString name then s else
      { s with
        strtab := s.strtab ++ sanitise name ++ [0]
        symtab := s.symtab ++ [⟨.ofNat 32 s.strtab.length, stInfo stbGlobal sttFunc, 0, primary.shndx, primary.value, primary.size⟩] }) := by
  rw [emitAlias, if_pos ⟨hkind, hlt⟩, read_bind]
  refine (lift_bind_eq_some _ _ _ _).mpr ⟨slot, hslot, ?_⟩
  rw [if_pos hindex, read_bind]
  refine (lift_bind_eq_some _ _ _ _).mpr ⟨primary, hprimary, (lift_bind_eq_some _ _ _ _).mpr ⟨name, hname, ?_⟩⟩
  rw [read_bind]
  by_cases hsame : stringAt s.strtab primary.name.toNat = cString name
  · rw [if_neg (not_not.mpr hsame), if_pos hsame]
    rfl
  · rw [if_pos hsame, if_neg hsame]
    rfl

end Alias

/-! ### A string table that is too long -/

/-- Two functions that do nothing, each with an export, in a module with a name. -/
def twinModule (name : Name) : WasmModule where
  types := [{}]
  functions := [0, 0]
  moduleName := some name
  exports := [{ name := some (List.replicate 29 0x66), kind := .func, index := 0 }, { name := some (ascii "g"), kind := .func, index := 1 }]
  code := some [[0, 0x0B], [0, 0x0B]]
  startFunc := -1

def twinEmitter : Emitter := fun _ => some { code := [0xC3], relocs := [] }

/-- What is captured of it. -/
def twinDebug : DebugInfo where
  funcs := [{ funcidx := 0, cfiThunk := false, address := 0x7F0000000010, codeSize := 1, constAddress := none, constSize := 0 },
    { funcidx := 1, cfiThunk := false, address := 0x7F0000000030, codeSize := 1, constAddress := none, constSize := 0 }]
  codeBase := 0x7F0000000000
  codeSize := 49
  rodataBase := 0x7F0000001000

/-- A name that leaves 32 bytes of 4 GiB. -/
@[irreducible] def longName : Name := List.replicate (2 ^ 32 - 32) 0x61

/-- The string table behind the name of the module. -/
def twinFront : List UInt8 := [0] ++ longName ++ [0]

/-- The string table behind the functions, whose second label starts at 4 GiB. -/
def twinStrtab : List UInt8 := twinFront ++ List.replicate 29 0x66 ++ [0] ++ ascii "g" ++ [0]

/-- The symbols: the null symbol, the module, its code, the functions, and an alias. -/
def twinSymtab : List Elf64Sym :=
  [nullSym, ⟨1, stInfo stbLocal sttObject, 0, shnAbs, 0, 0⟩, ⟨0, stInfo stbLocal sttSection, 0, 1, 0x7F0000000000, 0⟩,
    ⟨.ofNat 32 (2 ^ 32 - 30), stInfo stbGlobal sttFunc, 0, 1, 0x7F0000000010, 1⟩, ⟨0, stInfo stbGlobal sttFunc, 0, 1, 0x7F0000000030, 1⟩,
    ⟨2, stInfo stbGlobal sttFunc, 0, 1, 0x7F0000000030, 1⟩]

def twinTables : DebugElf where
  strtab := twinStrtab ++ ascii "g" ++ [0]
  symtab := twinSymtab
  slots := [{ symIndex := 3 }, { symIndex := 4 }]

theorem sanitise_replicate (n : ℕ) : sanitise (List.replicate n 0x61) = List.replicate n 0x61 := by
  have shown : ∀ b ∈ List.replicate n (0x61 : UInt8), decide (b ≠ 0) = true := by
    intro b hb
    obtain rfl := List.eq_of_mem_replicate hb
    decide
  rw [sanitise, cString, List.takeWhile_eq_self_iff.mpr shown, List.map_replicate]
  rfl

theorem sanitise_longName : sanitise longName = longName := by
  rw [longName, sanitise_replicate]

theorem length_twinFront : twinFront.length = 2 ^ 32 - 30 := by
  rw [twinFront, List.length_append, List.length_append, longName, List.length_replicate]
  rfl

theorem emitLocals_twin (name : Name) : emitLocals (twinModule name) twinDebug {} =
    some (0, { strtab := [0] ++ sanitise name ++ [0], symtab := twinSymtab.take 3 }) := rfl

theorem emitLayouts_twin (name : Name) (strtab : List UInt8) : twinDebug.funcs.forM (emitLayout (twinModule name) twinDebug)
    { strtab, symtab := twinSymtab.take 3, slots := [{}, {}] } = some ((), {
      strtab := strtab ++ List.replicate 29 0x66 ++ [0] ++ ascii "g" ++ [0]
      symtab := twinSymtab.take 3 ++ [⟨.ofNat 32 strtab.length, stInfo stbGlobal sttFunc, 0, 1, 0x7F0000000010, 1⟩,
        ⟨.ofNat 32 (strtab ++ List.replicate 29 0x66 ++ [0]).length, stInfo stbGlobal sttFunc, 0, 1, 0x7F0000000030, 1⟩]
      slots := [{ symIndex := 3 }, { symIndex := 4 }] }) := rfl

theorem length_twinStrtab : twinStrtab.length = 2 ^ 32 + 2 := by
  rw [twinStrtab, List.length_append, List.length_append, List.length_append, List.length_append, length_twinFront, List.length_replicate]
  rfl

theorem length_twinTables : twinTables.strtab.length = 2 ^ 32 + 4 := by
  show (twinStrtab ++ ascii "g" ++ [0]).length = _
  rw [List.length_append, List.length_append, length_twinStrtab]
  rfl

theorem fileOffsets_twin (strtab : List UInt8) (slots : List FuncSymSlot) :
    (fileOffsets twinDebug { strtab, symtab := twinSymtab, slots }).size = alignUp (264 + strtab.length + 33) 8 + 5 * 64 := by
  have symtab : DebugElf.symtabBytes { strtab, symtab := twinSymtab, slots } = twinSymtab.flatMap Elf64Sym.bytes := rfl
  have count : (twinSymtab.flatMap Elf64Sym.bytes).length = 144 := by
    simp only [List.length_flatMap, Elf64Sym.length_bytes]
    rfl
  have table : twinDebug.names.table.length = 33 := by decide
  simp only [fileOffsets, show haveRodata twinDebug = false from rfl, show haveRela twinDebug = false from rfl, symtab, count, table]
  rfl

/-- The alias of the second export is needed, since the label of its function is not found. -/
theorem emitTables_twin : emitTables sampleNames (twinModule longName) twinDebug {} = some (3, twinTables) := by
  have whole : (twinFront ++ List.replicate 29 0x66 ++ [0]).length = 2 ^ 32 := by
    rw [List.length_append, List.length_append, length_twinFront, List.length_replicate]
    rfl
  have layouts := emitLayouts_twin longName twinFront
  rw [length_twinFront, whole] at layouts
  have first : stringAt twinStrtab (2 ^ 32 - 30) = List.replicate 29 0x66 := by
    refine StringTable.Holds.stringAt_eq ⟨twinFront, ascii "g" ++ [0], ?_, length_twinFront, by decide⟩
    rw [twinStrtab, List.append_assoc, List.append_assoc]
    rfl
  have second : stringAt twinStrtab 0 = [] := (StringTable.holds_zero _).stringAt_eq
  let s₃ : DebugElf := { strtab := twinStrtab, symtab := twinSymtab.take 5, slots := twinTables.slots }
  have same : emitAlias (twinModule longName) { name := some (List.replicate 29 0x66), kind := .func, index := 0 } s₃ = some ((), s₃) := by
    rw [emitAlias_eq rfl (by decide) rfl (by decide) rfl rfl]
    exact congrArg (fun s => some ((), s)) (if_pos first)
  have added : emitAlias (twinModule longName) { name := some (ascii "g"), kind := .func, index := 1 } s₃ = some ((), twinTables) := by
    have other : stringAt twinStrtab 0 ≠ cString (ascii "g") := by
      rw [second]
      decide
    rw [emitAlias_eq rfl (by decide) rfl (by decide) rfl rfl]
    refine congrArg (fun s => some ((), s)) ((if_neg other).trans ?_)
    show DebugElf.mk _ (_ ++ [⟨.ofNat 32 twinStrtab.length, _, _, _, _, _⟩]) _ _ _ = _
    rw [length_twinStrtab]
    rfl
  have locals := emitLocals_twin longName
  rw [sanitise_longName] at locals
  have aliases : (twinModule longName).exports.forM (emitAlias (twinModule longName)) s₃ = some ((), twinTables) := by
    show List.forM [{ name := some (List.replicate 29 0x66), kind := .func, index := 0 }, { name := some (ascii "g"), kind := .func, index := 1 }]
      (emitAlias (twinModule longName)) s₃ = _
    rw [List.forM_eq_forM, List.forM_cons, List.forM_cons, List.forM_nil, bind_apply, same, Option.bind_some, bind_apply, added]
    rfl
  rw [emitTables]
  refine (bind_eq_some _ _ _ _).mpr ⟨0, _, locals, ?_⟩
  rw [update_bind, nextSym, read_bind]
  refine (bind_eq_some _ _ _ _).mpr ⟨(), _, rfl, (bind_eq_some _ _ _ _).mpr ⟨(), s₃, layouts, ?_⟩⟩
  exact (bind_eq_some _ _ _ _).mpr ⟨(), twinTables, aliases, rfl⟩

/-- The functions that were emitted, in their order. -/
def twinOwners (maps : DebugMaps) (cg : Codegen) : List (Option ℕ) := cg.functions.map fun f => maps.funcToFuncidx.lookup f.function

/-- The module is emitted, linked and captured, and its debug ELF is put together. -/
theorem twin_run : ∃ ctx maps cg jit file size, jitEmitSpidir 5 (startContext (twinModule longName) fun _ _ _ => none) = some ([1, 0], ctx) ∧
    ctx.module = twinModule longName ∧ jitCodegenPrepareDebugMaps ctx = some maps ∧ codegenAll twinEmitter ctx 10 {} = some ((), cg) ∧
    codeEnd 0 (cg.functions.map FunctionCodegen.blob) < 2 ^ 64 ∧ twinOwners maps cg = [some 0, some 1] ∧
    jitCodegen sampleHost twinEmitter true 10 ctx = some jit ∧ jit.debug = twinDebug ∧
    wasmJitEmitDebugElf sampleNames ctx.module jit = some (file, size) := by
  have run : ((jitEmitSpidir 5 (startContext (twinModule longName) fun _ _ _ => none)).bind fun r =>
      (jitCodegenPrepareDebugMaps r.2).bind fun maps => (codegenAll twinEmitter r.2 10 {}).bind fun cg =>
        (jitCodegen sampleHost twinEmitter true 10 r.2).map fun jit =>
          (r.1, decide (codeEnd 0 (cg.2.functions.map FunctionCodegen.blob) < 2 ^ 64), twinOwners maps cg.2, jit.debug,
            (jit.image.load jit.debug.codeBase jit.debug.codeSize).isSome)) =
      some ([1, 0], true, [some 0, some 1], twinDebug, true) := by decide +kernel
  obtain ⟨⟨built, ctx⟩, hemit, run⟩ := Option.bind_eq_some_iff.mp run
  obtain ⟨maps, hmaps, run⟩ := Option.bind_eq_some_iff.mp run
  obtain ⟨⟨_, cg⟩, hcodegen, run⟩ := Option.bind_eq_some_iff.mp run
  obtain ⟨jit, hjit, run⟩ := Option.map_eq_some_iff.mp run
  simp only [Prod.mk.injEq, decide_eq_true_eq] at run
  obtain ⟨rfl, hcode, howners, hdebug, hload⟩ := run
  have prepared : jitPrepareState (startContext (twinModule longName) fun _ _ _ => none) =
      some (startContext (twinModule longName) fun _ _ _ => none, 0) := rfl
  obtain ⟨hstart, hmodule, -⟩ := emission_start prepared
  obtain ⟨-, hkept, -⟩ := jitEmitSpidir_emission hstart hemit
  have module : ctx.module = twinModule longName := hkept.trans hmodule
  have size : (fileOffsets jit.debug twinTables).size < 2 ^ 64 := by
    rw [hdebug]
    refine (fileOffsets_twin twinTables.strtab twinTables.slots).trans_lt ?_
    rw [length_twinTables]
    decide
  have constants : (jit.image.load jit.debug.rodataBase jit.debug.rodataSize).isSome := by
    rw [hdebug]
    rfl
  obtain ⟨⟨file, size⟩, hfile⟩ := Option.isSome_iff_exists.mp (stitch_isSome 3 size hload constants)
  refine ⟨ctx, maps, cg, jit, file, size, hemit, module, hmaps, hcodegen, hcode, howners, hjit, hdebug, ?_⟩
  have tables : emitTables sampleNames ctx.module jit.debug {} = some (3, twinTables) := by
    rw [module, hdebug]
    exact emitTables_twin
  simp only [wasmJitEmitDebugElf, tables, Option.bind_eq_bind, Option.bind_some, hfile]


/-- The label of the second function starts at 4 GiB, which its symbol cannot say. -/
theorem debug_symbols_wellFormed_too_long : ∃ ctx maps cg jit file size,
    jitEmitSpidir 5 (startContext (twinModule longName) fun _ _ _ => none) = some ([1, 0], ctx) ∧
    jitCodegenPrepareDebugMaps ctx = some maps ∧ codegenAll twinEmitter ctx 10 {} = some ((), cg) ∧
    jitCodegen sampleHost twinEmitter true 10 ctx = some jit ∧ wasmJitEmitDebugElf sampleNames ctx.module jit = some (file, size) ∧
    emitTables sampleNames ctx.module jit.debug {} = some (3, twinTables) ∧
    ¬WellFormed sampleNames (captureLinker sampleHost ctx cg jit.binary maps) ctx.module jit.debug twinTables 3 := by
  obtain ⟨ctx, maps, cg, jit, file, size, hemit, hmodule, hmaps, hcodegen, -, howners, hjit, hdebug, hfile⟩ := twin_run
  have tables : emitTables sampleNames ctx.module jit.debug {} = some (3, twinTables) := by
    rw [hmodule, hdebug]
    exact emitTables_twin
  refine ⟨ctx, maps, cg, jit, file, size, hemit, hmaps, hcodegen, hjit, hfile, tables, fun h => ?_⟩
  obtain ⟨imports, funcs, aliases, synths, h⟩ := h.symbols
  obtain rfl : imports = [] := by
    have := h.imports
    rw [hmodule] at this
    exact (Option.some.inj this).symm
  have locals : (localSymbols ctx.module jit.debug).length = 3 := by
    rw [hmodule, hdebug]
    rfl
  obtain ⟨f, hf, hlookup⟩ : ∃ f, cg.functions[1]? = some f ∧ maps.funcToFuncidx.lookup f.function = some 1 := by
    have second := congrArg (·[1]?) howners
    rw [twinOwners, List.getElem?_map] at second
    exact Option.map_eq_some_iff.mp second
  obtain ⟨d, hd, hprimary⟩ := getElem?_of_forall₂ h.funcs hf
  obtain ⟨funcidx, thunk, label, howner, hlabel, hd'⟩ := hprimary.label
  have owner : (captureLinker sampleHost ctx cg jit.binary maps).owner f.function = some (1, false) := by
    exact Linker.owner_of_func hlookup
  obtain ⟨rfl, rfl⟩ := Prod.mk.inj (Option.some.inj (owner.symm.trans howner))
  obtain rfl : ascii "g" = label := by
    rw [hmodule] at hlabel
    exact Option.some.inj hlabel
  have place : (localSymbols ctx.module jit.debug ++ [] ++ funcs ++ aliases ++ synths)[4]? = some d := by
    rw [List.append_nil, List.append_assoc, List.append_assoc, List.getElem?_append_right (by omega), locals,
      List.getElem?_append_left (List.getElem?_eq_some_iff.mp hd).1]
    exact hd
  obtain ⟨sym, hsym, his⟩ := getElem?_of_forall₂ h.symtab place
  obtain rfl : (⟨0, stInfo stbGlobal sttFunc, 0, 1, 0x7F0000000030, 1⟩ : Elf64Sym) = sym := Option.some.inj hsym
  have read : stringAt twinTables.strtab 0 = d.label := his.label.stringAt_eq
  have empty : stringAt twinTables.strtab 0 = [] := (StringTable.holds_zero _).stringAt_eq
  rw [hd'] at read
  exact absurd (empty.symm.trans read) (by decide)

end SpidirWasm.Jit
