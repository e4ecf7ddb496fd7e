import Mathlib.Data.List.Dedup
import Mathlib.Data.List.Perm.Subperm
import SpidirWasm.Jit.DebugSymtab

/-! The relocations of the debug ELF. An entry names a symbol and an addend whose sum is what
the linker stored at the site. The constants and the tables are named by the symbol of
`.rodata`, which is missing when all of them are empty; the address of an empty table is lost
then. -/

namespace SpidirWasm.Jit

open Checked
open Elf64
open Spidir (Word)
open Wasm (WasmModule)

variable {names : DebugNames} {m : WasmModule} {debug : DebugInfo} {s t : DebugElf} {r : JitReloc} {e : Elf64Rela} {k symRodata n : ℕ}
  {addend : BitVec 64} {targets : List ℕ} {symtab : List Elf64Sym}

/-- The entry of an absolute relocation: its site, and a symbol from which the addend leads to what was linked. -/
structure RelaOf (symtab : List Elf64Sym) (r : JitReloc) (e : Elf64Rela) : Prop where
  offset : e.offset = .ofNat 64 r.address
  type : e.type = rX8664
  value : ∃ sym, symtab[e.sym]? = some sym ∧ sym.value + e.addend = r.linked

/-- The target has a symbol of its own, or `.rodata` has one, or the target is nowhere. -/
def Covered (debug : DebugInfo) (r : JitReloc) : Prop :=
  (r.targetKind = .constpool ∨ r.targetKind = .global) → haveRodata debug = true ∨ BitVec.ofNat 64 r.targetAddress = 0

instance (debug : DebugInfo) (r : JitReloc) : Decidable (Covered debug r) := by unfold Covered; infer_instance

/-- A bound on the number of symbols: the locals, the imports, the functions, aliases, and the targets of relocations. -/
def symbolBound (m : WasmModule) (debug : DebugInfo) : ℕ :=
  4 + m.imports.length + debug.funcs.length + m.exports.length + ((absRelocs debug).map JitReloc.targetAddress).dedup.length

/-- Where a record says so, the linker stored the 64 bits. -/
def StoredAt (l : Linker) (p : FunctionCodegen × Reloc) (e : JitReloc) : Prop :=
  ∃ s t : Linked, jitApplyReloc l (l.entry p.1) p.1.blob.code.length p.2 e.targetAddress s = some ((), t) ∧
    t.image = s.image.write (sizeT e.address) (Word.toBytes 8 e.linked)

/-! ### Sums -/

theorem AppliedAs.stored {l : Linker} {p : FunctionCodegen × Reloc} {e : JitReloc} (h : AppliedAs l p e) (he : RecordOf l p e)
    (hkind : e.kind = .abs64) : StoredAt l p e := by
  obtain ⟨s, t, hrun⟩ := h
  have apply := hrun
  simp only [jitApplyReloc, he.kind ▸ hkind, check_bind_eq_some, poke_eq_some] at apply
  obtain ⟨-, -, rfl⟩ := apply
  refine ⟨s, _, hrun, ?_⟩
  rw [he.address, JitReloc.linked, he.addend]

theorem linked_eq (r : JitReloc) : r.linked = .ofNat 64 r.targetAddress + .ofInt 64 r.addend := by
  rw [JitReloc.linked, BitVec.ofInt_add, BitVec.ofInt_natCast]

/-- The addend is corrected by how far the target is from the symbol. -/
theorem add_corrected (value target addend : BitVec 64) : value + (addend + (target - value)) = target + addend := by
  rw [BitVec.add_comm, BitVec.add_assoc, BitVec.sub_add_cancel, BitVec.add_comm]

/-! ### One relocation -/

/-- The symbols that the relocations are named by: the null symbol, that of the constants, and one for every address that was met. -/
structure Linking (debug : DebugInfo) (symRodata n : ℕ) (targets : List ℕ) (s : DebugElf) : Prop where
  null : s.symtab[0]? = some nullSym
  rodata : haveRodata debug = true → ∃ sym, s.symtab[symRodata]? = some sym ∧ sym.value = .ofNat 64 debug.rodataBase
  cached : ∀ c ∈ s.extCache, c.2 ≠ 0 ∧ ∃ sym, s.symtab[c.2]? = some sym ∧ sym.value = .ofNat 64 c.1
  distinct : (s.extCache.map Prod.fst).Nodup
  known : s.extCache.map Prod.fst ⊆ targets
  count : s.symtab.length = n + s.extCache.length

/-- What a step leaves: the symbols in their places. -/
def KeepsSyms (s t : DebugElf) : Prop := ∀ (k : ℕ) (sym : Elf64Sym), s.symtab[k]? = some sym → t.symtab[k]? = some sym

theorem KeepsSyms.trans {u : DebugElf} (h : KeepsSyms s t) (h' : KeepsSyms t u) : KeepsSyms s u := fun k sym hk => h' k sym (h k sym hk)

/-- An address that was not met before gets the next symbol, whose index is not cut. -/
theorem Synthesised.linking {name : Option Wasm.Name} {address : ℕ} (hnew : Synthesised name address k s t) (h : Linking debug symRodata n targets s)
    (hmem : address ∈ targets) (hfits : n + targets.dedup.length ≤ 2 ^ 32) :
    Linking debug symRodata n targets t ∧ ∃ sym, t.symtab[k]? = some sym ∧ sym.value = .ofNat 64 address := by
  have fresh : address ∉ s.extCache.map Prod.fst := by
    intro hin
    obtain ⟨c, hc, haddress⟩ := List.mem_map.mp hin
    obtain ⟨c', hc', -, hzero⟩ := hnew.missing c hc haddress
    exact (h.cached c' hc').1 hzero
  have distinct : (address :: s.extCache.map Prod.fst).Nodup := List.nodup_cons.mpr ⟨fresh, h.distinct⟩
  have known : address :: s.extCache.map Prod.fst ⊆ targets := List.cons_subset.mpr ⟨hmem, h.known⟩
  have room : s.extCache.length + 1 ≤ targets.dedup.length := by
    have := (distinct.subperm fun a ha => List.mem_dedup.mpr (known ha)).length_le
    rwa [List.length_cons, List.length_map] at this
  have positive : 0 < s.symtab.length := (List.getElem?_eq_some_iff.mp h.null).1
  have count := h.count
  have index : k = s.symtab.length := hnew.index.trans (uint32_of_lt (by omega))
  obtain ⟨off, hsymtab⟩ := hnew.symtab
  have keeps : KeepsSyms s t := fun _ _ hk => hnew.adds.kept hk
  have last : t.symtab[k]? = some ⟨off, stInfo stbGlobal sttFunc, 0, shnUndef, .ofNat 64 address, 0⟩ := by
    rw [hsymtab, index, List.getElem?_append_right (Nat.le_refl _), Nat.sub_self]
    rfl
  refine ⟨⟨keeps _ _ h.null, fun hr => ?_, fun c hc => ?_, ?_, ?_, ?_⟩, _, last, rfl⟩
  · obtain ⟨sym, hsym, hvalue⟩ := h.rodata hr
    exact ⟨sym, keeps _ _ hsym, hvalue⟩
  · rw [hnew.extCache, List.mem_append, List.mem_singleton] at hc
    obtain hc | rfl := hc
    · obtain ⟨hne, sym, hsym, hvalue⟩ := h.cached c hc
      exact ⟨hne, sym, keeps _ _ hsym, hvalue⟩
    · exact ⟨by omega, _, last, rfl⟩
  · rw [hnew.extCache, List.map_append]
    exact (List.perm_append_singleton _ _).nodup_iff.mpr distinct
  · rw [hnew.extCache, List.map_append]
    exact fun a ha => known ((List.perm_append_singleton _ _).subset ha)
  · rw [hnew.extCache, hsymtab, List.length_append, List.length_append, h.count, Nat.add_assoc]
    rfl

/-- The sum is what was linked, unless the target is in the constants and they have no symbol. -/
theorem RelocCase.linking (hcase : RelocCase names debug symRodata r s k addend t) (h : Linking debug symRodata n targets s)
    (hmem : r.targetAddress ∈ targets) (hfits : n + targets.dedup.length ≤ 2 ^ 32) :
    Linking debug symRodata n targets t ∧ KeepsSyms s t ∧ t.relaText = s.relaText ∧
      ∃ sym, t.symtab[k]? = some sym ∧ (sym.value + addend = r.linked ↔ Covered debug r) := by
  have self : KeepsSyms s s := fun _ _ hk => hk
  cases hcase with
  | func hkind hsym =>
    refine ⟨h, self, rfl, _, hsym, iff_of_true ?_ fun hconst => ?_⟩
    · rw [add_corrected, linked_eq]
    · obtain hkind | hkind := hkind <;> simp [hkind] at hconst
  | rodata hkind hrodata =>
    obtain ⟨sym, hsym, hvalue⟩ := h.rodata hrodata
    refine ⟨h, self, rfl, sym, hsym, iff_of_true ?_ fun _ => .inl hrodata⟩
    rw [hvalue, add_corrected, linked_eq]
  | none hkind hrodata =>
    refine ⟨h, self, rfl, nullSym, h.null, ?_⟩
    rw [Covered, linked_eq, show nullSym.value = 0 from rfl, BitVec.add_left_inj, eq_comm]
    simp [hkind, hrodata]
  | synth hkind hrun =>
    have covered : Covered debug r := fun hconst => hconst.elim (fun hc => absurd hc hkind.1) fun hc => absurd hc hkind.2
    obtain ⟨rfl, hcached⟩ | hnew := synthSym_cases hrun
    · obtain ⟨-, sym, hsym, hvalue⟩ := h.cached _ hcached
      exact ⟨h, self, rfl, sym, hsym, iff_of_true (by rw [hvalue, linked_eq]) covered⟩
    · obtain ⟨h', sym, hsym, hvalue⟩ := hnew.linking h hmem hfits
      exact ⟨h', fun _ _ hk => hnew.adds.kept hk, hnew.relaText, sym, hsym, iff_of_true (by rw [hvalue, linked_eq]) covered⟩

/-! ### All relocations -/

/-- The entry of a relocation, right or wrong. -/
structure EntryOf (debug : DebugInfo) (symtab : List Elf64Sym) (r : JitReloc) (e : Elf64Rela) : Prop where
  offset : e.offset = .ofNat 64 r.address
  type : e.type = rX8664
  value : ∃ sym, symtab[e.sym]? = some sym ∧ (sym.value + e.addend = r.linked ↔ Covered debug r)

theorem EntryOf.relaOf_iff (h : EntryOf debug symtab r e) : RelaOf symtab r e ↔ Covered debug r := by
  obtain ⟨sym, hsym, hvalue⟩ := h.value
  constructor
  · rintro ⟨-, -, sym', hsym', hvalue'⟩
    obtain rfl := Option.some.inj (hsym.symm.trans hsym')
    exact hvalue.mp hvalue'
  · exact fun hcovered => ⟨h.offset, h.type, sym, hsym, hvalue.mpr hcovered⟩

theorem relasOf_iff {rs : List JitReloc} {es : List Elf64Rela} (h : List.Forall₂ (EntryOf debug symtab) rs es) :
    List.Forall₂ (RelaOf symtab) rs es ↔ ∀ r ∈ rs, Covered debug r := by
  induction h with
  | nil => simp
  | cons hr _ ih => rw [List.forall₂_cons, hr.relaOf_iff, ih, List.forall_mem_cons]

/-- One entry for every absolute relocation, in their order. -/
theorem emitRelas_linking {relocs : List JitReloc} (hrun : relocs.forM (emitRela names m debug symRodata) s = some ((), t))
    (h : Linking debug symRodata n targets s) (hmem : ∀ r ∈ relocs, r.kind = .abs64 → r.targetAddress ∈ targets)
    (hfits : n + targets.dedup.length ≤ 2 ^ 32) :
    KeepsSyms s t ∧ ∃ es, t.relaText = s.relaText ++ es ∧ List.Forall₂ (EntryOf debug t.symtab) (relocs.filter fun r => r.kind = .abs64) es := by
  induction relocs generalizing s with
  | nil =>
    obtain ⟨-, rfl⟩ := Prod.mk.inj (Option.some.inj hrun)
    exact ⟨fun _ _ hk => hk, [], (List.append_nil _).symm, .nil⟩
  | cons r relocs ih =>
    rw [List.forM_eq_forM, List.forM_cons] at hrun
    obtain ⟨_, u, hfirst, hrest⟩ := (bind_eq_some _ _ _ _).mp hrun
    have hmem' : ∀ r ∈ relocs, r.kind = .abs64 → r.targetAddress ∈ targets := fun r hr => hmem r (List.mem_cons_of_mem _ hr)
    obtain ⟨hkind, rfl⟩ | ⟨hkind, k, addend, v, hcase, rfl⟩ := emitRela_cases hfirst
    · obtain ⟨hkeeps, es, hes, hentries⟩ := ih hrest h hmem'
      rw [List.filter_cons_of_neg (by simpa using hkind)]
      exact ⟨hkeeps, es, hes, hentries⟩
    · obtain ⟨hv, hkeeps, hrela, sym, hsym, hvalue⟩ := hcase.linking h (hmem r List.mem_cons_self hkind) hfits
      obtain ⟨hkeeps', es, hes, hentries⟩ := ih hrest ⟨hv.null, hv.rodata, hv.cached, hv.distinct, hv.known, hv.count⟩ hmem'
      rw [List.filter_cons_of_pos (by simpa using hkind)]
      refine ⟨hkeeps.trans hkeeps', ⟨.ofNat 64 r.address, k, rX8664, addend⟩ :: es, ?_,
        .cons ⟨rfl, rfl, sym, hkeeps' _ _ hsym, hvalue⟩ hentries⟩
      rw [hes, hrela, List.append_assoc]
      rfl

theorem importSymbols_length_le {i : ℕ} {imports : List Wasm.WasmImport} {ds : List DebugSymbol}
    (h : importSymbols m debug i imports = some ds) : ds.length ≤ imports.length := by
  induction imports generalizing i ds with
  | nil =>
    obtain rfl := Option.some.inj h
    exact Nat.le_refl 0
  | cons imp imports ih =>
    simp only [importSymbols, Option.bind_eq_bind, Option.bind_eq_some_iff, Option.pure_def, Option.some.injEq] at h
    obtain ⟨first, hfirst, rest, hrest, rfl⟩ := h
    have one : first.length ≤ 1 := by
      rw [importSymbol] at hfirst
      split_ifs at hfirst
      · obtain ⟨label, -, rfl⟩ := Option.map_eq_some_iff.mp hfirst
        exact Nat.le_refl 1
      · obtain rfl := Option.some.inj hfirst
        exact Nat.zero_le 1
    have := ih hrest
    rw [List.length_append, List.length_cons]
    omega

/-- The tables in front of the relocations. -/
theorem FrontSymbols.linking {firstGlobal : ℕ} {imports funcs aliases : List DebugSymbol} (targets : List ℕ)
    (h : FrontSymbols m debug symRodata firstGlobal imports funcs aliases s) :
    Linking debug symRodata s.symtab.length targets s ∧ s.symtab.length ≤ 4 + m.imports.length + debug.funcs.length + m.exports.length := by
  have count := h.adds.length_eq
  have few := localSymbols_length_le m debug
  have importCount := importSymbols_length_le h.imports
  have funcCount := h.funcs.length_eq
  have aliasCount := h.aliasCount
  refine ⟨⟨h.null, fun hr => ?_, by simp [h.extCache], by simp [h.extCache], by simp [h.extCache], by simp [h.extCache]⟩, ?_⟩
  · obtain ⟨syms, hsyms, hin⟩ := h.adds.symtab
    have index := h.rodata hr
    have last : (localSymbols m debug ++ imports ++ funcs ++ aliases)[symRodata]? =
        some { info := stInfo stbLocal sttSection, shndx := .ofNat 16 debug.indices.rodata, value := .ofNat 64 debug.rodataBase } := by
      rw [List.append_assoc, List.append_assoc, List.getElem?_append_left (by omega)]
      rw [localSymbols, if_pos hr, List.length_append] at index
      rw [localSymbols, if_pos hr, List.getElem?_append_right (by simpa using index.ge), Nat.sub_eq_zero_of_le (by simpa using index.le)]
      rfl
    obtain ⟨sym, hsym, off, -, hfields⟩ := getElem?_of_forall₂ hin last
    refine ⟨sym, ?_, by rw [hfields]⟩
    rw [hsyms]
    exact hsym
  · simp only [List.length_append] at count
    change s.symtab.length = 0 + _ at count
    omega

/-- The entries are those of the absolute relocations exactly when there is a section for them and their targets are covered. -/
theorem emitTables_relas {firstGlobal : ℕ} {tables : DebugElf} (hrun : emitTables names m debug {} = some (firstGlobal, tables))
    (hfits : symbolBound m debug ≤ 2 ^ 32) : List.Forall₂ (RelaOf tables.symtab) (absRelocs debug) tables.relaText ↔
      (haveRela debug = true ∨ absRelocs debug = []) ∧ ∀ r ∈ absRelocs debug, Covered debug r := by
  obtain ⟨symRodata, s₁, s₂, s₃, s₄, hruns⟩ := emitTables_eq_some hrun
  obtain ⟨imports, funcs, aliases, hfront⟩ := hruns.front
  obtain ⟨hlinking, hcount⟩ := hfront.linking ((absRelocs debug).map JitReloc.targetAddress)
  have hrelas := hruns.relas
  rw [emitRelas] at hrelas
  split_ifs at hrelas with hrela
  · have hmem : ∀ r ∈ debug.relocs, r.kind = .abs64 → r.targetAddress ∈ (absRelocs debug).map JitReloc.targetAddress := fun r hr hkind =>
      List.mem_map_of_mem (List.mem_filter.mpr ⟨hr, by simpa using hkind⟩)
    obtain ⟨-, es, hes, hentries⟩ := emitRelas_linking hrelas hlinking hmem (by rw [symbolBound] at hfits; omega)
    rw [hfront.relaText, List.nil_append] at hes
    rw [hes, absRelocs, relasOf_iff hentries]
    simp [hrela]
  · obtain ⟨-, rfl⟩ := Prod.mk.inj (Option.some.inj hrelas)
    rw [hfront.relaText]
    cases habs : absRelocs debug with
    | nil => simp
    | cons r rs => simp [hrela]

variable {host : JitHost} {emitter : Emitter} {ctx : JitContext} {fuel size : ℕ} {jit : WasmModuleJit} {file : Memory UInt8}

/-- The relocations in the file lead to what the linker stored exactly when they have a section and every target in the constants or
in a table is covered, as long as the symbols can be counted with 32 bits. -/
theorem debug_relas_iff {firstGlobal : ℕ} {tables : DebugElf} (hjit : jitCodegen host emitter true fuel ctx = some jit)
    (hrun : wasmJitEmitDebugElf names ctx.module jit = some (file, size))
    (htables : emitTables names ctx.module jit.debug {} = some (firstGlobal, tables)) (hfits : symbolBound ctx.module jit.debug ≤ 2 ^ 32) :
    (List.Forall₂ (RelaOf tables.symtab) (absRelocs jit.debug) tables.relaText ↔
      (haveRela jit.debug = true ∨ absRelocs jit.debug = []) ∧ ∀ r ∈ absRelocs jit.debug, Covered jit.debug r) ∧
    (∃ maps cg, jitCodegenPrepareDebugMaps ctx = some maps ∧ codegenAll emitter ctx fuel {} = some ((), cg) ∧
      List.Forall₂ (fun p e => RecordOf (captureLinker host ctx cg jit.binary maps) p e ∧
        (e.kind = .abs64 → StoredAt (captureLinker host ctx cg jit.binary maps) p e)) (relocsOf cg.functions) jit.debug.relocs) ∧
    (haveRela jit.debug = true → ∃ ehdr symtab rela, readEhdr file = some ehdr ∧
      Found file ehdr jit.debug.indices.symtab (ascii ".symtab") symtab ∧ symtab.contents file = some tables.symtabBytes ∧
      Found file ehdr jit.debug.indices.rela (ascii ".rela.text") rela ∧ rela.contents file = some tables.relaBytes) := by
  refine ⟨emitTables_relas htables hfits, ?_, fun hrela => ?_⟩
  · obtain ⟨maps, cg, hmaps, hcodegen, -, hrecords⟩ := jitCodegen_recorded hjit
    exact ⟨maps, cg, hmaps, hcodegen, hrecords.imp fun _ _ h => ⟨h.1, h.2.stored h.1⟩⟩
  · obtain ⟨⟨firstGlobal', tables'⟩, htables', hstitch⟩ := Option.bind_eq_some_iff.mp hrun
    obtain ⟨rfl, rfl⟩ := Prod.mk.inj (Option.some.inj (htables.symm.trans htables'))
    obtain ⟨code, rodata, h⟩ := stitch_eq_some hstitch
    obtain ⟨symtab, hsymtab, hcontents, -⟩ := h.symtab_section
    obtain ⟨rela, hfound, hrelaContents⟩ := h.rela_section hrela
    exact ⟨_, symtab, rela, h.readEhdr_eq, hsymtab, hcontents, hfound, hrelaContents⟩

theorem debug_relas_iff_named : ∃ ctx jit file size firstGlobal tables,
    jitEmitSpidir 2 (startContext namedModule fun _ _ _ => none) = some ([1, 2, 0], ctx) ∧
    jitCodegen sampleHost recursiveEmitter true 10 ctx = some jit ∧ wasmJitEmitDebugElf sampleNames ctx.module jit = some (file, size) ∧
    emitTables sampleNames ctx.module jit.debug {} = some (firstGlobal, tables) ∧ (absRelocs jit.debug).length = 1 ∧
    List.Forall₂ (RelaOf tables.symtab) (absRelocs jit.debug) tables.relaText := by
  have run : ((jitEmitSpidir 2 (startContext namedModule fun _ _ _ => none)).bind fun r =>
      (jitCodegen sampleHost recursiveEmitter true 10 r.2).bind fun jit => (emitTables sampleNames r.2.module jit.debug {}).map fun f =>
        (r.1, (absRelocs jit.debug).length, decide (symbolBound r.2.module jit.debug ≤ 2 ^ 32 ∧ haveRela jit.debug = true ∧
          (∀ e ∈ absRelocs jit.debug, Covered jit.debug e) ∧ (fileOffsets jit.debug f.2).size < 2 ^ 64 ∧
          (jit.image.load jit.debug.codeBase jit.debug.codeSize).isSome ∧ (jit.image.load jit.debug.rodataBase jit.debug.rodataSize).isSome))) =
      some ([1, 2, 0], 1, true) := by decide +kernel
  obtain ⟨⟨built, ctx⟩, hemit, run⟩ := Option.bind_eq_some_iff.mp run
  obtain ⟨jit, hjit, run⟩ := Option.bind_eq_some_iff.mp run
  obtain ⟨⟨firstGlobal, tables⟩, htables, run⟩ := Option.map_eq_some_iff.mp run
  simp only [Prod.mk.injEq, decide_eq_true_eq] at run
  obtain ⟨rfl, hcount, hfits, hrela, hcovered, hsize, hcode, hrodata⟩ := run
  obtain ⟨⟨file, size⟩, hfile⟩ := Option.isSome_iff_exists.mp (stitch_isSome firstGlobal hsize hcode hrodata)
  have emitted : wasmJitEmitDebugElf sampleNames ctx.module jit = some (file, size) := by
    simp only [wasmJitEmitDebugElf, htables, Option.bind_eq_bind, Option.bind_some, hfile]
  exact ⟨ctx, jit, file, size, _, _, hemit, hjit, emitted, htables, hcount,
    (debug_relas_iff hjit emitted htables hfits).1.mpr ⟨.inl hrela, hcovered⟩⟩

/-! ### An empty table -/

/-- A call through a table without entries. -/
def emptyTableModule : WasmModule where
  types := [{}]
  functions := [0]
  exports := [{ name := some (ascii "f"), kind := .func, index := 0 }]
  tables := [{ min := 0, max := 0 }]
  code := some [[0, 0x41, 0, 0x11, 0, 0, 0x0B]]
  startFunc := -1

/-- The address of the table is moved into a register. -/
def emptyTableEmitter : Emitter := fun _ => some {
  code := [0x48, 0xB8, 0, 0, 0, 0, 0, 0, 0, 0, 0xC3]
  relocs := [{ offset := 2, addend := 0, kind := .abs64, target := .global 0 }] }

/-- The table lies behind the code, but the entry names the null symbol and an addend of 0. -/
theorem debug_relas_iff_empty_table : ∃ ctx jit file size firstGlobal tables,
    jitEmitSpidir 2 (startContext emptyTableModule fun _ _ _ => none) = some ([0], ctx) ∧
    jitCodegen sampleHost emptyTableEmitter true 10 ctx = some jit ∧ wasmJitEmitDebugElf sampleNames ctx.module jit = some (file, size) ∧
    emitTables sampleNames ctx.module jit.debug {} = some (firstGlobal, tables) ∧
    (absRelocs jit.debug).map JitReloc.linked = [0x7F0000001000] ∧ tables.relaText = [⟨0x7F0000000012, 0, rX8664, 0⟩] ∧
    ¬List.Forall₂ (RelaOf tables.symtab) (absRelocs jit.debug) tables.relaText := by
  have run : ((jitEmitSpidir 2 (startContext emptyTableModule fun _ _ _ => none)).bind fun r =>
      (jitCodegen sampleHost emptyTableEmitter true 10 r.2).bind fun jit => (emitTables sampleNames r.2.module jit.debug {}).map fun f =>
        (r.1, (absRelocs jit.debug).map JitReloc.linked, f.2.relaText, decide (symbolBound r.2.module jit.debug ≤ 2 ^ 32 ∧
          ¬(∀ e ∈ absRelocs jit.debug, Covered jit.debug e) ∧ (fileOffsets jit.debug f.2).size < 2 ^ 64 ∧
          (jit.image.load jit.debug.codeBase jit.debug.codeSize).isSome ∧ (jit.image.load jit.debug.rodataBase jit.debug.rodataSize).isSome))) =
      some ([0], [0x7F0000001000], [⟨0x7F0000000012, 0, rX8664, 0⟩], true) := by decide +kernel
  obtain ⟨⟨built, ctx⟩, hemit, run⟩ := Option.bind_eq_some_iff.mp run
  obtain ⟨jit, hjit, run⟩ := Option.bind_eq_some_iff.mp run
  obtain ⟨⟨firstGlobal, tables⟩, htables, run⟩ := Option.map_eq_some_iff.mp run
  simp only [Prod.mk.injEq, decide_eq_true_eq] at run
  obtain ⟨rfl, hlinked, hentries, hfits, hcovered, hsize, hcode, hrodata⟩ := run
  obtain ⟨⟨file, size⟩, hfile⟩ := Option.isSome_iff_exists.mp (stitch_isSome firstGlobal hsize hcode hrodata)
  have emitted : wasmJitEmitDebugElf sampleNames ctx.module jit = some (file, size) := by
    simp only [wasmJitEmitDebugElf, htables, Option.bind_eq_bind, Option.bind_some, hfile]
  exact ⟨ctx, jit, file, size, _, _, hemit, hjit, emitted, htables, hlinked, hentries,
    fun h => hcovered ((emitTables_relas htables hfits).mp h).2⟩

end SpidirWasm.Jit
