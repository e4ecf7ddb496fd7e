import SpidirWasm.Jit.Capture
import SpidirWasm.Jit.DebugFile

/-! The symbols of the debug ELF, with their labels in place of offsets. Every loop adds
symbols behind those that are there and strings behind the strings, so that what a symbol
was given stays true of it. -/

namespace SpidirWasm.Jit

open Checked
open Elf64
open StringTable (Holds cString stringAt)
open Wasm (WasmModule WasmImport WasmExport Name)

/-- A symbol with its label. -/
structure DebugSymbol where
  label : Name := []
  info : BitVec 8
  shndx : BitVec 16
  value : BitVec 64 := 0
  size : BitVec 64 := 0
  deriving DecidableEq, Repr

/-- A label as the string table shows it. -/
def sanitise (str : List UInt8) : List UInt8 := (cString str).map printable

/-- The entry of a symbol whose label is in the string table; its offset is cut to 32 bits. -/
def DebugSymbol.In (strtab : List UInt8) (d : DebugSymbol) (sym : Elf64Sym) : Prop :=
  ∃ off, Holds strtab off d.label ∧ sym = ⟨.ofNat 32 off, d.info, 0, d.shndx, d.value, d.size⟩

/-- What is added to the tables: symbols, and their strings. -/
structure AddsSymbols (ds : List DebugSymbol) (s t : DebugElf) : Prop where
  symtab : ∃ syms, t.symtab = s.symtab ++ syms ∧ List.Forall₂ (DebugSymbol.In t.strtab) ds syms
  strtab : ∃ more, t.strtab = s.strtab ++ more

/-- Every symbol that is added has a string of its own. -/
def Roomy (s t : DebugElf) : Prop := t.symtab.length + s.strtab.length ≤ s.symtab.length + t.strtab.length

variable {s t u : DebugElf} {ds ds' : List DebugSymbol} {m : WasmModule} {debug : DebugInfo} {i : ℕ}

theorem Roomy.one {sym : Elf64Sym} (str : List UInt8) (hsymtab : t.symtab = s.symtab ++ [sym]) (hstrtab : t.strtab = s.strtab ++ str ++ [0]) :
    Roomy s t := by
  rw [Roomy, hsymtab, hstrtab]
  simp only [List.length_append, List.length_singleton]
  omega

theorem printable_ne_zero (b : UInt8) : printable b ≠ 0 := by
  rw [printable]
  split_ifs with h
  · decide
  · rintro rfl
    exact h (.inl (by decide))

theorem zero_not_mem_sanitise (str : List UInt8) : 0 ∉ sanitise str := by
  intro h
  obtain ⟨b, -, hb⟩ := List.mem_map.mp h
  exact printable_ne_zero b hb

theorem DebugSymbol.In.append {strtab : List UInt8} {d : DebugSymbol} {sym : Elf64Sym} (h : d.In strtab sym) (more : List UInt8) :
    d.In (strtab ++ more) sym := by
  obtain ⟨off, hoff, hsym⟩ := h
  exact ⟨off, hoff.append more, hsym⟩

namespace AddsSymbols

theorem refl (s : DebugElf) : AddsSymbols [] s s := ⟨⟨[], (List.append_nil _).symm, .nil⟩, ⟨[], (List.append_nil _).symm⟩⟩

theorem trans (h : AddsSymbols ds s t) (h' : AddsSymbols ds' t u) : AddsSymbols (ds ++ ds') s u := by
  obtain ⟨⟨syms, hsyms, hin⟩, ⟨more, hmore⟩⟩ := h
  obtain ⟨⟨syms', hsyms', hin'⟩, ⟨more', hmore'⟩⟩ := h'
  refine ⟨⟨syms ++ syms', by rw [hsyms', hsyms, List.append_assoc], List.rel_append ?_ hin'⟩,
    ⟨more ++ more', by rw [hmore', hmore, List.append_assoc]⟩⟩
  rw [hmore']
  exact hin.imp fun d sym hd => hd.append more'

/-- A symbol whose string is added with it. -/
theorem one {str : List UInt8} {info : BitVec 8} {shndx : BitVec 16} {value size : BitVec 64} (hstr : 0 ∉ str)
    (hsymtab : t.symtab = s.symtab ++ [⟨.ofNat 32 s.strtab.length, info, 0, shndx, value, size⟩])
    (hstrtab : t.strtab = s.strtab ++ str ++ [0]) : AddsSymbols [⟨str, info, shndx, value, size⟩] s t := by
  refine ⟨⟨_, hsymtab, .cons ⟨s.strtab.length, ?_, rfl⟩ .nil⟩, ⟨str ++ [0], by rw [hstrtab, List.append_assoc]⟩⟩
  rw [hstrtab]
  exact StringTable.holds_added _ hstr

/-- A symbol without a label. -/
theorem unnamed {info : BitVec 8} {shndx : BitVec 16} {value size : BitVec 64} {strings : List UInt8} (hzero : s.strtab = 0 :: strings)
    (hsymtab : t.symtab = s.symtab ++ [⟨0, info, 0, shndx, value, size⟩]) (hstrtab : t.strtab = s.strtab) :
    AddsSymbols [⟨[], info, shndx, value, size⟩] s t := by
  refine ⟨⟨_, hsymtab, .cons ⟨0, ?_, rfl⟩ .nil⟩, ⟨[], by rw [hstrtab, List.append_nil]⟩⟩
  rw [hstrtab, hzero]
  exact StringTable.holds_zero strings

/-- One symbol is added for each. -/
theorem length_eq (h : AddsSymbols ds s t) : t.symtab.length = s.symtab.length + ds.length := by
  obtain ⟨syms, hsyms, hin⟩ := h.symtab
  rw [hsyms, List.length_append, hin.length_eq]

/-- A symbol stays where it is. -/
theorem kept (h : AddsSymbols ds s t) {k : ℕ} {sym : Elf64Sym} (hk : s.symtab[k]? = some sym) : t.symtab[k]? = some sym := by
  obtain ⟨syms, hsyms, -⟩ := h.symtab
  rw [hsyms, List.getElem?_append_left (List.getElem?_eq_some_iff.mp hk).1, hk]

end AddsSymbols

/-! ### Locals -/

/-- The null symbol, the name of the module and the sections. -/
def localSymbols (m : WasmModule) (debug : DebugInfo) : List DebugSymbol :=
  [{ info := stInfo stbLocal sttNotype, shndx := shnUndef }] ++
  m.moduleName.toList.map (fun name => { label := sanitise name, info := stInfo stbLocal sttObject, shndx := shnAbs }) ++
  [{ info := stInfo stbLocal sttSection, shndx := .ofNat 16 debug.indices.text, value := .ofNat 64 debug.codeBase }] ++
  if haveRodata debug then
    [{ info := stInfo stbLocal sttSection, shndx := .ofNat 16 debug.indices.rodata, value := .ofNat 64 debug.rodataBase }] else []

theorem localSymbols_length_le (m : WasmModule) (debug : DebugInfo) : (localSymbols m debug).length ≤ 4 := by
  rw [localSymbols]
  cases m.moduleName <;> split_ifs <;> simp

/-- The null symbol. -/
def nullSym : Elf64Sym := ⟨0, stInfo stbLocal sttNotype, 0, shnUndef, 0, 0⟩

/-- The locals, the null symbol in front, and the symbol of the constants. -/
theorem emitLocals_adds {symRodata : ℕ} (hrun : emitLocals m debug {} = some (symRodata, t)) :
    AddsSymbols (localSymbols m debug) {} t ∧ t.symtab[0]? = some nullSym ∧
      (haveRodata debug = true → symRodata + 1 = (localSymbols m debug).length) := by
  obtain ⟨_, s₁, hnull, hrun⟩ := (bind_eq_some _ _ _ _).mp hrun
  obtain ⟨-, rfl⟩ := Prod.mk.inj (Option.some.inj hnull)
  obtain ⟨_, s₂, hname, hrun⟩ := (bind_eq_some _ _ _ _).mp hrun
  obtain ⟨_, s₃, htext, hrun⟩ := (bind_eq_some _ _ _ _).mp hrun
  obtain ⟨-, rfl⟩ := Prod.mk.inj (Option.some.inj htext)
  have named : AddsSymbols (m.moduleName.toList.map fun name => { label := sanitise name, info := stInfo stbLocal sttObject, shndx := shnAbs })
      { ({} : DebugElf) with symtab := [nullSym] } s₂ := by
    cases hm : m.moduleName with
    | none =>
      rw [hm] at hname
      obtain ⟨-, rfl⟩ := Prod.mk.inj (Option.some.inj hname)
      exact .refl _
    | some name =>
      rw [hm] at hname
      obtain ⟨-, rfl⟩ := Prod.mk.inj (Option.some.inj hname)
      exact .one (zero_not_mem_sanitise name) rfl rfl
  obtain ⟨strings, hstrings⟩ := named.strtab
  have null : AddsSymbols [{ info := stInfo stbLocal sttNotype, shndx := shnUndef }] {}
      { ({} : DebugElf) with symtab := [nullSym] } := .unnamed rfl rfl rfl
  let s₃ : DebugElf := { s₂ with
    symtab := s₂.symtab ++ [⟨0, stInfo stbLocal sttSection, 0, .ofNat 16 debug.indices.text, .ofNat 64 debug.codeBase, 0⟩] }
  have text : AddsSymbols [{ info := stInfo stbLocal sttSection, shndx := .ofNat 16 debug.indices.text, value := .ofNat 64 debug.codeBase }]
      s₂ s₃ := .unnamed hstrings rfl rfl
  have front := (null.trans named).trans text
  have first := @AddsSymbols.kept _ _ _ (named.trans text) 0 nullSym rfl
  have count := front.length_eq
  split_ifs at hrun with hrodata
  · rw [nextSym, read_bind] at hrun
    obtain ⟨_, s₄, hpush, hret⟩ := (bind_eq_some _ _ _ _).mp hrun
    obtain ⟨-, rfl⟩ := Prod.mk.inj (Option.some.inj hpush)
    obtain ⟨rfl, rfl⟩ := Prod.mk.inj (Option.some.inj hret)
    have constants : AddsSymbols
        [{ info := stInfo stbLocal sttSection, shndx := .ofNat 16 debug.indices.rodata, value := .ofNat 64 debug.rodataBase }] s₃
        { s₃ with symtab := s₃.symtab ++
          [⟨0, stInfo stbLocal sttSection, 0, .ofNat 16 debug.indices.rodata, .ofNat 64 debug.rodataBase, 0⟩] } := .unnamed hstrings rfl rfl
    rw [localSymbols, if_pos hrodata]
    refine ⟨front.trans constants, constants.kept first, fun _ => ?_⟩
    have few : m.moduleName.toList.length ≤ 1 := by cases m.moduleName <;> simp
    show uint32 s₃.symtab.length + 1 = _
    rw [count, uint32]
    simp only [List.length_append, List.length_map, List.length_singleton, List.length_nil]
    omega
  · obtain ⟨rfl, rfl⟩ := Prod.mk.inj (Option.some.inj hrun)
    rw [localSymbols, if_neg hrodata, List.append_nil]
    exact ⟨front, first, fun h => absurd h hrodata⟩

/-! ### Functions -/

/-- The symbol of an import of a function. -/
def importSymbol (m : WasmModule) (debug : DebugInfo) (i : ℕ) (imp : WasmImport) : Option (List DebugSymbol) :=
  if imp.kind = .func then
    (makeFuncLabel m i).map fun label => [{
      label := sanitise label, info := stInfo stbGlobal sttFunc, shndx := shnUndef, value := .ofNat 64 (importAddress debug i) }]
  else some []

/-- The symbols of the imports, from the `i`-th on. -/
def importSymbols (m : WasmModule) (debug : DebugInfo) : ℕ → List WasmImport → Option (List DebugSymbol)
  | _, [] => some []
  | i, imp :: imports => do return (← importSymbol m debug i imp) ++ (← importSymbols m debug (i + 1) imports)

/-- The symbol of an emitted function or thunk. -/
def layoutSymbol (m : WasmModule) (debug : DebugInfo) (fl : FuncLayout) : Option DebugSymbol :=
  (makeFuncLabel m fl.funcidx).map fun label => {
    label := if fl.cfiThunk then ascii "cfi." ++ sanitise label else sanitise label
    info := stInfo stbGlobal sttFunc
    shndx := .ofNat 16 debug.indices.text
    value := .ofNat 64 fl.address
    size := .ofNat 64 fl.codeSize }

theorem setSlot_eq_some {funcidx : ℕ} {f : FuncSymSlot → FuncSymSlot} (hrun : setSlot funcidx f s = some ((), t)) :
    funcidx < s.slots.length ∧ t = { s with slots := s.slots.modify funcidx f } := by
  rw [setSlot, read_bind, check_bind_eq_some] at hrun
  obtain ⟨hlt, he⟩ := hrun
  exact ⟨hlt, (Prod.mk.inj (Option.some.inj he)).2.symm⟩

/-- The symbol of an import is added, and goes into its slot. -/
theorem emitImport_adds {imp : WasmImport} (hrun : emitImport m debug i imp s = some ((), t)) :
    ∃ ds, importSymbol m debug i imp = some ds ∧ AddsSymbols ds s t ∧ Roomy s t ∧
      (imp.kind = .func → i < s.slots.length ∧ t.slots = s.slots.modify i fun slot => { slot with symIndex := uint32 s.symtab.length }) ∧
      (imp.kind ≠ .func → t.slots = s.slots) := by
  rw [emitImport] at hrun
  split_ifs at hrun with hkind
  · obtain ⟨label, hlabel, hrun⟩ := (lift_bind_eq_some _ _ _ _).mp hrun
    obtain ⟨_, s₁, hstr, hrun⟩ := (bind_eq_some _ _ _ _).mp hrun
    obtain ⟨rfl, rfl⟩ := Prod.mk.inj (Option.some.inj hstr)
    rw [nextSym, read_bind] at hrun
    obtain ⟨_, s₂, hslot, hpush⟩ := (bind_eq_some _ _ _ _).mp hrun
    obtain ⟨hlt, rfl⟩ := setSlot_eq_some hslot
    obtain ⟨-, rfl⟩ := Prod.mk.inj (Option.some.inj hpush)
    refine ⟨_, by rw [importSymbol, if_pos hkind, hlabel, Option.map_some], .one (zero_not_mem_sanitise label) rfl rfl,
      .one (sanitise label) rfl rfl, fun _ => ⟨hlt, rfl⟩, fun hne => absurd hkind hne⟩
  · obtain ⟨-, rfl⟩ := Prod.mk.inj (Option.some.inj hrun)
    exact ⟨[], by rw [importSymbol, if_neg hkind], .refl s, Nat.le_refl _, fun hk => absurd hk hkind, fun _ => rfl⟩

/-- The symbol of a function or thunk is added, and goes into its slot. -/
theorem emitLayout_adds {fl : FuncLayout} (hrun : emitLayout m debug fl s = some ((), t)) :
    ∃ d, layoutSymbol m debug fl = some d ∧ AddsSymbols [d] s t ∧ Roomy s t ∧ fl.funcidx < s.slots.length ∧
      t.slots = s.slots.modify fl.funcidx fun slot =>
        if fl.cfiThunk then { slot with cfiSymIndex := uint32 s.symtab.length } else { slot with symIndex := uint32 s.symtab.length } := by
  rw [emitLayout] at hrun
  obtain ⟨label, hlabel, hrun⟩ := (lift_bind_eq_some _ _ _ _).mp hrun
  rw [nextSym, read_bind] at hrun
  obtain ⟨_, s₁, hstr, hrun⟩ := (bind_eq_some _ _ _ _).mp hrun
  obtain ⟨rfl, rfl⟩ := Prod.mk.inj (Option.some.inj hstr)
  obtain ⟨_, s₂, hslot, hpush⟩ := (bind_eq_some _ _ _ _).mp hrun
  obtain ⟨hlt, rfl⟩ := setSlot_eq_some hslot
  obtain ⟨-, rfl⟩ := Prod.mk.inj (Option.some.inj hpush)
  have labelled : layoutSymbol m debug fl = some ⟨if fl.cfiThunk then ascii "cfi." ++ sanitise label else sanitise label,
      stInfo stbGlobal sttFunc, .ofNat 16 debug.indices.text, .ofNat 64 fl.address, .ofNat 64 fl.codeSize⟩ := by
    rw [layoutSymbol, hlabel, Option.map_some]
  have string : (if fl.cfiThunk then strtabEmitPrefixedStr s.strtab (ascii "cfi.") label else strtabEmitStr s.strtab label) =
      (.ofNat 32 s.strtab.length, s.strtab ++ (if fl.cfiThunk then ascii "cfi." ++ sanitise label else sanitise label) ++ [0]) := by
    have front : sanitise (ascii "cfi.") = ascii "cfi." := by decide
    cases fl.cfiThunk with
    | true =>
      show (_, s.strtab ++ sanitise (ascii "cfi.") ++ sanitise label ++ [0]) = (_, s.strtab ++ (ascii "cfi." ++ sanitise label) ++ [0])
      rw [front, List.append_assoc s.strtab]
    | false => rfl
  have nul : 0 ∉ if fl.cfiThunk then ascii "cfi." ++ sanitise label else sanitise label := by
    split_ifs
    · rw [List.mem_append, not_or]
      exact ⟨by decide, zero_not_mem_sanitise label⟩
    · exact zero_not_mem_sanitise label
  simp only [string]
  exact ⟨_, labelled, .one nul rfl rfl, .one _ rfl rfl, hlt, trivial⟩

theorem emitImports_adds {imports : List WasmImport} (hrun : emitImports m debug i imports s = some ((), t)) :
    ∃ ds, importSymbols m debug i imports = some ds ∧ AddsSymbols ds s t := by
  induction imports generalizing i s with
  | nil =>
    obtain ⟨-, rfl⟩ := Prod.mk.inj (Option.some.inj hrun)
    exact ⟨[], rfl, .refl s⟩
  | cons imp imports ih =>
    obtain ⟨_, u, hfirst, hrest⟩ := (bind_eq_some _ _ _ _).mp hrun
    obtain ⟨ds, hds, hadds, -⟩ := emitImport_adds hfirst
    obtain ⟨ds', hds', hadds'⟩ := ih hrest
    refine ⟨ds ++ ds', ?_, hadds.trans hadds'⟩
    simp only [importSymbols, hds, hds', Option.bind_eq_bind, Option.bind_some, Option.pure_def]

theorem emitLayouts_adds {funcs : List FuncLayout} (hrun : funcs.forM (emitLayout m debug) s = some ((), t)) :
    ∃ ds, List.Forall₂ (fun fl d => layoutSymbol m debug fl = some d) funcs ds ∧ AddsSymbols ds s t := by
  induction funcs generalizing s with
  | nil =>
    obtain ⟨-, rfl⟩ := Prod.mk.inj (Option.some.inj hrun)
    exact ⟨[], .nil, .refl s⟩
  | cons fl funcs ih =>
    rw [List.forM_eq_forM, List.forM_cons] at hrun
    obtain ⟨_, u, hfirst, hrest⟩ := (bind_eq_some _ _ _ _).mp hrun
    obtain ⟨d, hd, hadds, -⟩ := emitLayout_adds hfirst
    obtain ⟨ds, hds, hadds'⟩ := ih hrest
    exact ⟨d :: ds, .cons hd hds, hadds.trans hadds'⟩

/-! ### Aliases -/

/-- The alias of an export whose primary symbol is `primary`. -/
def aliasSymbol (name : Name) (primary : Elf64Sym) : DebugSymbol where
  label := sanitise name
  info := stInfo stbGlobal sttFunc
  shndx := primary.shndx
  value := primary.value
  size := primary.size

/-- What becomes of an export: nothing is added, as it is no function with a primary symbol or has the name of that symbol, or
an alias is. -/
theorem emitAlias_cases {e : WasmExport} (hrun : emitAlias m e s = some ((), t)) :
    t = s ∧ (e.kind = .func → e.index < m.totalFuncs → ∃ slot, s.slots[e.index]? = some slot ∧ slot.symIndex = 2 ^ 32 - 1) ∨
    ∃ slot primary name, e.kind = .func ∧ s.slots[e.index]? = some slot ∧ slot.symIndex ≠ 2 ^ 32 - 1 ∧
      s.symtab[slot.symIndex]? = some primary ∧ e.name = some name ∧
      (stringAt s.strtab primary.name.toNat = cString name ∧ t = s ∨ AddsSymbols [aliasSymbol name primary] s t ∧ t.slots = s.slots) := by
  rw [emitAlias] at hrun
  split_ifs at hrun with hfunc
  · rw [read_bind] at hrun
    obtain ⟨slot, hslot, hrun⟩ := (lift_bind_eq_some _ _ _ _).mp hrun
    split_ifs at hrun with hindex
    · rw [read_bind] at hrun
      obtain ⟨primary, hprimary, hrun⟩ := (lift_bind_eq_some _ _ _ _).mp hrun
      obtain ⟨name, hname, hrun⟩ := (lift_bind_eq_some _ _ _ _).mp hrun
      rw [read_bind] at hrun
      refine .inr ⟨slot, primary, name, hfunc.1, hslot, hindex, hprimary, hname, ?_⟩
      split_ifs at hrun with hsame
      · obtain ⟨_, s₁, hstr, hpush⟩ := (bind_eq_some _ _ _ _).mp hrun
        obtain ⟨rfl, rfl⟩ := Prod.mk.inj (Option.some.inj hstr)
        obtain ⟨-, rfl⟩ := Prod.mk.inj (Option.some.inj hpush)
        exact .inr ⟨.one (zero_not_mem_sanitise name) rfl rfl, rfl⟩
      · obtain ⟨-, rfl⟩ := Prod.mk.inj (Option.some.inj hrun)
        exact .inl ⟨not_not.mp hsame, rfl⟩
    · obtain ⟨-, rfl⟩ := Prod.mk.inj (Option.some.inj hrun)
      exact .inl ⟨rfl, fun _ _ => ⟨slot, hslot, not_not.mp hindex⟩⟩
  · obtain ⟨-, rfl⟩ := Prod.mk.inj (Option.some.inj hrun)
    exact .inl ⟨rfl, fun hk hlt => absurd ⟨hk, hlt⟩ hfunc⟩

/-- Every alias is that of an export. -/
theorem emitAliases_adds {exports : List WasmExport} (hrun : exports.forM (emitAlias m) s = some ((), t)) :
    ∃ ds, ds.length ≤ exports.length ∧ (∀ d ∈ ds, ∃ e ∈ exports, ∃ name primary, e.kind = .func ∧ e.name = some name ∧
      primary ∈ t.symtab ∧ d = aliasSymbol name primary) ∧ AddsSymbols ds s t := by
  induction exports generalizing s with
  | nil =>
    obtain ⟨-, rfl⟩ := Prod.mk.inj (Option.some.inj hrun)
    exact ⟨[], Nat.le_refl 0, by simp, .refl s⟩
  | cons e exports ih =>
    rw [List.forM_eq_forM, List.forM_cons] at hrun
    obtain ⟨_, u, hfirst, hrest⟩ := (bind_eq_some _ _ _ _).mp hrun
    obtain ⟨ds, hlength, hds, hadds⟩ := ih hrest
    have later : ∀ d ∈ ds, ∃ e' ∈ e :: exports, ∃ name primary, e'.kind = .func ∧ e'.name = some name ∧ primary ∈ t.symtab ∧
        d = aliasSymbol name primary := fun d hd => by
      obtain ⟨e', he', rest⟩ := hds d hd
      exact ⟨e', List.mem_cons_of_mem e he', rest⟩
    obtain ⟨rfl, -⟩ | ⟨slot, primary, name, hkind, -, -, hprimary, hname, ⟨-, rfl⟩ | ⟨hone, -⟩⟩ := emitAlias_cases hfirst
    · exact ⟨ds, Nat.le_succ_of_le hlength, later, hadds⟩
    · exact ⟨ds, Nat.le_succ_of_le hlength, later, hadds⟩
    · refine ⟨[aliasSymbol name primary] ++ ds, Nat.succ_le_succ hlength, List.forall_mem_cons.mpr ⟨⟨e, List.mem_cons_self, name, primary, hkind, hname, ?_, rfl⟩, later⟩,
        hone.trans hadds⟩
      exact List.mem_of_getElem? (hadds.kept (hone.kept hprimary))

/-! ### Other targets -/

variable {names : DebugNames} {symRodata k address : ℕ} {addend : BitVec 64} {r : JitReloc}

/-- The symbol of a target that is nothing in wasm. -/
def synthSymbol (name : Option Name) (address : ℕ) : DebugSymbol where
  label := sanitise (name.getD (ascii "<unknown>"))
  info := stInfo stbGlobal sttFunc
  shndx := shnUndef
  value := .ofNat 64 address

/-- The name of such a target. -/
def synthName (names : DebugNames) (r : JitReloc) : Option Name :=
  match r.targetKind with
  | .libcall => names.libcallName r.targetLibcall
  | _ => jitGetHelperName names.host r.targetAddress

/-- Such a symbol is found by its address, or added. -/
structure Synthesised (name : Option Name) (address k : ℕ) (s t : DebugElf) : Prop where
  missing : ∀ c ∈ s.extCache, c.1 = address → ∃ c' ∈ s.extCache, c'.1 = address ∧ c'.2 = 0
  index : k = uint32 s.symtab.length
  symtab : ∃ off, t.symtab = s.symtab ++ [⟨off, stInfo stbGlobal sttFunc, 0, shnUndef, .ofNat 64 address, 0⟩]
  adds : AddsSymbols [synthSymbol name address] s t
  extCache : t.extCache = s.extCache ++ [(address, k)]
  relaText : t.relaText = s.relaText

theorem synthSym_cases {name : Option Name} (hrun : synthSym name address s = some (k, t)) :
    t = s ∧ (address, k) ∈ s.extCache ∨ Synthesised name address k s t := by
  rw [synthSym, read_bind] at hrun
  split_ifs at hrun with hzero
  · obtain ⟨_, s₁, hstr, hrun⟩ := (bind_eq_some _ _ _ _).mp hrun
    obtain ⟨rfl, rfl⟩ := Prod.mk.inj (Option.some.inj hstr)
    rw [nextSym, read_bind] at hrun
    obtain ⟨_, s₂, hpush, hrun⟩ := (bind_eq_some _ _ _ _).mp hrun
    obtain ⟨-, rfl⟩ := Prod.mk.inj (Option.some.inj hpush)
    obtain ⟨rfl, rfl⟩ := Prod.mk.inj (Option.some.inj hrun)
    refine .inr ⟨fun c hc haddress => ?_, rfl, ⟨_, rfl⟩, .one (zero_not_mem_sanitise _) rfl rfl, rfl, rfl⟩
    cases hfind : s.extCache.find? fun c => c.1 = address with
    | some c' =>
      rw [hfind] at hzero
      exact ⟨c', List.mem_of_find?_eq_some hfind, by simpa using List.find?_some hfind, hzero⟩
    | none => exact absurd haddress (by simpa using List.find?_eq_none.mp hfind c hc)
  · obtain ⟨rfl, rfl⟩ := Prod.mk.inj (Option.some.inj hrun)
    cases hfind : s.extCache.find? fun c => c.1 = address with
    | some c =>
      have haddress : c.1 = address := by simpa using List.find?_some hfind
      exact .inl ⟨rfl, haddress ▸ List.mem_of_find?_eq_some hfind⟩
    | none =>
      rw [hfind] at hzero
      exact absurd rfl hzero

/-- The symbol and the addend of a relocation: those of its function, a symbol of its own, or the constants'. -/
inductive RelocCase (names : DebugNames) (debug : DebugInfo) (symRodata : ℕ) (r : JitReloc) (s : DebugElf) :
    ℕ → BitVec 64 → DebugElf → Prop
  | func {k : ℕ} {sym : Elf64Sym} (hkind : r.targetKind = .internal ∨ r.targetKind = .external) (hsym : s.symtab[k]? = some sym) :
    RelocCase names debug symRodata r s k (.ofInt 64 r.addend + (.ofNat 64 r.targetAddress - sym.value)) s
  | synth {k : ℕ} {t : DebugElf} (hkind : r.targetKind ≠ .constpool ∧ r.targetKind ≠ .global)
    (hrun : synthSym (synthName names r) r.targetAddress s = some (k, t)) : RelocCase names debug symRodata r s k (.ofInt 64 r.addend) t
  | rodata (hkind : r.targetKind = .constpool ∨ r.targetKind = .global) (hrodata : haveRodata debug = true) :
    RelocCase names debug symRodata r s symRodata (.ofInt 64 r.addend + (.ofNat 64 r.targetAddress - .ofNat 64 debug.rodataBase)) s
  | none (hkind : r.targetKind = .constpool ∨ r.targetKind = .global) (hrodata : haveRodata debug = false) :
    RelocCase names debug symRodata r s 0 (.ofInt 64 r.addend) s

theorem slotSym_state (hrun : slotSym m r s = some (k, t)) : t = s := by
  have still : Moves (fun _ _ => False) id (slotSym m r) := by unfold slotSym; infer_instance
  exact still.same hrun

theorem funcSym_cases (hkind : r.targetKind = .internal ∨ r.targetKind = .external)
    (hrun : funcSym names m r s = some ((k, addend), t)) : RelocCase names debug symRodata r s k addend t := by
  obtain ⟨slot, s₁, hslot, hnext⟩ := (bind_eq_some _ _ _ _).mp hrun
  obtain rfl := slotSym_state hslot
  split_ifs at hnext with hindex
  · rw [read_bind] at hnext
    obtain ⟨sym, hsym, hret⟩ := (lift_bind_eq_some _ _ _ _).mp hnext
    obtain ⟨hpair, rfl⟩ := Prod.mk.inj (Option.some.inj hret)
    obtain ⟨rfl, rfl⟩ := Prod.mk.inj hpair
    exact .func hkind hsym
  · obtain ⟨k', s₂, hsynth, hret⟩ := (bind_eq_some _ _ _ _).mp hnext
    obtain ⟨hpair, rfl⟩ := Prod.mk.inj (Option.some.inj hret)
    obtain ⟨rfl, rfl⟩ := Prod.mk.inj hpair
    obtain hkind | hkind := hkind
    · exact .synth (by simp [hkind]) (by simpa only [synthName, hkind] using hsynth)
    · exact .synth (by simp [hkind]) (by simpa only [synthName, hkind] using hsynth)

theorem relocSym_cases (hrun : relocSym names m debug symRodata r s = some ((k, addend), t)) :
    RelocCase names debug symRodata r s k addend t := by
  rw [relocSym] at hrun
  have inConstants (hkind : r.targetKind = .constpool ∨ r.targetKind = .global) (hrun : (if haveRodata debug then
      return (symRodata, .ofInt 64 r.addend + (.ofNat 64 r.targetAddress - .ofNat 64 debug.rodataBase))
      else return (0, .ofInt 64 r.addend) : Checked DebugElf (ℕ × BitVec 64)) s = some ((k, addend), t)) :
      RelocCase names debug symRodata r s k addend t := by
    split_ifs at hrun with hrodata
    · obtain ⟨hpair, rfl⟩ := Prod.mk.inj (Option.some.inj hrun)
      obtain ⟨rfl, rfl⟩ := Prod.mk.inj hpair
      exact .rodata hkind hrodata
    · obtain ⟨hpair, rfl⟩ := Prod.mk.inj (Option.some.inj hrun)
      obtain ⟨rfl, rfl⟩ := Prod.mk.inj hpair
      exact .none hkind (Bool.eq_false_iff.mpr hrodata)
  cases hkind : r.targetKind with
  | internal =>
    simp only [hkind] at hrun
    exact funcSym_cases (.inl hkind) hrun
  | external =>
    simp only [hkind] at hrun
    exact funcSym_cases (.inr hkind) hrun
  | constpool =>
    simp only [hkind] at hrun
    exact inConstants (.inl hkind) hrun
  | global =>
    simp only [hkind] at hrun
    exact inConstants (.inr hkind) hrun
  | libcall =>
    simp only [hkind] at hrun
    obtain ⟨k', s₂, hsynth, hret⟩ := (bind_eq_some _ _ _ _).mp hrun
    obtain ⟨hpair, rfl⟩ := Prod.mk.inj (Option.some.inj hret)
    obtain ⟨rfl, rfl⟩ := Prod.mk.inj hpair
    exact .synth (by simp [hkind]) (by simpa only [synthName, hkind] using hsynth)

/-- One relocation: nothing is done if it is relative, and an entry is added otherwise. -/
theorem emitRela_cases (hrun : emitRela names m debug symRodata r s = some ((), t)) :
    r.kind ≠ .abs64 ∧ t = s ∨
    r.kind = .abs64 ∧ ∃ k addend u, RelocCase names debug symRodata r s k addend u ∧
      t = { u with relaText := u.relaText ++ [⟨.ofNat 64 r.address, k, rX8664, addend⟩] } := by
  rw [emitRela] at hrun
  split_ifs at hrun with hkind
  · obtain ⟨⟨k, addend⟩, u, hsym, hupdate⟩ := (bind_eq_some _ _ _ _).mp hrun
    exact .inr ⟨hkind, k, addend, u, relocSym_cases hsym, (Prod.mk.inj (Option.some.inj hupdate)).2.symm⟩
  · exact .inl ⟨hkind, (Prod.mk.inj (Option.some.inj hrun)).2.symm⟩

/-- Indices that are those of symbols. -/
structure Indexed (debug : DebugInfo) (symRodata : ℕ) (s : DebugElf) : Prop where
  null : 0 < s.symtab.length
  rodata : haveRodata debug = true → symRodata < s.symtab.length
  cached : ∀ c ∈ s.extCache, c.2 < s.symtab.length
  entries : ∀ e ∈ s.relaText, e.sym < s.symtab.length

theorem uint32_le (n : ℕ) : uint32 n ≤ n := Nat.mod_le _ _

/-- The symbol of a relocation. -/
theorem RelocCase.indexed (hcase : RelocCase names debug symRodata r s k addend t) (h : Indexed debug symRodata s) :
    k < t.symtab.length ∧ Indexed debug symRodata t ∧ ∃ ds, (∀ d ∈ ds, d = synthSymbol (synthName names r) r.targetAddress) ∧ AddsSymbols ds s t := by
  cases hcase with
  | func _ hsym => exact ⟨(List.getElem?_eq_some_iff.mp hsym).1, h, [], by simp, .refl s⟩
  | rodata _ hrodata => exact ⟨h.rodata hrodata, h, [], by simp, .refl s⟩
  | none _ _ => exact ⟨h.null, h, [], by simp, .refl s⟩
  | synth _ hrun =>
    obtain ⟨rfl, hcached⟩ | hnew := synthSym_cases hrun
    · exact ⟨h.cached _ hcached, h, [], by simp, .refl _⟩
    · have count : t.symtab.length = s.symtab.length + 1 := hnew.adds.length_eq
      have index : k < t.symtab.length := by
        rw [hnew.index, count]
        exact Nat.lt_succ_of_le (uint32_le _)
      refine ⟨index, ⟨by omega, fun hrodata => Nat.lt_of_lt_of_le (h.rodata hrodata) (by omega), fun c hc => ?_, fun e he => ?_⟩,
        [_], by simp, hnew.adds⟩
      · rw [hnew.extCache, List.mem_append, List.mem_singleton] at hc
        obtain hc | rfl := hc
        · exact Nat.lt_of_lt_of_le (h.cached c hc) (by omega)
        · exact index
      · rw [hnew.relaText] at he
        exact Nat.lt_of_lt_of_le (h.entries e he) (by omega)

/-- The entries, and the symbols that they add. -/
theorem emitRelas_adds {relocs : List JitReloc} (hrun : relocs.forM (emitRela names m debug symRodata) s = some ((), t))
    (h : Indexed debug symRodata s) : Indexed debug symRodata t ∧
      ∃ ds, (∀ d ∈ ds, ∃ r ∈ relocs, r.kind = .abs64 ∧ d = synthSymbol (synthName names r) r.targetAddress) ∧ AddsSymbols ds s t := by
  induction relocs generalizing s with
  | nil =>
    obtain ⟨-, rfl⟩ := Prod.mk.inj (Option.some.inj hrun)
    exact ⟨h, [], by simp, .refl s⟩
  | cons r relocs ih =>
    rw [List.forM_eq_forM, List.forM_cons] at hrun
    obtain ⟨_, u, hfirst, hrest⟩ := (bind_eq_some _ _ _ _).mp hrun
    have later {ds : List DebugSymbol} (hds : ∀ d ∈ ds, ∃ r' ∈ relocs, r'.kind = .abs64 ∧ d = synthSymbol (synthName names r') r'.targetAddress) :
        ∀ d ∈ ds, ∃ r' ∈ r :: relocs, r'.kind = .abs64 ∧ d = synthSymbol (synthName names r') r'.targetAddress := fun d hd => by
      obtain ⟨r', hr', rest⟩ := hds d hd
      exact ⟨r', List.mem_cons_of_mem r hr', rest⟩
    obtain ⟨-, rfl⟩ | ⟨hkind, k, addend, v, hcase, rfl⟩ := emitRela_cases hfirst
    · obtain ⟨h', ds, hds, hadds⟩ := ih hrest h
      exact ⟨h', ds, later hds, hadds⟩
    · obtain ⟨hk, hv, ds, hds, hadds⟩ := hcase.indexed h
      have entry : Indexed debug symRodata { v with relaText := v.relaText ++ [⟨.ofNat 64 r.address, k, rX8664, addend⟩] } := by
        refine ⟨hv.null, hv.rodata, hv.cached, fun e he => ?_⟩
        obtain he | rfl := (List.mem_append.mp he).imp_right List.mem_singleton.mp
        · exact hv.entries e he
        · exact hk
      obtain ⟨h', ds', hds', hadds'⟩ := ih hrest entry
      refine ⟨h', ds ++ ds', fun d hd => ?_, hadds.trans ⟨hadds'.symtab, hadds'.strtab⟩⟩
      obtain hd | hd := List.mem_append.mp hd
      · exact ⟨r, List.mem_cons_self, hkind, hds d hd⟩
      · exact later hds' d hd

/-! ### All of the tables -/

/-- What the loops in front of the relocations leave alone. -/
def DebugElf.linked (s : DebugElf) : List Elf64Rela × List (ℕ × ℕ) := (s.relaText, s.extCache)

abbrev Unlinked {α : Type} (p : Checked DebugElf α) : Prop := Moves (fun _ _ => False) DebugElf.linked p

instance (emit : List UInt8 → BitVec 32 × List UInt8) : Unlinked (emitString emit) := .still fun s _ t h => by
  obtain ⟨-, rfl⟩ := Prod.mk.inj (Option.some.inj h)
  rfl

instance (sym : Elf64Sym) : Unlinked (pushSym sym) := .still fun s _ t h => by
  obtain ⟨-, rfl⟩ := Prod.mk.inj (Option.some.inj h)
  rfl

instance : Unlinked nextSym := by unfold nextSym; infer_instance

instance (funcidx : ℕ) (f : FuncSymSlot → FuncSymSlot) : Unlinked (setSlot funcidx f) := .still fun s _ t h => by
  obtain ⟨-, rfl⟩ := setSlot_eq_some h
  rfl

instance (m : WasmModule) (debug : DebugInfo) : Unlinked (emitLocals m debug) := by unfold emitLocals; infer_instance

instance (m : WasmModule) (debug : DebugInfo) (i : ℕ) (imp : WasmImport) : Unlinked (emitImport m debug i imp) := by
  unfold emitImport; infer_instance

instance (m : WasmModule) (debug : DebugInfo) (i : ℕ) (imports : List WasmImport) : Unlinked (emitImports m debug i imports) := by
  induction imports generalizing i with
  | nil => exact .pure ()
  | cons imp imports ih => exact .seq inferInstance fun _ => ih (i + 1)

instance (m : WasmModule) (debug : DebugInfo) (fl : FuncLayout) : Unlinked (emitLayout m debug fl) := by unfold emitLayout; infer_instance

instance (m : WasmModule) (e : WasmExport) : Unlinked (emitAlias m e) := by unfold emitAlias; infer_instance

/-- The loops one after the other. -/
structure TableRuns (names : DebugNames) (m : WasmModule) (debug : DebugInfo) (symRodata firstGlobal : ℕ)
    (s₁ s₂ s₃ s₄ t : DebugElf) : Prop where
  locals : emitLocals m debug {} = some (symRodata, s₁)
  firstGlobal : firstGlobal = uint32 s₁.symtab.length
  imports : emitImports m debug 0 m.imports { s₁ with slots := List.replicate m.totalFuncs {} } = some ((), s₂)
  funcs : debug.funcs.forM (emitLayout m debug) s₂ = some ((), s₃)
  aliases : m.exports.forM (emitAlias m) s₃ = some ((), s₄)
  relas : emitRelas names m debug symRodata s₄ = some ((), t)

theorem emitTables_eq_some {firstGlobal : ℕ} (hrun : emitTables names m debug {} = some (firstGlobal, t)) :
    ∃ symRodata s₁ s₂ s₃ s₄, TableRuns names m debug symRodata firstGlobal s₁ s₂ s₃ s₄ t := by
  obtain ⟨symRodata, s₁, hlocals, hrun⟩ := (bind_eq_some _ _ _ _).mp hrun
  rw [update_bind, nextSym, read_bind] at hrun
  obtain ⟨_, s₂, himports, hrun⟩ := (bind_eq_some _ _ _ _).mp hrun
  obtain ⟨_, s₃, hfuncs, hrun⟩ := (bind_eq_some _ _ _ _).mp hrun
  obtain ⟨_, s₄, haliases, hrun⟩ := (bind_eq_some _ _ _ _).mp hrun
  obtain ⟨_, s₅, hrelas, hret⟩ := (bind_eq_some _ _ _ _).mp hrun
  obtain ⟨rfl, rfl⟩ := Prod.mk.inj (Option.some.inj hret)
  exact ⟨symRodata, s₁, s₂, s₃, s₄, hlocals, rfl, himports, hfuncs, haliases, hrelas⟩

/-- The symbols in front of the relocations. -/
structure FrontSymbols (m : WasmModule) (debug : DebugInfo) (symRodata firstGlobal : ℕ) (imports funcs aliases : List DebugSymbol)
    (s : DebugElf) : Prop where
  adds : AddsSymbols (localSymbols m debug ++ imports ++ funcs ++ aliases) {} s
  null : s.symtab[0]? = some nullSym
  firstGlobal : firstGlobal = (localSymbols m debug).length
  rodata : haveRodata debug = true → symRodata + 1 = (localSymbols m debug).length
  imports : importSymbols m debug 0 m.imports = some imports
  funcs : List.Forall₂ (fun fl d => layoutSymbol m debug fl = some d) debug.funcs funcs
  aliasCount : aliases.length ≤ m.exports.length
  aliases : ∀ d ∈ aliases, ∃ e ∈ m.exports, ∃ name primary, e.kind = .func ∧ e.name = some name ∧ primary ∈ s.symtab ∧
    d = aliasSymbol name primary
  relaText : s.relaText = []
  extCache : s.extCache = []

theorem TableRuns.front {firstGlobal : ℕ} {s₁ s₂ s₃ s₄ : DebugElf} (h : TableRuns names m debug symRodata firstGlobal s₁ s₂ s₃ s₄ t) :
    ∃ imports funcs aliases, FrontSymbols m debug symRodata firstGlobal imports funcs aliases s₄ := by
  obtain ⟨locals, hnull, hrodata⟩ := emitLocals_adds h.locals
  have few := localSymbols_length_le m debug
  have count : s₁.symtab.length = 0 + (localSymbols m debug).length := locals.length_eq
  obtain ⟨imports, himports, himportsAdd⟩ := emitImports_adds h.imports
  obtain ⟨funcs, hfuncs, hfuncsAdd⟩ := emitLayouts_adds h.funcs
  obtain ⟨aliases, hcount, haliases, haliasesAdd⟩ := emitAliases_adds h.aliases
  have importsAdd : AddsSymbols imports s₁ s₂ := ⟨himportsAdd.symtab, himportsAdd.strtab⟩
  have behind := (importsAdd.trans hfuncsAdd).trans haliasesAdd
  have stillLocals : s₁.linked = ([], []) := Moves.same inferInstance h.locals
  have stillImports : s₂.linked = DebugElf.linked { s₁ with slots := List.replicate m.totalFuncs {} } := Moves.same inferInstance h.imports
  have stillFuncs : s₃.linked = s₂.linked := Moves.same inferInstance h.funcs
  have stillAliases : s₄.linked = s₃.linked := Moves.same inferInstance h.aliases
  obtain ⟨hrela, hcache⟩ := Prod.mk.inj (stillAliases.trans (stillFuncs.trans (stillImports.trans stillLocals)))
  refine ⟨imports, funcs, aliases, ((locals.trans importsAdd).trans hfuncsAdd).trans haliasesAdd, behind.kept hnull, ?_, hrodata, himports,
    hfuncs, hcount, haliases, hrela, hcache⟩
  rw [h.firstGlobal, count, Nat.zero_add, uint32, Nat.mod_eq_of_lt (by omega)]

theorem FrontSymbols.indexed {firstGlobal : ℕ} {imports funcs aliases : List DebugSymbol}
    (h : FrontSymbols m debug symRodata firstGlobal imports funcs aliases s) : Indexed debug symRodata s := by
  have count := h.adds.length_eq
  have positive : 0 < (localSymbols m debug).length := by simp [localSymbols]
  simp only [List.length_append] at count
  refine ⟨by omega, fun hr => ?_, by simp [h.extCache], by simp [h.relaText]⟩
  have := h.rodata hr
  omega

/-- All the symbols, and the indices of the entries. -/
theorem emitTables_symbols {firstGlobal : ℕ} (hrun : emitTables names m debug {} = some (firstGlobal, t)) :
    ∃ imports funcs aliases synths, AddsSymbols (localSymbols m debug ++ imports ++ funcs ++ aliases ++ synths) {} t ∧
      t.symtab[0]? = some nullSym ∧ firstGlobal = (localSymbols m debug).length ∧ importSymbols m debug 0 m.imports = some imports ∧
      List.Forall₂ (fun fl d => layoutSymbol m debug fl = some d) debug.funcs funcs ∧
      (∀ d ∈ aliases, ∃ e ∈ m.exports, ∃ name primary, e.kind = .func ∧ e.name = some name ∧ primary ∈ t.symtab ∧ d = aliasSymbol name primary) ∧
      (∀ d ∈ synths, ∃ r ∈ debug.relocs, r.kind = .abs64 ∧ d = synthSymbol (synthName names r) r.targetAddress) ∧
      ∀ e ∈ t.relaText, e.sym < t.symtab.length := by
  obtain ⟨symRodata, s₁, s₂, s₃, s₄, hruns⟩ := emitTables_eq_some hrun
  obtain ⟨imports, funcs, aliases, hfront⟩ := hruns.front
  have all : Indexed debug symRodata t ∧
      ∃ ds, (∀ d ∈ ds, ∃ r ∈ debug.relocs, r.kind = .abs64 ∧ d = synthSymbol (synthName names r) r.targetAddress) ∧ AddsSymbols ds s₄ t := by
    have hrelas := hruns.relas
    rw [emitRelas] at hrelas
    split_ifs at hrelas with hrela
    · exact emitRelas_adds hrelas hfront.indexed
    · obtain ⟨-, rfl⟩ := Prod.mk.inj (Option.some.inj hrelas)
      exact ⟨hfront.indexed, [], by simp, .refl s₄⟩
  obtain ⟨hindexed, synths, hsynths, hsynthsAdd⟩ := all
  refine ⟨imports, funcs, aliases, synths, hfront.adds.trans hsynthsAdd, hsynthsAdd.kept hfront.null, hfront.firstGlobal, hfront.imports,
    hfront.funcs, fun d hd => ?_, hsynths, hindexed.entries⟩
  obtain ⟨e, he, name, primary, hkind, hname, hprimary, rfl⟩ := hfront.aliases d hd
  obtain ⟨k, hk⟩ := List.mem_iff_getElem?.mp hprimary
  exact ⟨e, he, name, primary, hkind, hname, List.mem_of_getElem? (hsynthsAdd.kept hk), rfl⟩

end SpidirWasm.Jit
