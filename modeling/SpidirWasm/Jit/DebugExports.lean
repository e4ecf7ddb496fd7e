import SpidirWasm.Jit.DebugMaps
import SpidirWasm.Jit.DebugSymtab

/-! The names of exported functions in the debug ELF. A function that is exported has a primary
symbol, which the code finds through the slot of the function; the name of the export is that of
this symbol, or of an alias of it. -/

namespace SpidirWasm.Jit

open Checked
open Elf64
open StringTable (Holds cString stringAt)
open Wasm (WasmModule WasmImport WasmExport FuncType Name)

variable {m : WasmModule} {debug : DebugInfo} {s t : DebugElf} {ds : List DebugSymbol} {d : DebugSymbol} {sym : Elf64Sym}
  {i j : ℕ} {e : WasmExport} {strtab : List UInt8}

/-- The primary symbol of a function: that of its import, or of the layout that is recorded for it. -/
def PrimaryOf (m : WasmModule) (debug : DebugInfo) (i : ℕ) (d : DebugSymbol) : Prop :=
  (∃ imp, m.imports[i]? = some imp ∧ importSymbol m debug i imp = some [d]) ∨
    ∃ fl ∈ debug.funcs, fl.funcidx = i ∧ fl.cfiThunk = false ∧ layoutSymbol m debug fl = some d

/-- The slot of a function leads to its primary symbol. -/
def HasPrimary (m : WasmModule) (debug : DebugInfo) (s : DebugElf) (i : ℕ) (d : DebugSymbol) (primary : Elf64Sym) : Prop :=
  PrimaryOf m debug i d ∧ d.In s.strtab primary ∧ ∃ slot, s.slots[i]? = some slot ∧ slot.symIndex ≠ 2 ^ 32 - 1 ∧
    s.symtab[slot.symIndex]? = some primary

/-- The name of an export is that of a symbol with the section, the value and the size of the primary one of its function. -/
def NamedAs (m : WasmModule) (debug : DebugInfo) (s : DebugElf) (e : WasmExport) : Prop :=
  ∃ (name : Name) (d d' : DebugSymbol) (primary sym : Elf64Sym), e.name = some name ∧ HasPrimary m debug s e.index d primary ∧ d'.label = sanitise name ∧
    sym ∈ s.symtab ∧ d'.In s.strtab sym ∧ sym.shndx = primary.shndx ∧ sym.value = primary.value ∧ sym.size = primary.size

/-! ### Names -/

theorem printable_printable (b : UInt8) : printable (printable b) = printable b := by
  by_cases h : b < 32 ∨ b = 127
  · rw [printable.eq_1 b, if_pos h]
    decide
  · rw [printable.eq_1 b, if_neg h, printable, if_neg h]

/-- A name that reads like a label has nothing to replace. -/
theorem sanitise_of_label {label name : List UInt8} (h : sanitise label = cString name) : sanitise name = cString name := by
  rw [sanitise, ← h, sanitise, List.map_map]
  exact List.map_congr_left fun b _ => printable_printable b

theorem PrimaryOf.label (h : PrimaryOf m debug i d) : ∃ label, d.label = sanitise label := by
  obtain ⟨imp, -, himp⟩ | ⟨fl, -, -, hthunk, hfl⟩ := h
  · rw [importSymbol] at himp
    split_ifs at himp
    · obtain ⟨label, -, hd⟩ := Option.map_eq_some_iff.mp himp
      obtain rfl := List.singleton_inj.mp hd
      exact ⟨label, rfl⟩
    · cases himp
  · obtain ⟨label, -, rfl⟩ := Option.map_eq_some_iff.mp hfl
    exact ⟨label, by rw [hthunk, if_neg Bool.false_ne_true]⟩

/-! ### Slots -/

/-- A slot is empty or leads to the primary symbol of its function. -/
structure SlotsOk (m : WasmModule) (debug : DebugInfo) (s : DebugElf) : Prop where
  length : s.slots.length = m.totalFuncs
  primary : ∀ (i : ℕ) (slot : FuncSymSlot), s.slots[i]? = some slot → slot.symIndex ≠ 2 ^ 32 - 1 →
    ∃ d primary, HasPrimary m debug s i d primary

/-- A slot that is not empty. -/
def HasSymbol (s : DebugElf) (i : ℕ) : Prop := ∃ slot, s.slots[i]? = some slot ∧ slot.symIndex ≠ 2 ^ 32 - 1

/-- Symbols are added, and the slots stay. -/
theorem HasPrimary.adds {primary : Elf64Sym} (h : HasPrimary m debug s i d primary) (hadds : AddsSymbols ds s t) (hslot : t.slots[i]? = s.slots[i]?) :
    HasPrimary m debug t i d primary := by
  obtain ⟨hd, hin, slot, hs, hindex, hprimary⟩ := h
  obtain ⟨more, hmore⟩ := hadds.strtab
  exact ⟨hd, hmore ▸ hin.append more, slot, hslot.trans hs, hindex, hadds.kept hprimary⟩

/-- A symbol goes into the slot of its function. -/
theorem SlotsOk.fill {g : FuncSymSlot → FuncSymSlot} (h : SlotsOk m debug s) (hadds : AddsSymbols [d] s t) (hroom : s.symtab.length < 2 ^ 32 - 1)
    (hlt : i < s.slots.length) (hslots : t.slots = s.slots.modify i g) (hg : ∀ slot, (g slot).symIndex = uint32 s.symtab.length)
    (hd : PrimaryOf m debug i d) : SlotsOk m debug t ∧ HasSymbol t i ∧ ∀ j, HasSymbol s j → HasSymbol t j := by
  have index : uint32 s.symtab.length = s.symtab.length := uint32_of_lt (by omega)
  have slot := List.getElem?_eq_getElem hlt
  have filled : t.slots[i]? = some (g s.slots[i]) := by rw [hslots, List.getElem?_modify_eq, slot]; rfl
  have others : ∀ j, j ≠ i → t.slots[j]? = s.slots[j]? := fun j hj => by
    rw [hslots]
    simp [Ne.symm hj]
  have new : HasSymbol t i := ⟨_, filled, by rw [hg, index]; omega⟩
  refine ⟨⟨by rw [hslots, List.length_modify, h.length], fun j x hx hindex => ?_⟩, new, fun j hj => ?_⟩
  · by_cases hj : j = i
    · subst hj
      obtain ⟨syms, hsyms, hin⟩ := hadds.symtab
      obtain ⟨primary, rest, hprimary, hrest, rfl⟩ := List.forall₂_cons_left_iff.mp hin
      obtain rfl := List.forall₂_nil_left_iff.mp hrest
      refine ⟨d, primary, hd, hprimary, _, filled, by rw [hg, index]; omega, ?_⟩
      rw [hg, index, hsyms, List.getElem?_append_right (Nat.le_refl _), Nat.sub_self]
      rfl
    · rw [others j hj] at hx
      obtain ⟨d', primary, hprimary⟩ := h.primary j x hx hindex
      exact ⟨d', primary, hprimary.adds hadds (others j hj)⟩
  · by_cases hj' : j = i
    · exact hj' ▸ new
    · obtain ⟨x, hx, hindex⟩ := hj
      exact ⟨x, (others j hj').trans hx, hindex⟩

/-- Slots whose indices of primary symbols stay. -/
theorem SlotsOk.keep (h : SlotsOk m debug s) (hadds : AddsSymbols ds s t) {g : FuncSymSlot → FuncSymSlot}
    (hslots : t.slots = s.slots.modify i g) (hg : ∀ slot, (g slot).symIndex = slot.symIndex) :
    SlotsOk m debug t ∧ ∀ j, HasSymbol s j → HasSymbol t j := by
  have same : ∀ (j : ℕ), (t.slots[j]?).map FuncSymSlot.symIndex = (s.slots[j]?).map FuncSymSlot.symIndex := fun j => by
    rw [hslots, List.getElem?_modify]
    cases s.slots[j]? with
    | none => rfl
    | some slot => by_cases hj : i = j <;> simp [hj, hg]
  obtain ⟨more, hmore⟩ := hadds.strtab
  refine ⟨⟨by rw [hslots, List.length_modify, h.length], fun j x hx hindex => ?_⟩, fun j ⟨x, hx, hindex⟩ => ?_⟩
  · have index := same j
    rw [hx, Option.map_some] at index
    obtain ⟨slot, hslot, he⟩ := Option.map_eq_some_iff.mp index.symm
    obtain ⟨d, primary, hd, hin, slot', hslot', -, hprimary⟩ := h.primary j slot hslot (he ▸ hindex)
    obtain rfl := Option.some.inj (hslot.symm.trans hslot')
    exact ⟨d, primary, hd, hmore ▸ hin.append more, x, hx, hindex, he ▸ hadds.kept hprimary⟩
  · have index := same j
    rw [hx, Option.map_some] at index
    obtain ⟨slot, hslot, he⟩ := Option.map_eq_some_iff.mp index
    exact ⟨slot, hslot, he ▸ hindex⟩

/-! ### The loops -/

/-- The tables while the primary symbols are added: every symbol has a string of its own but for three locals. -/
structure Filling (m : WasmModule) (debug : DebugInfo) (s : DebugElf) : Prop extends SlotsOk m debug s where
  room : s.symtab.length ≤ s.strtab.length + 2

theorem Filling.roomy (h : s.symtab.length ≤ s.strtab.length + 2) (hroomy : Roomy s t) : t.symtab.length ≤ t.strtab.length + 2 := by
  rw [Roomy] at hroomy
  omega

theorem AddsSymbols.strtab_le (h : AddsSymbols ds s t) : s.strtab.length ≤ t.strtab.length := by
  obtain ⟨more, hmore⟩ := h.strtab
  rw [hmore, List.length_append]
  omega

/-- The imports of functions get their symbols. -/
theorem emitImports_filling {imports : List WasmImport} (hrun : emitImports m debug i imports s = some ((), t)) (h : Filling m debug s)
    (himports : m.imports.drop i = imports) (hfits : t.strtab.length + 2 < 2 ^ 32) : Filling m debug t ∧ (∀ j, HasSymbol s j → HasSymbol t j) ∧
      ∀ (j : ℕ) (imp : WasmImport), i ≤ j → m.imports[j]? = some imp → imp.kind = .func → HasSymbol t j := by
  induction imports generalizing i s with
  | nil =>
    obtain ⟨-, rfl⟩ := Prod.mk.inj (Option.some.inj hrun)
    refine ⟨h, fun j => id, fun j imp hj himp => ?_⟩
    have past := List.drop_eq_nil_iff.mp himports
    obtain ⟨hlt, -⟩ := List.getElem?_eq_some_iff.mp himp
    omega
  | cons imp imports ih =>
    obtain ⟨_, u, hfirst, hrest⟩ := (bind_eq_some _ _ _ _).mp hrun
    obtain ⟨here, next⟩ := of_drop_eq_cons himports
    obtain ⟨ds, hds, hadds, hroomy, hfill, hstill⟩ := emitImport_adds hfirst
    obtain ⟨_, -, haddsRest⟩ := emitImports_adds hrest
    have strings := haddsRest.strtab_le
    have room := Filling.roomy h.room hroomy
    have step : SlotsOk m debug u ∧ (∀ j, HasSymbol s j → HasSymbol u j) ∧ (imp.kind = .func → HasSymbol u i) := by
      by_cases hkind : imp.kind = .func
      · obtain ⟨hlt, hslots⟩ := hfill hkind
        obtain ⟨label, -, rfl⟩ := Option.map_eq_some_iff.mp ((if_pos hkind).symm.trans hds)
        have one := hadds.length_eq
        have primary : PrimaryOf m debug i _ := .inl ⟨imp, here, hds⟩
        obtain ⟨hok, hnew, hold⟩ := h.toSlotsOk.fill hadds (by simp only [List.length_singleton] at one; omega) hlt hslots (fun _ => rfl) primary
        exact ⟨hok, hold, fun _ => hnew⟩
      · have same : u.slots = s.slots.modify i id := by rw [hstill hkind, List.modify_id]
        obtain ⟨hok, hold⟩ := h.toSlotsOk.keep hadds same fun _ => rfl
        exact ⟨hok, hold, fun hk => absurd hk hkind⟩
    obtain ⟨hok, hold, hnew⟩ := step
    obtain ⟨hfilling, hold', hlater⟩ := ih hrest ⟨hok, room⟩ next
    refine ⟨hfilling, fun j hj => hold' j (hold j hj), fun j imp' hj himp' hkind => ?_⟩
    obtain rfl | hlt := Nat.eq_or_lt_of_le hj
    · obtain rfl := Option.some.inj (here.symm.trans himp')
      exact hold' i (hnew hkind)
    · exact hlater j imp' hlt himp' hkind

/-- The functions that were emitted get theirs. -/
theorem emitLayouts_filling {funcs : List FuncLayout} (hrun : funcs.forM (emitLayout m debug) s = some ((), t)) (h : Filling m debug s)
    (hfuncs : funcs ⊆ debug.funcs) (hfits : t.strtab.length + 2 < 2 ^ 32) : Filling m debug t ∧ (∀ j, HasSymbol s j → HasSymbol t j) ∧
      ∀ fl ∈ funcs, fl.cfiThunk = false → HasSymbol t fl.funcidx := by
  induction funcs generalizing s with
  | nil =>
    obtain ⟨-, rfl⟩ := Prod.mk.inj (Option.some.inj hrun)
    exact ⟨h, fun j => id, by simp⟩
  | cons fl funcs ih =>
    rw [List.forM_eq_forM, List.forM_cons] at hrun
    obtain ⟨_, u, hfirst, hrest⟩ := (bind_eq_some _ _ _ _).mp hrun
    obtain ⟨hmem, hfuncs'⟩ := List.cons_subset.mp hfuncs
    obtain ⟨d, hd, hadds, hroomy, hlt, hslots⟩ := emitLayout_adds hfirst
    obtain ⟨_, -, haddsRest⟩ := emitLayouts_adds hrest
    have strings := haddsRest.strtab_le
    have room := Filling.roomy h.room hroomy
    have step : SlotsOk m debug u ∧ (∀ j, HasSymbol s j → HasSymbol u j) ∧ (fl.cfiThunk = false → HasSymbol u fl.funcidx) := by
      cases hthunk : fl.cfiThunk with
      | false =>
        simp only [hthunk, Bool.false_eq_true, if_false] at hslots
        have one := hadds.length_eq
        have primary : PrimaryOf m debug fl.funcidx d := .inr ⟨fl, hmem, rfl, hthunk, hd⟩
        obtain ⟨hok, hnew, hold⟩ := h.toSlotsOk.fill hadds (by simp only [List.length_singleton] at one; omega) hlt hslots (fun _ => rfl) primary
        exact ⟨hok, hold, fun _ => hnew⟩
      | true =>
        simp only [hthunk, if_true] at hslots
        obtain ⟨hok, hold⟩ := h.toSlotsOk.keep hadds hslots fun _ => rfl
        exact ⟨hok, hold, fun hf => by cases hf⟩
    obtain ⟨hok, hold, hnew⟩ := step
    obtain ⟨hfilling, hold', hlater⟩ := ih hrest ⟨hok, room⟩ hfuncs'
    exact ⟨hfilling, fun j hj => hold' j (hold j hj), List.forall_mem_cons.mpr ⟨fun hthunk => hold' _ (hnew hthunk), hlater⟩⟩

/-! ### Aliases -/

/-- Symbols are added to an export that is named. -/
theorem NamedAs.adds (h : NamedAs m debug s e) (hadds : AddsSymbols ds s t) (hslots : t.slots = s.slots) : NamedAs m debug t e := by
  obtain ⟨name, d, d', primary, sym, hname, hprimary, hlabel, hsym, hin, hrest⟩ := h
  obtain ⟨more, hmore⟩ := hadds.strtab
  obtain ⟨k, hk⟩ := List.mem_iff_getElem?.mp hsym
  exact ⟨name, d, d', primary, sym, hname, hprimary.adds hadds (by rw [hslots]), hlabel, List.mem_of_getElem? (hadds.kept hk),
    hmore ▸ hin.append more, hrest⟩

/-- An export of a function with a primary symbol is named behind its step. -/
theorem emitAlias_named (hrun : emitAlias m e s = some ((), t)) (h : SlotsOk m debug s) (hkind : e.kind = .func) (hfilled : HasSymbol s e.index)
    (hfits : s.strtab.length ≤ 2 ^ 32) : NamedAs m debug t e := by
  obtain ⟨slot, hslot, hindex⟩ := hfilled
  have hlt : e.index < m.totalFuncs := h.length ▸ (List.getElem?_eq_some_iff.mp hslot).1
  obtain ⟨-, hempty⟩ | ⟨slot', primary, name, -, hslot', -, hprimary, hname, hcase⟩ := emitAlias_cases hrun
  · obtain ⟨slot', hslot', hempty⟩ := hempty hkind hlt
    obtain rfl := Option.some.inj (hslot.symm.trans hslot')
    exact absurd hempty hindex
  · obtain rfl := Option.some.inj (hslot.symm.trans hslot')
    obtain ⟨d, primary', has⟩ := h.primary e.index slot hslot hindex
    have same : primary' = primary := by
      obtain ⟨-, -, slot', hslot', -, hprimary'⟩ := has
      obtain rfl := Option.some.inj (hslot.symm.trans hslot')
      exact Option.some.inj (hprimary'.symm.trans hprimary)
    subst same
    obtain ⟨hsame, rfl⟩ | ⟨hadds, hslots⟩ := hcase
    · have label : d.label = cString name := (has.2.1.is hfits).label.stringAt_eq.symm.trans hsame
      obtain ⟨label', hlabel'⟩ := has.1.label
      have clean := sanitise_of_label (hlabel'.symm.trans label)
      exact ⟨name, d, d, primary', primary', hname, has, label.trans clean.symm, List.mem_of_getElem? hprimary, has.2.1, rfl, rfl, rfl⟩
    · obtain ⟨syms, hsyms, hin⟩ := hadds.symtab
      obtain ⟨sym, rest, hsym, hrest, rfl⟩ := List.forall₂_cons_left_iff.mp hin
      have mem : sym ∈ t.symtab := by
        rw [hsyms]
        exact List.mem_append_right _ List.mem_cons_self
      have fields := hsym
      obtain ⟨off, -, rfl⟩ := fields
      exact ⟨name, d, aliasSymbol name primary', primary', _, hname, has.adds hadds (by rw [hslots]), rfl, mem, hsym, rfl, rfl, rfl⟩

theorem emitAlias_keeps (hrun : emitAlias m e s = some ((), t)) : ∃ ds, AddsSymbols ds s t ∧ t.slots = s.slots := by
  obtain ⟨rfl, -⟩ | ⟨slot, primary, name, -, -, -, -, -, ⟨-, rfl⟩ | ⟨hadds, hslots⟩⟩ := emitAlias_cases hrun
  · exact ⟨[], .refl _, rfl⟩
  · exact ⟨[], .refl _, rfl⟩
  · exact ⟨_, hadds, hslots⟩

theorem emitAliases_keeps {exports : List WasmExport} (hrun : exports.forM (emitAlias m) s = some ((), t)) :
    ∃ ds, AddsSymbols ds s t ∧ t.slots = s.slots := by
  induction exports generalizing s with
  | nil =>
    obtain ⟨-, rfl⟩ := Prod.mk.inj (Option.some.inj hrun)
    exact ⟨[], .refl _, rfl⟩
  | cons e exports ih =>
    rw [List.forM_eq_forM, List.forM_cons] at hrun
    obtain ⟨_, u, hfirst, hrest⟩ := (bind_eq_some _ _ _ _).mp hrun
    obtain ⟨ds, hadds, hslots⟩ := emitAlias_keeps hfirst
    obtain ⟨ds', hadds', hslots'⟩ := ih hrest
    exact ⟨ds ++ ds', hadds.trans hadds', hslots'.trans hslots⟩

/-- All exports of functions with primary symbols are named. -/
theorem emitAliases_named {exports : List WasmExport} (hrun : exports.forM (emitAlias m) s = some ((), t)) (h : SlotsOk m debug s)
    (hfilled : ∀ e ∈ exports, e.kind = .func → HasSymbol s e.index) (hfits : t.strtab.length ≤ 2 ^ 32) :
    ∀ e ∈ exports, e.kind = .func → NamedAs m debug t e := by
  induction exports generalizing s with
  | nil => simp
  | cons e exports ih =>
    rw [List.forM_eq_forM, List.forM_cons] at hrun
    obtain ⟨_, u, hfirst, hrest⟩ := (bind_eq_some _ _ _ _).mp hrun
    obtain ⟨ds, hadds, hslots⟩ := emitAlias_keeps hfirst
    obtain ⟨ds', hadds', hslots'⟩ := emitAliases_keeps hrest
    have strings := (hadds.trans hadds').strtab_le
    have hok : SlotsOk m debug u := (h.keep hadds (hslots.trans (List.modify_id 0 _).symm) fun _ => rfl).1
    refine List.forall_mem_cons.mpr ⟨fun hkind => ?_, ih hrest hok fun e' he' hkind => ?_⟩
    · exact (emitAlias_named hfirst h hkind (hfilled e List.mem_cons_self hkind) (by omega)).adds hadds' hslots'
    · rw [HasSymbol, hslots]
      exact hfilled e' (List.mem_cons_of_mem _ he') hkind

/-! ### The tables of a module -/

theorem emitLocals_room {symRodata : ℕ} (hrun : emitLocals m debug {} = some (symRodata, t)) : t.symtab.length ≤ t.strtab.length + 2 := by
  rw [emitLocals] at hrun
  cases hm : m.moduleName <;> cases hr : haveRodata debug <;> rw [hm, hr] at hrun <;>
    obtain ⟨-, rfl⟩ := Prod.mk.inj (Option.some.inj hrun) <;> simp [strtabEmitStr, strtabEmitChars]

/-- A program that leaves the slots alone. -/
abbrev Slotless {α : Type} (p : Checked DebugElf α) : Prop := Moves (fun _ _ => False) DebugElf.slots p

instance (emit : List UInt8 → BitVec 32 × List UInt8) : Slotless (emitString emit) := .still fun s _ t h => by
  obtain ⟨-, rfl⟩ := Prod.mk.inj (Option.some.inj h)
  rfl

instance (sym : Elf64Sym) : Slotless (pushSym sym) := .still fun s _ t h => by
  obtain ⟨-, rfl⟩ := Prod.mk.inj (Option.some.inj h)
  rfl

instance : Slotless nextSym := by unfold nextSym; infer_instance

instance (name : Option Name) (address : ℕ) : Slotless (synthSym name address) := by
  have cache (c : ℕ × ℕ) : Slotless (update fun s => { s with extCache := s.extCache ++ [c] }) := .still fun s _ t h => by
    obtain ⟨-, rfl⟩ := Prod.mk.inj (Option.some.inj h)
    rfl
  unfold synthSym
  infer_instance

instance (names : DebugNames) (m : WasmModule) (debug : DebugInfo) (symRodata : ℕ) (r : JitReloc) :
    Slotless (relocSym names m debug symRodata r) := by
  have slot : Slotless (slotSym m r) := by unfold slotSym; infer_instance
  have func : Slotless (funcSym names m r) := by unfold funcSym; infer_instance
  unfold relocSym
  split <;> infer_instance

instance (names : DebugNames) (m : WasmModule) (debug : DebugInfo) (symRodata : ℕ) (r : JitReloc) :
    Slotless (emitRela names m debug symRodata r) := by
  have entry (e : Elf64Rela) : Slotless (update fun s => { s with relaText := s.relaText ++ [e] }) := .still fun s _ t h => by
    obtain ⟨-, rfl⟩ := Prod.mk.inj (Option.some.inj h)
    rfl
  unfold emitRela
  infer_instance

instance (names : DebugNames) (m : WasmModule) (debug : DebugInfo) (symRodata : ℕ) : Slotless (emitRelas names m debug symRodata) := by
  unfold emitRelas
  infer_instance

/-- Every exported function that has a primary symbol in the end is named. -/
theorem emitTables_named {names : DebugNames} {firstGlobal : ℕ} {tables : DebugElf} (hrun : emitTables names m debug {} = some (firstGlobal, tables))
    (hfits : tables.strtab.length + 2 < 2 ^ 32) (hexports : ∀ e ∈ m.exports, e.kind = .func →
      (∃ imp, m.imports[e.index]? = some imp ∧ imp.kind = .func) ∨ ∃ fl ∈ debug.funcs, fl.funcidx = e.index ∧ fl.cfiThunk = false) :
    ∀ e ∈ m.exports, e.kind = .func → NamedAs m debug tables e := by
  obtain ⟨symRodata, s₁, s₂, s₃, s₄, hruns⟩ := emitTables_eq_some hrun
  obtain ⟨imports, funcs, aliases, hfront⟩ := hruns.front
  have last : ∃ ds, AddsSymbols ds s₄ tables ∧ tables.slots = s₄.slots := by
    refine (?_ : ∃ ds, AddsSymbols ds s₄ tables).imp fun ds hadds => ⟨hadds, Moves.same inferInstance hruns.relas⟩
    have hrelas := hruns.relas
    rw [emitRelas] at hrelas
    split_ifs at hrelas
    · obtain ⟨-, ds, -, hadds⟩ := emitRelas_adds hrelas hfront.indexed
      exact ⟨ds, hadds⟩
    · obtain ⟨-, rfl⟩ := Prod.mk.inj (Option.some.inj hrelas)
      exact ⟨[], .refl _⟩
  obtain ⟨synths, haddsRelas, hslotsRelas⟩ := last
  obtain ⟨_, haddsAliases, -⟩ := emitAliases_keeps hruns.aliases
  obtain ⟨_, -, haddsFuncs⟩ := emitLayouts_adds hruns.funcs
  have strings₄ := haddsRelas.strtab_le
  have strings₃ := haddsAliases.strtab_le
  have strings₂ := haddsFuncs.strtab_le
  have room : s₁.symtab.length ≤ s₁.strtab.length + 2 := emitLocals_room hruns.locals
  have start : Filling m debug { s₁ with slots := List.replicate m.totalFuncs {} } := by
    refine ⟨⟨List.length_replicate, fun i slot hslot hindex => ?_⟩, room⟩
    rw [List.getElem?_replicate] at hslot
    split_ifs at hslot
    obtain rfl := Option.some.inj hslot
    exact absurd rfl hindex
  obtain ⟨filling₂, -, himports⟩ := emitImports_filling hruns.imports start rfl (by omega)
  obtain ⟨filling₃, hkept, hfuncs⟩ := emitLayouts_filling hruns.funcs filling₂ (List.Subset.refl _) (by omega)
  have filled : ∀ e ∈ m.exports, e.kind = .func → HasSymbol s₃ e.index := fun e he hkind => by
    obtain ⟨imp, himp, hfunc⟩ | ⟨fl, hfl, hindex, hthunk⟩ := hexports e he hkind
    · exact hkept _ (himports _ imp (Nat.zero_le _) himp hfunc)
    · exact hindex ▸ hfuncs fl hfl hthunk
  intro e he hkind
  exact (emitAliases_named hruns.aliases filling₃.toSlotsOk filled (by omega) e he hkind).adds haddsRelas hslotsRelas

variable {host : JitHost} {emitter : Emitter} {fuel size : ℕ} {jit : WasmModuleJit} {file : Memory UInt8}

/-- An exported function is an import or has a layout. -/
theorem exported_recorded {c ctx : JitContext} {fuel' : ℕ} {built : List ℕ} (hstart : Numbered c) (hemit : jitEmitSpidir fuel' c = some (built, ctx))
    (hjit : jitCodegen host emitter true fuel ctx = some jit) (hexport : e ∈ ctx.module.exports) (hkind : e.kind = .func)
    (hindex : e.index < 2 ^ 32) : (∃ imp, ctx.module.imports[e.index]? = some imp ∧ imp.kind = .func) ∨
      ∃ fl ∈ jit.debug.funcs, fl.funcidx = e.index ∧ fl.cfiThunk = false := by
  have numbered := jitEmitSpidir_numbered hstart hemit
  obtain ⟨maps, cg, hmaps, hcodegen, hinfo⟩ := jitCodegen_captured hjit
  obtain ⟨_, cg₁, hfunctions, htables⟩ := (bind_eq_some _ _ _ _).mp hcodegen
  obtain ⟨rodataSize, globalOffsets, rfl⟩ := codegenTables_kept htables
  obtain ⟨hemitted, -, hexports, -⟩ := jitCodegenFunctions_emitted hfunctions
  obtain ⟨func, hfunc, hinit, hself, -⟩ := hexports e hexport hkind
  have imported := numbered.imported e.index func hfunc hinit
  cases hext : func.spidir.external with
  | true =>
    rw [if_pos hext] at imported
    exact .inl imported
  | false =>
    obtain ⟨i, hi⟩ := Option.isSome_iff_exists.mp (hself hext)
    obtain ⟨f, hf, hid⟩ := Option.map_eq_some_iff.mp ((hemitted.index _ i).mp hi)
    obtain ⟨fl, hfl, hlayout⟩ := getElem?_of_forall₂ hinfo.records.layouts hf
    have lookup : maps.funcToFuncidx.lookup f.function = some e.index :=
      ((prepareDebugMaps_lookup numbered hmaps _ _).1).mpr ⟨func, hfunc, by rw [hid, JitFunction.internalId, if_pos ⟨hinit, hext⟩]⟩
    obtain ⟨funcidx, howner, hfuncidx⟩ := hlayout.owner
    have owner : (captureLinker host ctx { cg₁ with rodataSize, globalOffsets } jit.binary maps).owner f.function = some (e.index, false) := by
      exact Linker.owner_of_func lookup
    obtain ⟨rfl, hthunk⟩ := Prod.mk.inj (Option.some.inj (owner.symm.trans howner))
    exact .inr ⟨fl, List.mem_of_getElem? hfl, hfuncidx.trans (uint32_of_lt hindex), hthunk.symm⟩

/-- In the debug ELF of a module every exported function has a primary symbol, and the name of the export is that of a symbol with
the same section, value and size, as long as the string table stays three bytes below 4 GiB. -/
theorem exported_names {resolveImport : Option Name → Option Name → FuncType → Option ℕ} {c ctx : JitContext} {stateSize fuel' : ℕ}
    {built : List ℕ} {names : DebugNames} {firstGlobal : ℕ} {tables : DebugElf}
    (hprepare : jitPrepareState (startContext m resolveImport) = some (c, stateSize)) (hemit : jitEmitSpidir fuel' c = some (built, ctx))
    (hjit : jitCodegen host emitter true fuel ctx = some jit) (hrun : wasmJitEmitDebugElf names ctx.module jit = some (file, size))
    (htables : emitTables names ctx.module jit.debug {} = some (firstGlobal, tables)) (hfits : tables.strtab.length + 2 < 2 ^ 32)
    (hindex : ∀ e ∈ m.exports, e.index < 2 ^ 32) :
    ∃ ehdr symtab strtab, readEhdr file = some ehdr ∧ Found file ehdr jit.debug.indices.symtab (ascii ".symtab") symtab ∧
      symtab.contents file = some tables.symtabBytes ∧ Found file ehdr jit.debug.indices.strtab (ascii ".strtab") strtab ∧
      strtab.contents file = some tables.strtab ∧ ∀ e ∈ m.exports, e.kind = .func →
        ∃ name d primary sym, e.name = some name ∧ HasPrimary ctx.module jit.debug tables e.index d primary ∧ sym ∈ tables.symtab ∧
          stringAt tables.strtab sym.name.toNat = sanitise name ∧ sym.shndx = primary.shndx ∧ sym.value = primary.value ∧
          sym.size = primary.size := by
  obtain ⟨hstart, hmodule, -⟩ := emission_start hprepare
  obtain ⟨-, hkept, -⟩ := jitEmitSpidir_emission hstart hemit
  have same : ctx.module = m := hkept.trans hmodule
  obtain ⟨⟨firstGlobal', tables'⟩, htables', hstitch⟩ := Option.bind_eq_some_iff.mp hrun
  obtain ⟨rfl, rfl⟩ := Prod.mk.inj (Option.some.inj (htables.symm.trans htables'))
  obtain ⟨code, rodata, h⟩ := stitch_eq_some hstitch
  obtain ⟨symtab, hsymtab, hcontents, -⟩ := h.symtab_section
  obtain ⟨strtab, hstrtab, hstrings⟩ := h.strtab_section
  refine ⟨_, symtab, strtab, h.readEhdr_eq, hsymtab, hcontents, hstrtab, hstrings, fun e he hkind => ?_⟩
  have recorded : ∀ e ∈ ctx.module.exports, e.kind = .func → _ := fun e he hkind =>
    exported_recorded (numbered_start hprepare) hemit hjit he hkind (hindex e (same ▸ he))
  obtain ⟨name, d, d', primary, sym, hname, hprimary, hlabel, hsym, hin, hfields⟩ := emitTables_named htables hfits recorded e (same ▸ he) hkind
  exact ⟨name, d, primary, sym, hname, hprimary, hsym, hlabel ▸ (hin.is (by omega)).label.stringAt_eq, hfields⟩

theorem exported_names_named : ∃ ctx jit file size firstGlobal tables,
    jitEmitSpidir 2 (startContext namedModule fun _ _ _ => none) = some ([1, 2, 0], ctx) ∧
    jitCodegen sampleHost recursiveEmitter true 10 ctx = some jit ∧ wasmJitEmitDebugElf sampleNames ctx.module jit = some (file, size) ∧
    emitTables sampleNames ctx.module jit.debug {} = some (firstGlobal, tables) ∧
    ∃ sym ∈ tables.symtab, stringAt tables.strtab sym.name.toNat = ascii "f" := by
  have run : ((jitEmitSpidir 2 (startContext namedModule fun _ _ _ => none)).bind fun r =>
      (jitCodegen sampleHost recursiveEmitter true 10 r.2).bind fun jit => (emitTables sampleNames r.2.module jit.debug {}).map fun f =>
        (r.1, decide (f.2.strtab.length + 2 < 2 ^ 32 ∧ (fileOffsets jit.debug f.2).size < 2 ^ 64 ∧
          (jit.image.load jit.debug.codeBase jit.debug.codeSize).isSome ∧ (jit.image.load jit.debug.rodataBase jit.debug.rodataSize).isSome))) =
      some ([1, 2, 0], true) := by decide +kernel
  obtain ⟨⟨built, ctx⟩, hemit, run⟩ := Option.bind_eq_some_iff.mp run
  obtain ⟨jit, hjit, run⟩ := Option.bind_eq_some_iff.mp run
  obtain ⟨⟨firstGlobal, tables⟩, htables, run⟩ := Option.map_eq_some_iff.mp run
  simp only [Prod.mk.injEq, decide_eq_true_eq] at run
  obtain ⟨rfl, hfits, hsize, hcode, hrodata⟩ := run
  obtain ⟨⟨file, size⟩, hfile⟩ := Option.isSome_iff_exists.mp (stitch_isSome firstGlobal hsize hcode hrodata)
  have emitted : wasmJitEmitDebugElf sampleNames ctx.module jit = some (file, size) := by
    simp only [wasmJitEmitDebugElf, htables, Option.bind_eq_bind, Option.bind_some, hfile]
  have prepared : jitPrepareState (startContext namedModule fun _ _ _ => none) = some (startContext namedModule fun _ _ _ => none, 0) := rfl
  have indices : ∀ e ∈ namedModule.exports, e.index < 2 ^ 32 := by decide
  obtain ⟨-, -, -, -, -, -, -, -, named⟩ := exported_names prepared hemit hjit emitted htables hfits indices
  obtain ⟨name, -, -, sym, hname, -, hsym, hread, -⟩ := named { name := some (ascii "f"), kind := .func, index := 0 } (by decide) rfl
  obtain rfl := Option.some.inj hname
  exact ⟨ctx, jit, file, size, _, _, hemit, hjit, emitted, htables, sym, hsym, hread⟩

/-! ### Names that the offsets cut -/

/-- From every offset in the name of the module on the name is read to its end. -/
theorem stringAt_twinTables {k : ℕ} (hk : k ≤ 2 ^ 32 - 32) : stringAt twinTables.strtab (k + 1) = List.replicate (2 ^ 32 - 32 - k) 0x61 := by
  refine StringTable.Holds.stringAt_eq ⟨0 :: List.replicate k 0x61, List.replicate 29 0x66 ++ [0] ++ ascii "g" ++ [0] ++ ascii "g" ++ [0],
    ?_, by rw [List.length_cons, List.length_replicate], fun h => ?_⟩
  · have split : longName = List.replicate k 0x61 ++ List.replicate (2 ^ 32 - 32 - k) 0x61 := by
      rw [List.replicate_append_replicate, Nat.add_sub_cancel' hk, longName]
    show twinStrtab ++ ascii "g" ++ [0] = _
    rw [twinStrtab, twinFront, split]
    simp only [List.append_assoc, List.cons_append, List.nil_append]
  · exact absurd (List.eq_of_mem_replicate h) (by decide)

/-- The name of the second export, which starts at 4 GiB, is that of no symbol. -/
theorem exported_names_too_long : ∃ ctx jit file size,
    jitEmitSpidir 5 (startContext (twinModule longName) fun _ _ _ => none) = some ([1, 0], ctx) ∧
    jitCodegen sampleHost twinEmitter true 10 ctx = some jit ∧ wasmJitEmitDebugElf sampleNames ctx.module jit = some (file, size) ∧
    emitTables sampleNames ctx.module jit.debug {} = some (3, twinTables) ∧
    { name := some (ascii "g"), kind := .func, index := 1 } ∈ ctx.module.exports ∧
    ∀ sym ∈ twinTables.symtab, stringAt twinTables.strtab sym.name.toNat ≠ sanitise (ascii "g") := by
  obtain ⟨ctx, maps, cg, jit, file, size, hemit, hmodule, -, -, -, -, hjit, hdebug, hfile⟩ := twin_run
  have tables : emitTables sampleNames ctx.module jit.debug {} = some (3, twinTables) := by
    rw [hmodule, hdebug]
    exact emitTables_twin
  refine ⟨ctx, jit, file, size, hemit, hjit, hfile, tables, ?_, ?_⟩
  · rw [hmodule]
    exact List.mem_cons_of_mem _ List.mem_cons_self
  · have letters {n : ℕ} {b : UInt8} (hb : b ≠ 0x67) : List.replicate n b ≠ sanitise (ascii "g") := fun h => by
      have mem : (0x67 : UInt8) ∈ List.replicate n b := by
        rw [h]
        decide
      exact hb (List.eq_of_mem_replicate mem).symm
    have zero : stringAt twinTables.strtab 0 ≠ sanitise (ascii "g") := by
      have empty : stringAt twinTables.strtab 0 = [] := (StringTable.holds_zero _).stringAt_eq
      rw [empty]
      decide
    have one : stringAt twinTables.strtab 1 ≠ sanitise (ascii "g") := by
      rw [stringAt_twinTables (Nat.zero_le _)]
      exact letters (by decide)
    have two : stringAt twinTables.strtab 2 ≠ sanitise (ascii "g") := by
      rw [@stringAt_twinTables 1 (by decide)]
      exact letters (by decide)
    have first : stringAt twinTables.strtab (2 ^ 32 - 30) ≠ sanitise (ascii "g") := by
      have read : stringAt twinTables.strtab (2 ^ 32 - 30) = List.replicate 29 0x66 := by
        refine StringTable.Holds.stringAt_eq ⟨twinFront, ascii "g" ++ [0] ++ ascii "g" ++ [0], ?_, length_twinFront, by decide⟩
        show twinStrtab ++ ascii "g" ++ [0] = _
        rw [twinStrtab]
        simp only [List.append_assoc, List.cons_append, List.nil_append]
      rw [read]
      exact letters (by decide)
    show ∀ sym ∈ twinSymtab, _
    simp only [twinSymtab, List.forall_mem_cons]
    exact ⟨zero, one, zero, first, zero, two, by simp⟩

end SpidirWasm.Jit
