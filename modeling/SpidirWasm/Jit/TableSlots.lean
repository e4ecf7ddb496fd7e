import SpidirWasm.Jit.LinkRuns

/-! The tables of a linked module. They lie behind the constant pools, and nothing but the
segments is stored in them, in the order of the section: a slot belongs to the last segment
over it. -/

namespace SpidirWasm.Jit

open Checked
open Wasm (ElemSegment WasmModule FuncType Name)

/-! ### Tables as the segments describe them -/

/-- The segment has an entry for slot `k` of table `i`. -/
def CoversSlot (i k : ℕ) (elem : ElemSegment) : Prop := elem.tableidx = i ∧ elem.offset ≤ k ∧ k < elem.offset + elem.funcs.length

instance (i k : ℕ) : DecidablePred (CoversSlot i k) := fun elem => by unfold CoversSlot; infer_instance

/-- The function that the last segment over slot `k` of table `i` names. -/
def slotEntry (elems : List ElemSegment) (i k : ℕ) : Option ℕ :=
  (elems.filter fun elem => CoversSlot i k elem).getLast?.bind fun elem => elem.funcs[k - elem.offset]?

/-- The entries behind a segment, which fills slots of table `i` from `p` on. -/
def setSlots (entries : ℕ → ℕ → Option ℕ) (i p : ℕ) (funcs : List ℕ) : ℕ → ℕ → Option ℕ := fun j k =>
  if j = i ∧ p ≤ k ∧ k < p + funcs.length then funcs[k - p]? else entries j k

theorem setSlots_of_not {entries : ℕ → ℕ → Option ℕ} {i j k p : ℕ} {funcs : List ℕ} (h : ¬(j = i ∧ p ≤ k ∧ k < p + funcs.length)) :
    setSlots entries i p funcs j k = entries j k := if_neg h

theorem setSlots_nil (entries : ℕ → ℕ → Option ℕ) (i p : ℕ) : setSlots entries i p [] = entries := by
  funext j k
  exact setSlots_of_not (by simp only [List.length_nil]; omega)

/-- The first slot, and then the rest. -/
theorem setSlots_cons (entries : ℕ → ℕ → Option ℕ) (i p funcidx : ℕ) (funcs : List ℕ) :
    setSlots (setSlots entries i p [funcidx]) i (p + 1) funcs = setSlots entries i p (funcidx :: funcs) := by
  funext j k
  simp only [setSlots, List.length_cons, List.length_nil]
  by_cases hj : j = i
  · obtain hlt | rfl | hgt := Nat.lt_trichotomy k p
    · rw [if_neg (by omega), if_neg (by omega), if_neg (by omega)]
    · rw [if_neg (by omega), if_pos (by omega), if_pos (by omega), Nat.sub_self]
      rfl
    · by_cases hk : k < p + 1 + funcs.length
      · have next : k - p = k - (p + 1) + 1 := by omega
        rw [if_pos (by omega), if_pos (by omega), next, List.getElem?_cons_succ]
      · rw [if_neg (by omega), if_neg (by omega), if_neg (by omega)]
  · rw [if_neg (by omega), if_neg (by omega), if_neg (by omega)]

/-- A segment goes over what was filled before. -/
theorem slotEntry_append (elems : List ElemSegment) (elem : ElemSegment) :
    slotEntry (elems ++ [elem]) = setSlots (slotEntry elems) elem.tableidx elem.offset elem.funcs := by
  funext i k
  have covers : (i = elem.tableidx ∧ elem.offset ≤ k ∧ k < elem.offset + elem.funcs.length) = CoversSlot i k elem := by
    rw [CoversSlot, eq_comm (a := i)]
  rw [slotEntry, List.filter_append, setSlots, if_congr covers.to_iff rfl rfl]
  split_ifs with h
  · rw [List.filter_cons_of_pos (by simpa using h), List.filter_nil, List.getLast?_append_of_ne_nil _ (List.cons_ne_nil _ _)]
    rfl
  · rw [List.filter_cons_of_neg (by simpa using h), List.filter_nil, List.append_nil]
    rfl

/-! ### Tables in the binary -/

/-- A used table, at the address that code is linked against. -/
def TableAt (l : Linker) (i a n : ℕ) : Prop :=
  ∃ table offset, l.ctx.tables[i]? = some table ∧ table.used = true ∧ l.codegen.globalOffsets.lookup table.global = some offset ∧
    a = sizeT (l.rodata + offset) ∧ n = table.length

/-- A slot with the address of a function's thunk, or a null slot. -/
def SlotHolds (l : Linker) (image : Memory UInt8) (p : ℕ) : Option ℕ → Prop
  | none => image.load p 8 = some (slotBytes 0)
  | some funcidx => ∃ func a, l.ctx.functions[funcidx]? = some func ∧ func.hasCfi = true ∧ Published l image func.cfiThunk a ∧
      image.load p 8 = some (slotBytes a)

/-- The tables of the binary: aligned, inside of the constants, apart from each other and from
the constant pools, and filled as the segments say. -/
structure TableImage (l : Linker) (image : Memory UInt8) : Prop where
  placed : ∀ (i : ℕ) (table : JitTable), l.ctx.tables[i]? = some table → table.used = true → ∃ a, TableAt l i a table.length
  aligned : ∀ i a n, TableAt l i a n → 8 ∣ a
  inside : ∀ i a n, TableAt l i a n → ∀ k < n, l.rodata ≤ a + 8 * k ∧ a + 8 * k + 8 ≤ l.rodata + l.codegen.rodataSize
  apart : ∀ i j a b n m, TableAt l i a n → TableAt l j b m → i ≠ j → a + 8 * n ≤ b ∨ b + 8 * m ≤ a
  pools : ∀ i a n, TableAt l i a n → ∀ f ∈ l.codegen.functions, f.blob.constpool.length ≠ 0 →
    l.rodata + f.constpoolOffset + f.blob.constpool.length ≤ a ∨ a + 8 * n ≤ l.rodata + f.constpoolOffset
  slots : ∀ i a n, TableAt l i a n → ∀ k < n, SlotHolds l image (a + 8 * k) (slotEntry l.ctx.module.elems i k)

/-- A linker whose tables lie behind constant pools that end at `stop`. -/
structure Linker.Laid (l : Linker) (stop : ℕ) : Prop extends l.Entries where
  codeAligned : ∀ f ∈ l.codegen.functions, 16 ∣ l.entry f
  rodataAligned : 8 ∣ l.rodata
  pools : ∀ f ∈ l.codegen.functions, f.blob.constpool.length ≠ 0 → f.constpoolOffset + f.blob.constpool.length ≤ stop
  tables : ∀ (i : ℕ) (table : JitTable), l.ctx.tables[i]? = some table → table.used = true →
    l.codegen.globalOffsets.lookup table.global = some (tableStart stop l.ctx.tables i)
  size : tablesEnd stop l.ctx.tables ≤ l.codegen.rodataSize

variable {l : Linker} {stop i j a b n m bound : ℕ} {image image' : Memory UInt8} {f g : FunctionCodegen} {bytes : List UInt8} {s t : Linked}

/-- Where a table is: a table without slots may end the address space. -/
theorem Linker.Laid.at (h : l.Laid stop) (ht : TableAt l i a n) : ∃ table, l.ctx.tables[i]? = some table ∧ table.used = true ∧
    n = table.length ∧ l.rodata + tableStart stop l.ctx.tables i + 8 * n ≤ l.rodata + l.codegen.rodataSize ∧
    (a = l.rodata + tableStart stop l.ctx.tables i ∨ n = 0 ∧ a = 0) := by
  obtain ⟨table, offset, htable, hused, hoffset, ha, hn⟩ := ht
  have place : offset = tableStart stop l.ctx.tables i := Option.some.inj (hoffset.symm.trans (h.tables i table htable hused))
  have stops := @tableStart_add_le l.ctx stop table i l.ctx.tables.length htable hused (List.getElem?_eq_some_iff.mp htable).1
  rw [List.take_length] at stops
  have size := h.size
  have fits := h.fits
  refine ⟨table, htable, hused, hn, by omega, ?_⟩
  subst place
  obtain hlt | heq := Nat.lt_or_eq_of_le (show l.rodata + tableStart stop l.ctx.tables i ≤ 2 ^ 64 by omega)
  · exact .inl (by rw [ha, sizeT_of_lt hlt])
  · exact .inr ⟨by omega, by rw [ha, heq]; rfl⟩

/-- The table behind another starts behind it. -/
theorem Linker.Laid.before (h : l.Laid stop) (hi : TableAt l i a n) (hij : i < j) :
    tableStart stop l.ctx.tables i + 8 * n ≤ tableStart stop l.ctx.tables j := by
  obtain ⟨table, htable, hused, rfl, -⟩ := h.at hi
  exact (tableStart_add_le htable hused hij).trans (le_tableStart _ _ _)

theorem Linker.Laid.behind (l : Linker) (stop i : ℕ) : stop ≤ tableStart stop l.ctx.tables i :=
  (le_tablesEnd _ _).trans (le_tableStart _ _ i)

theorem Linker.Laid.apart (h : l.Laid stop) (hi : TableAt l i a n) (hj : TableAt l j b m) (hij : i ≠ j) : a + 8 * n ≤ b ∨ b + 8 * m ≤ a := by
  obtain ⟨-, -, -, -, -, ha⟩ := h.at hi
  obtain ⟨-, -, -, -, -, hb⟩ := h.at hj
  obtain hlt | hlt := Nat.lt_or_gt_of_ne hij
  · have := h.before hi hlt
    omega
  · have := h.before hj hlt
    omega

/-- The slots of a table lie in the constants, behind the pools. -/
theorem Linker.Laid.slot (h : l.Laid stop) (hi : TableAt l i a n) {k : ℕ} (hk : k < n) :
    a = l.rodata + tableStart stop l.ctx.tables i ∧ l.rodata + stop ≤ a ∧ a + 8 * n ≤ l.rodata + l.codegen.rodataSize := by
  obtain ⟨-, -, -, -, hstop, ha⟩ := h.at hi
  have behind := Linker.Laid.behind l stop i
  omega

/-! ### Everything but the segments -/

/-- A store below an address. -/
def KeepsAbove (bound : ℕ) (image image' : Memory UInt8) : Prop := ∀ a, bound ≤ a → image' a = image a

theorem keepsAbove_of_run (hrun : Relation.ReflTransGen (KeepsAbove bound) image image') : KeepsAbove bound image image' := by
  induction hrun with
  | refl => exact fun _ _ => rfl
  | tail _ hs ih => exact fun a ha => (hs a ha).trans (ih a ha)

abbrev StoresBelow (bound : ℕ) {α : Type} (m : Checked Linked α) : Prop := SpidirWasm.Moves (KeepsAbove bound) Linked.image m

theorem write_keepsAbove (h : a + bytes.length ≤ bound) : KeepsAbove bound image (image.write a bytes) :=
  fun _ hb => Memory.write_of_not_mem (.inr (h.trans hb))

/-- Taking an address stores in front of a function. -/
theorem stub_keepsAbove (h : l.Entries) (hf : f ∈ l.codegen.functions) (hbound : l.rodata ≤ bound) :
    KeepsAbove bound image (image.write (l.entry f - 4) endbr64) := by
  obtain ⟨hstart, hstop⟩ := h.code f hf
  exact write_keepsAbove (by rw [length_endbr64]; omega)

theorem jitGetInternalFunctionAddr_below (h : l.Entries) (hbound : l.rodata ≤ bound) (id : ℕ) :
    StoresBelow bound (jitGetInternalFunctionAddr l id) := .single fun s a t hrun => by
  obtain ⟨f, hf, -, -, rfl, -⟩ := jitGetInternalFunctionAddr_eq_some h hrun
  exact stub_keepsAbove h hf hbound

theorem copyBytes_below (hfits : bytes.length ≠ 0 → a + bytes.length ≤ 2 ^ 64 ∧ a + bytes.length ≤ bound) :
    StoresBelow bound (copyBytes l a bytes) := .single fun s _ t hrun => by
  by_cases hlength : bytes.length = 0
  · rw [copyBytes, if_neg (not_not_intro hlength)] at hrun
    obtain ⟨-, rfl⟩ := Prod.mk.inj (Option.some.inj hrun)
    exact fun _ _ => rfl
  · obtain ⟨hmax, hstop⟩ := hfits hlength
    have himage := copyBytes_image (fun _ => by omega) hrun
    rw [himage]
    exact write_keepsAbove hstop

theorem relocTarget_below (h : l.Entries) (hbound : l.rodata ≤ bound) (r : Reloc) : StoresBelow bound (relocTarget l f r) := by
  rw [relocTarget]
  cases r.target with
  | constpool => exact .pure _
  | global id => exact .liftSeq fun _ _ => .pure _
  | internal id =>
    refine .liftSeq fun i hi => .liftSeq fun g hg => ?_
    obtain ⟨hmem, -⟩ := h.found hi hg
    split_ifs
    · exact .single fun s a t hrun => by
        obtain ⟨-, rfl⟩ := jitGetIndirect_eq_some h hmem hrun
        exact stub_keepsAbove h hmem hbound
    · exact .pure _
  | external id =>
    simp only
    cases jitHelperLookupAddress l.host l.ctx id with
    | some address => exact .pure _
    | none => exact .lift _
  | libcall kind => exact .lift _

theorem captured_below {α : Type} {m : Checked Linked α} {otherwise : α} (hm : ∀ x s t, m s = some (x, t) → t.image = s.image) :
    StoresBelow bound (l.captured m otherwise) := .still fun _ _ _ hrun => captured_image hm hrun

/-- A relocation is stored in its function's code. -/
theorem linkReloc_below {o : ℕ × Bool} (h : l.Entries) (hf : f ∈ l.codegen.functions) (hbound : l.rodata ≤ bound) (r : Reloc) :
    StoresBelow bound (linkReloc l f o r) := by
  refine .seq (relocTarget_below h hbound r) fun target => .seq (captured_below fun _ _ _ hrun => by rw [debugTarget_image hrun]) fun _ =>
    .seq (.single fun s _ t hrun => ?_) fun _ => captured_below fun _ _ _ hrun => by rw [← (Prod.mk.inj (Option.some.inj hrun)).2]
  obtain ⟨hin, rfl⟩ := jitApplyReloc_eq_some h hf hrun
  have length := r.length_fieldBytes (l.entry f + r.offset) target
  obtain ⟨-, hstop⟩ := h.code f hf
  exact write_keepsAbove (by omega)

/-- Linking stores nothing behind the constant pools. -/
theorem linkFunction_below (h : l.Laid stop) (hf : f ∈ l.codegen.functions) : StoresBelow (l.rodata + stop) (linkFunction l f) := by
  obtain ⟨-, hstop⟩ := h.code f hf
  have fits := h.fits
  have size := h.size
  have tables : stop ≤ tablesEnd stop l.ctx.tables := le_tablesEnd _ _
  refine .seq (copyBytes_below fun _ => ?_) fun _ => .seq (copyBytes_below fun hpool => ?_) fun _ =>
    .seq (captured_below fun _ _ _ hrun => recordLayout_image hrun) fun o => ?_
  · change l.entry f + f.blob.code.length ≤ 2 ^ 64 ∧ l.entry f + f.blob.code.length ≤ l.rodata + stop
    omega
  · have := h.pools f hf hpool
    omega
  · have reloc : ∀ r, StoresBelow (l.rodata + stop) (linkReloc l f o r) := linkReloc_below h.toEntries hf (Nat.le_add_right _ _)
    infer_instance

theorem jitCodegenLink_below (h : l.Laid stop) : StoresBelow (l.rodata + stop) (jitCodegenLink l) := .forMem fun _ hf => linkFunction_below h hf

theorem jitGetFunctionAddr_below (h : l.Entries) (hbound : l.rodata ≤ bound) (funcidx : ℕ) : StoresBelow bound (jitGetFunctionAddr l funcidx) := by
  have := jitGetInternalFunctionAddr_below h hbound
  unfold jitGetFunctionAddr
  infer_instance

theorem fillExport_below (h : l.Entries) (hbound : l.rodata ≤ bound) (e : Wasm.WasmExport) : StoresBelow bound (fillExport l e) := by
  have := jitGetFunctionAddr_below h hbound
  unfold fillExport
  split <;> infer_instance

theorem fillExports_below (h : l.Entries) (hbound : l.rodata ≤ bound) (es : List Wasm.WasmExport) : StoresBelow bound (fillExports l es) := by
  have := fillExport_below h hbound
  induction es with
  | nil => exact .pure _
  | cons e es ih => unfold fillExports; infer_instance

theorem jitCodegenFillFunctions_below (h : l.Entries) (hbound : l.rodata ≤ bound) : StoresBelow bound (jitCodegenFillFunctions l) := by
  have := jitGetFunctionAddr_below h hbound
  have := fillExports_below h hbound
  unfold jitCodegenFillFunctions
  infer_instance

/-! ### The segments -/

/-- The slots of the tables hold these entries. -/
def TablesHold (l : Linker) (image : Memory UInt8) (entries : ℕ → ℕ → Option ℕ) : Prop :=
  ∀ i a n, TableAt l i a n → ∀ k < n, SlotHolds l image (a + 8 * k) (entries i k)

/-- Two stubs are the same or apart, so that an address stays published. -/
theorem Published.stub {id : ℕ} (hp : Published l image id a) (h : l.Laid stop) (hf : f ∈ l.codegen.functions) :
    Published l (image.write (l.entry f - 4) endbr64) id a := by
  obtain ⟨g, hg, hid, ha, hstub⟩ := hp
  refine ⟨g, hg, hid, ha, ?_⟩
  obtain ⟨hstart, -⟩ := h.code f hf
  have start : l.entry g - 4 = a := by omega
  obtain ⟨x, hx⟩ := h.codeAligned f hf
  obtain ⟨y, hy⟩ := h.codeAligned g hg
  by_cases hxy : x = y
  · have same : l.entry f - 4 = a := by omega
    rw [same]
    exact Memory.load_write_self image a endbr64
  · rw [Memory.load_write_of_disjoint (by rw [length_endbr64]; omega), hstub]

/-- A store in the constants leaves the published addresses. -/
theorem Published.data {id : ℕ} (hp : Published l image id a) (h : l.Entries) (hb : l.rodata ≤ b) :
    Published l (image.write b bytes) id a := by
  obtain ⟨g, hg, hid, ha, hstub⟩ := hp
  refine ⟨g, hg, hid, ha, ?_⟩
  obtain ⟨-, hstop⟩ := h.code g hg
  rw [Memory.load_write_of_disjoint (by omega), hstub]

theorem SlotHolds.stub {p : ℕ} {entry : Option ℕ} (hs : SlotHolds l image p entry) (h : l.Laid stop) (hf : f ∈ l.codegen.functions)
    (hp : l.rodata ≤ p) : SlotHolds l (image.write (l.entry f - 4) endbr64) p entry := by
  obtain ⟨hstart, hstop⟩ := h.code f hf
  have load : (image.write (l.entry f - 4) endbr64).load p 8 = image.load p 8 :=
    Memory.load_write_of_disjoint (by rw [length_endbr64]; omega)
  cases entry with
  | none => exact load.trans hs
  | some funcidx =>
    obtain ⟨func, a, hfunc, hcfi, hpub, hload⟩ := hs
    exact ⟨func, a, hfunc, hcfi, hpub.stub h hf, load.trans hload⟩

/-- Another slot stays as it is. -/
theorem SlotHolds.other {p q : ℕ} {entry : Option ℕ} (hs : SlotHolds l image p entry) (h : l.Entries) (hq : l.rodata ≤ q)
    (hpq : q + 8 ≤ p ∨ p + 8 ≤ q) : SlotHolds l (image.write q (slotBytes a)) p entry := by
  have load : (image.write q (slotBytes a)).load p 8 = image.load p 8 := Memory.load_write_of_disjoint (by rw [length_slotBytes]; omega)
  cases entry with
  | none => exact load.trans hs
  | some funcidx =>
    obtain ⟨func, b, hfunc, hcfi, hpub, hload⟩ := hs
    exact ⟨func, b, hfunc, hcfi, hpub.data h hq, load.trans hload⟩

variable {entries : ℕ → ℕ → Option ℕ} {funcidx k p : ℕ} {func : JitFunction} {funcs : List ℕ} {elem : ElemSegment} {elems : List ElemSegment}

theorem TablesHold.stub (hfill : TablesHold l image entries) (h : l.Laid stop) (hf : f ∈ l.codegen.functions) :
    TablesHold l (image.write (l.entry f - 4) endbr64) entries := by
  intro i a n ht k hk
  obtain ⟨-, hstart, -⟩ := h.slot ht hk
  exact (hfill i a n ht k hk).stub h hf (by omega)

/-- One slot is filled. -/
theorem TablesHold.slot (hfill : TablesHold l image entries) (h : l.Laid stop) (ht : TableAt l i a n) (hk : k < n)
    (hfunc : l.ctx.functions[funcidx]? = some func) (hcfi : func.hasCfi = true) (hpub : Published l image func.cfiThunk b) :
    TablesHold l (image.write (a + 8 * k) (slotBytes b)) (setSlots entries i k [funcidx]) := by
  intro j a' m ht' q hq
  obtain ⟨ha, hlow, -⟩ := h.slot ht hk
  obtain ⟨ha', -, -⟩ := h.slot ht' hq
  by_cases hslot : j = i ∧ q = k
  · obtain ⟨rfl, rfl⟩ := hslot
    have entry : setSlots entries j q [funcidx] j q = some funcidx := by
      rw [setSlots, if_pos (by simp), Nat.sub_self]
      rfl
    rw [entry, ha', ← ha]
    have hload := Memory.load_write_self image (a + 8 * q) (slotBytes b)
    rw [length_slotBytes] at hload
    exact ⟨func, b, hfunc, hcfi, hpub.data h.toEntries (by omega), hload⟩
  · rw [setSlots_of_not (by simp only [List.length_cons, List.length_nil]; omega)]
    refine (hfill j a' m ht' q hq).other h.toEntries (by omega) ?_
    by_cases hj : j = i
    · subst hj
      have : q ≠ k := fun hqk => hslot ⟨rfl, hqk⟩
      omega
    · have := h.apart ht ht' (Ne.symm hj)
      omega

/-- The slots from `p` on are filled one after the other. -/
theorem fillSlots_filled {slots : ℕ} (h : l.Laid stop) (ht : TableAt l i a n) (hslots : 0 < n → slots = a) (hfit : p + funcs.length ≤ n)
    (hfill : TablesHold l s.image entries) (hrun : fillSlots l slots p funcs s = some ((), t)) :
    TablesHold l t.image (setSlots entries i p funcs) := by
  induction funcs generalizing p s entries with
  | nil =>
    obtain ⟨-, rfl⟩ := Prod.mk.inj (Option.some.inj hrun)
    rwa [setSlots_nil]
  | cons funcidx funcs ih =>
    simp only [fillSlots, lift_bind_eq_some, check_bind_eq_some] at hrun
    obtain ⟨func, hfunc, hcfi, hrun⟩ := hrun
    obtain ⟨b, u, haddr, hrun⟩ := (bind_eq_some _ _ _ _).mp hrun
    obtain ⟨_, v, hpoke, hrest⟩ := (bind_eq_some _ _ _ _).mp hrun
    rw [List.length_cons] at hfit
    have hp : p < n := by omega
    obtain rfl := hslots (by omega)
    obtain ⟨f, hf, -, -, rfl, hpub⟩ := jitGetInternalFunctionAddr_eq_some h.toEntries haddr
    obtain ⟨-, -, hstop⟩ := h.slot ht hp
    have fits := h.fits
    have himage := congrArg Linked.image (poke_image (by omega) hpoke)
    have first : TablesHold l v.image (setSlots entries i p [funcidx]) := by
      rw [himage]
      exact (hfill.stub h hf).slot h ht hp hfunc hcfi hpub
    rw [← setSlots_cons]
    exact ih (by omega) first hrest

theorem fillElem_filled (h : l.Laid stop) (hfill : TablesHold l s.image (slotEntry elems)) (hrun : fillElem l elem s = some ((), t)) :
    TablesHold l t.image (slotEntry (elems ++ [elem])) := by
  rw [slotEntry_append]
  simp only [fillElem, lift_bind_eq_some, check_bind_eq_some] at hrun
  obtain ⟨-, table, htable, hrun⟩ := hrun
  split_ifs at hrun with hused
  · simp only [lift_bind_eq_some, check_bind_eq_some] at hrun
    obtain ⟨offset, hoffset, -, hend, hrun⟩ := hrun
    have ht : TableAt l elem.tableidx (sizeT (l.rodata + offset)) table.length := ⟨table, offset, htable, hused, hoffset, rfl, rfl⟩
    refine fillSlots_filled h ht (fun hpos => ?_) hend hfill hrun
    obtain ⟨ha, -, hstop⟩ := h.slot ht hpos
    have place : offset = tableStart stop l.ctx.tables elem.tableidx := Option.some.inj (hoffset.symm.trans (h.tables _ _ htable hused))
    rw [ha, place]
  · obtain ⟨-, rfl⟩ := Prod.mk.inj (Option.some.inj hrun)
    intro i a n ht k hk
    have other : i ≠ elem.tableidx := by
      rintro rfl
      obtain ⟨table', _, htable', hused', -⟩ := ht
      obtain rfl := Option.some.inj (htable.symm.trans htable')
      exact hused hused'
    rw [setSlots_of_not fun hc => other hc.1]
    exact hfill i a n ht k hk

/-- The segments in the order of their section. -/
theorem fillElems_filled {rest : List ElemSegment} (h : l.Laid stop) (hfill : TablesHold l s.image (slotEntry elems))
    (hrun : rest.forM (fillElem l) s = some ((), t)) : TablesHold l t.image (slotEntry (elems ++ rest)) := by
  induction rest generalizing elems s with
  | nil =>
    obtain ⟨-, rfl⟩ := Prod.mk.inj (Option.some.inj hrun)
    rwa [List.append_nil]
  | cons elem rest ih =>
    rw [List.forM_eq_forM, List.forM_cons] at hrun
    obtain ⟨_, u, hfirst, hrest⟩ := (bind_eq_some _ _ _ _).mp hrun
    rw [List.append_cons]
    exact ih (fillElem_filled h hfill hfirst) hrest

/-! ### A module -/

/-- What a linker whose tables are laid out leaves in them. -/
theorem linker_tables {l : Linker} {stop : ℕ} {exports : List JitExport} {start : Option ℕ} {s t u : Linked} (h : l.Laid stop)
    (hlink : jitCodegenLink l { image := freshImage l.binary l.codegen.codeSize l.codegen.rodataSize } = some ((), s))
    (hfunctions : jitCodegenFillFunctions l s = some ((exports, start), t)) (htables : jitCodegenFillTables l t = some ((), u)) :
    TableImage l u.image := by
  have kept : KeepsAbove (l.rodata + stop) (freshImage l.binary l.codegen.codeSize l.codegen.rodataSize) t.image :=
    keepsAbove_of_run (((jitCodegenLink_below h).moves _ _ _ hlink).trans
      ((jitCodegenFillFunctions_below h.toEntries (Nat.le_add_right _ _)).moves _ _ _ hfunctions))
  -- the constants are zero at first
  have zero : TablesHold l t.image (slotEntry []) := by
    intro i a n ht k hk
    obtain ⟨-, hlow, hstop⟩ := h.slot ht hk
    refine Memory.load_eq_some.mpr ⟨length_slotBytes 0, fun x hx => ?_⟩
    have fresh : freshImage l.binary l.codegen.codeSize l.codegen.rodataSize (a + 8 * k + x) = some 0 :=
      Memory.map_of_mem (by rw [← Linker.rodata]; omega) (by rw [← Linker.rodata]; omega)
    have byte : ∀ x < 8, (slotBytes 0)[x]? = some 0 := by decide
    rw [kept _ (by omega), fresh, byte x hx]
  refine ⟨fun i table htable hused => ?_, fun i a n ht => ?_, fun i a n ht k hk => ?_, fun i j a b n m hi hj hij => h.apart hi hj hij,
    fun i a n ht f hf hpool => ?_, fillElems_filled h zero htables⟩
  · exact ⟨_, table, _, htable, hused, h.tables i table htable hused, rfl, rfl⟩
  · obtain ⟨-, -, -, -, -, ha⟩ := h.at ht
    have aligned : 8 ∣ tableStart stop l.ctx.tables i := dvd_alignUp _ 8
    have rodata := h.rodataAligned
    omega
  · obtain ⟨-, hlow, hstop⟩ := h.slot ht hk
    omega
  · obtain ⟨-, -, -, -, -, ha⟩ := h.at ht
    have := h.pools f hf hpool
    have behind := Linker.Laid.behind l stop i
    omega

/-- The linker of a module has its tables laid out when no size wraps around. -/
theorem jitLinker_laid {host : JitHost} {emitter : Emitter} {ctx : JitContext} {cg : Codegen} {fuel binary : ℕ} (hhost : host.Ok)
    (hglobals : ∀ (i : ℕ) (t : JitTable), ctx.tables[i]? = some t → t.global = i)
    (hlength : ctx.tables.length = ctx.module.tables.length) (hrun : codegenAll emitter ctx fuel {} = some ((), cg))
    (hcode : alignUp (codeEnd 0 (cg.functions.map FunctionCodegen.blob)) host.pageSize < 2 ^ 64)
    (hrodata : alignUp (tablesEnd (poolsEnd 0 (cg.functions.map FunctionCodegen.blob)) ctx.tables) host.pageSize < 2 ^ 64)
    (halloc : host.jitAlloc ((cg.pages host.pageSize).codeSize / host.pageSize) ((cg.pages host.pageSize).rodataSize / host.pageSize) =
      some binary) (hnull : binary ≠ 0) :
    (jitLinker host ctx cg binary).Laid (poolsEnd 0 (cg.functions.map FunctionCodegen.blob)) := by
  obtain ⟨k, hk, -, hpage⟩ := hhost.page
  have pos : 0 < host.pageSize := hpage ▸ Nat.two_pow_pos k
  have sixteen : 16 ∣ host.pageSize := hpage ▸ (show 16 = 2 ^ 4 from rfl) ▸ Nat.pow_dvd_pow 2 hk
  have codeLe := le_alignUp (n := codeEnd 0 (cg.functions.map FunctionCodegen.blob)) pos
  have rodataLe := le_alignUp (n := tablesEnd (poolsEnd 0 (cg.functions.map FunctionCodegen.blob)) ctx.tables) pos
  obtain ⟨hcodeSize, hinside⟩ := codegenAll_inside hrun (by omega)
  obtain ⟨hplaced, hpools, hindex⟩ := codegenAll_placed hglobals hlength hrun (by omega)
  have hrodataSize := hplaced.size
  rw [List.take_length] at hrodataSize
  have codePages : (cg.pages host.pageSize).codeSize = alignUp cg.codeSize host.pageSize := sizeT_of_lt (hcodeSize ▸ hcode)
  have rodataPages : (cg.pages host.pageSize).rodataSize = alignUp cg.rodataSize host.pageSize := sizeT_of_lt (hrodataSize ▸ hrodata)
  obtain ⟨haligned, hfits⟩ := hhost.alloc _ _ _ halloc
  have sizes : ((cg.pages host.pageSize).codeSize / host.pageSize + (cg.pages host.pageSize).rodataSize / host.pageSize) * host.pageSize =
      alignUp cg.codeSize host.pageSize + alignUp cg.rodataSize host.pageSize := by
    rw [Nat.add_mul, codePages, rodataPages, Nat.div_mul_cancel (dvd_alignUp _ _), Nat.div_mul_cancel (dvd_alignUp _ _)]
  rw [sizes] at hfits
  have binary16 : 16 ∣ binary := sixteen.trans haligned
  have rodata : (jitLinker host ctx cg binary).rodata = binary + alignUp cg.codeSize host.pageSize := by
    rw [Linker.rodata, ← codePages]
    rfl
  have entry (f : FunctionCodegen) : (jitLinker host ctx cg binary).entry f = binary + f.codeOffset := rfl
  refine ⟨⟨fun f hf => ?_, hindex, ?_⟩, fun f hf => ?_, ?_, hpools, fun i t ht hused => ?_, ?_⟩
  · obtain ⟨-, hstop⟩ := hinside f hf
    have whole : cg.codeSize ≤ alignUp cg.codeSize host.pageSize := le_alignUp pos
    rw [rodata, entry]
    omega
  · rw [rodata]
    show binary + alignUp cg.codeSize host.pageSize + (cg.pages host.pageSize).rodataSize ≤ 2 ^ 64
    omega
  · obtain ⟨hdvd, -⟩ := hinside f hf
    exact Nat.dvd_add binary16 hdvd
  · have : 16 ∣ alignUp cg.codeSize host.pageSize := sixteen.trans (dvd_alignUp _ _)
    rw [rodata]
    omega
  · exact hplaced.slots i (List.getElem?_eq_some_iff.mp ht).1 t ht hused
  · show tablesEnd _ ctx.tables ≤ (cg.pages host.pageSize).rodataSize
    rw [rodataPages, hrodataSize]
    exact rodataLe

/-- A segment that can be stored: its table exists, and it ends in the table if that is used. -/
def SegmentFits (ctx : JitContext) (elem : ElemSegment) : Prop := elem.tableidx < ctx.module.tables.length ∧
  ∀ t, ctx.tables[elem.tableidx]? = some t → t.used = true → elem.offset + elem.funcs.length ≤ t.length

theorem fillElem_fits (hrun : fillElem l elem s = some ((), t)) : SegmentFits l.ctx elem := by
  simp only [fillElem, lift_bind_eq_some, check_bind_eq_some] at hrun
  obtain ⟨hcount, table, htable, hrun⟩ := hrun
  refine ⟨hcount, fun table' htable' hused => ?_⟩
  obtain rfl := Option.some.inj (htable.symm.trans htable')
  rw [if_pos hused] at hrun
  simp only [lift_bind_eq_some, check_bind_eq_some] at hrun
  obtain ⟨_, -, -, hend, -⟩ := hrun
  exact hend

theorem jitCodegenFillTables_fits (hrun : jitCodegenFillTables l s = some ((), t)) (helem : elem ∈ l.ctx.module.elems) : SegmentFits l.ctx elem := by
  obtain ⟨_, _, hfill⟩ := forM_eq_some_mem hrun helem
  exact fillElem_fits hfill

/-- The capture does not show in the tables. -/
theorem TableImage.capture {l : Linker} {captureDebug : Bool} {maps : DebugMaps} (h : TableImage { l with captureDebug, maps } image) :
    TableImage l image := ⟨h.placed, h.aligned, h.inside, h.apart, h.pools, h.slots⟩

/-- The tables of a module: unless the size of the code or of the constants wraps around, they
are laid out and filled as the segments say; and a module with a segment that does not fit in
its used table gets no binary. -/
theorem tables_filled {host : JitHost} {m : WasmModule} {resolveImport : Option Name → Option Name → FuncType → Option ℕ}
    {c ctx : JitContext} {stateSize fuel' : ℕ} {built : List ℕ} (hhost : host.Ok)
    (hnull : ∀ rxPageCount roPageCount, host.jitAlloc rxPageCount roPageCount ≠ some 0)
    (hprepare : jitPrepareState (startContext m resolveImport) = some (c, stateSize)) (hemit : jitEmitSpidir fuel' c = some (built, ctx)) :
    (∀ (emitter : Emitter) (captureDebug : Bool) (fuel : ℕ) (jit : WasmModuleJit) (cg : Codegen),
      jitCodegen host emitter captureDebug fuel ctx = some jit → codegenAll emitter ctx fuel {} = some ((), cg) →
      alignUp (codeEnd 0 (cg.functions.map FunctionCodegen.blob)) host.pageSize < 2 ^ 64 →
      alignUp (tablesEnd (poolsEnd 0 (cg.functions.map FunctionCodegen.blob)) ctx.tables) host.pageSize < 2 ^ 64 →
      TableImage (jitLinker host ctx cg jit.binary) jit.image) ∧
    ∀ (emitter : Emitter) (captureDebug : Bool) (fuel : ℕ) (elem : ElemSegment) (table : JitTable), elem ∈ m.elems →
      ctx.tables[elem.tableidx]? = some table → table.used = true → table.length < elem.offset + elem.funcs.length →
      jitCodegen host emitter captureDebug fuel ctx = none := by
  obtain ⟨hstart, hmodule, -, hnone, hcount⟩ := emission_start hprepare
  obtain ⟨-, hkept, -, -, -, hlength, hglobals⟩ := jitEmitSpidir_emission hstart hemit
  refine ⟨fun emitter captureDebug fuel jit cg hjit hcodegen hcode hrodata => ?_,
    fun emitter captureDebug fuel elem table helem htable hused hfit => ?_⟩
  · have globals : ∀ (i : ℕ) (t : JitTable), ctx.tables[i]? = some t → t.global = i := fun i t ht => by
      have := hglobals (by rw [hcount, hmodule]) i t ht
      rwa [hnone, Nat.zero_add] at this
    have tables : ctx.tables.length = ctx.module.tables.length := by rw [hlength, hcount, hkept, hmodule]
    simp only [jitCodegen, Option.bind_eq_bind, Option.pure_def, Option.bind_eq_some_iff, Option.some.injEq] at hjit
    obtain ⟨maps, -, ⟨_, cg'⟩, hcg, binary, halloc, ⟨_, s⟩, hlink, ⟨⟨exports, start⟩, t⟩, hfunctions, ⟨_, u⟩, htables, _, -, rfl⟩ := hjit
    obtain rfl : cg = cg' := (Prod.mk.inj (Option.some.inj (hcodegen.symm.trans hcg))).2
    have laid := jitLinker_laid hhost globals tables hcodegen hcode hrodata halloc fun hzero => hnull _ _ (hzero ▸ halloc)
    have linked : Linker.Laid { jitLinker host ctx cg binary with captureDebug, maps } (poolsEnd 0 (cg.functions.map FunctionCodegen.blob)) :=
      ⟨⟨laid.code, laid.index, laid.fits⟩, laid.codeAligned, laid.rodataAligned, laid.pools, laid.tables, laid.size⟩
    exact (linker_tables linked hlink hfunctions htables).capture
  · rw [← Option.not_isSome_iff_eq_none]
    intro hsome
    obtain ⟨jit, hjit⟩ := Option.isSome_iff_exists.mp hsome
    simp only [jitCodegen, Option.bind_eq_bind, Option.pure_def, Option.bind_eq_some_iff, Option.some.injEq] at hjit
    obtain ⟨maps, -, ⟨_, cg⟩, -, binary, -, ⟨_, s⟩, -, ⟨⟨exports, start⟩, t⟩, -, ⟨_, u⟩, htables, -⟩ := hjit
    have listed : elem ∈ ctx.module.elems := by rwa [hkept, hmodule]
    have fits := (jitCodegenFillTables_fits htables listed).2 table htable hused
    omega

/-- A function that calls through a table of 3 slots, and one that does nothing. -/
def tabledModule (elems : List ElemSegment) : WasmModule where
  types := [{}]
  functions := [0, 0]
  exports := [{ kind := .func, index := 0 }]
  tables := [{ min := 3, max := 3 }]
  elems := elems
  code := some [[0, 0x41, 0, 0x11, 0, 0, 0x0B], [0, 0x0B]]

/-- Functions that return, with a constant each. -/
def constantEmitter (size : ℕ) : Emitter := fun id => some {
  code := if id = 60 then List.replicate size 0x90 else [0xC3]
  constpool := List.replicate 8 1
  constpoolAlign := 8 }

/-- A segment over another. -/
def overlap : List ElemSegment := [{ funcs := [0, 0, 0] }, { offset := 1, funcs := [1] }]

/-- A segment that leaves the table. -/
def misfit : ElemSegment := { offset := 2, funcs := [0, 1] }

theorem tables_filled_overlap :
    (∃ ctx cg jit, jitCodegen sampleHost (constantEmitter 1) false 10 ctx = some jit ∧ ctx.module.elems = overlap ∧
      TableImage (jitLinker sampleHost ctx cg jit.binary) jit.image) ∧
    ∃ built ctx, jitEmitSpidir 4 (startContext (tabledModule [misfit]) fun _ _ _ => none) = some (built, ctx) ∧
      jitCodegen sampleHost (constantEmitter 1) false 10 ctx = none := by
  have hnull : ∀ rxPageCount roPageCount, sampleHost.jitAlloc rxPageCount roPageCount ≠ some 0 := fun rxPageCount roPageCount => by
    simp only [sampleHost]
    split_ifs <;> simp
  refine ⟨?_, ?_⟩
  · have run : ((jitEmitSpidir 4 (startContext (tabledModule overlap) fun _ _ _ => none)).bind fun r =>
        (codegenAll (constantEmitter 1) r.2 10 {}).bind fun g => (jitCodegen sampleHost (constantEmitter 1) false 10 r.2).map fun _ =>
          (r.2.module.elems, decide (alignUp (codeEnd 0 (g.2.functions.map FunctionCodegen.blob)) sampleHost.pageSize < 2 ^ 64),
            decide (alignUp (tablesEnd (poolsEnd 0 (g.2.functions.map FunctionCodegen.blob)) r.2.tables) sampleHost.pageSize < 2 ^ 64))) =
        some (overlap, true, true) := by decide +kernel
    obtain ⟨⟨built, ctx⟩, hemit, run⟩ := Option.bind_eq_some_iff.mp run
    obtain ⟨⟨_, cg⟩, hcodegen, run⟩ := Option.bind_eq_some_iff.mp run
    obtain ⟨jit, hjit, run⟩ := Option.map_eq_some_iff.mp run
    simp only [Prod.mk.injEq, decide_eq_true_eq] at run
    obtain ⟨helems, hcode, hrodata⟩ := run
    have prepared : jitPrepareState (startContext (tabledModule overlap) fun _ _ _ => none) =
        some (startContext (tabledModule overlap) fun _ _ _ => none, 0) := rfl
    exact ⟨ctx, cg, jit, hjit, helems, (tables_filled sampleHost_ok hnull prepared hemit).1 _ _ _ _ _ hjit hcodegen hcode hrodata⟩
  · have run : (jitEmitSpidir 4 (startContext (tabledModule [misfit]) fun _ _ _ => none)).map (fun r => r.2.tables) =
        some [{ global := 0, length := 3, used := true }] := by decide +kernel
    obtain ⟨⟨built, ctx⟩, hemit, htables⟩ := Option.map_eq_some_iff.mp run
    have prepared : jitPrepareState (startContext (tabledModule [misfit]) fun _ _ _ => none) =
        some (startContext (tabledModule [misfit]) fun _ _ _ => none, 0) := rfl
    have table : ctx.tables[misfit.tableidx]? = some { global := 0, length := 3, used := true } :=
      congrArg (fun tables : List JitTable => tables[0]?) htables
    exact ⟨built, ctx, hemit, (tables_filled sampleHost_ok hnull prepared hemit).2 (constantEmitter 1) false 10 misfit _
      List.mem_cons_self table rfl (by decide)⟩

/-- The size of the constants wraps around to -8: the table lies over the constant pools, and
a slot that no segment fills holds a constant. -/
theorem tables_filled_wraps : ∃ built ctx cg jit, jitEmitSpidir 100 (startContext wrapModule fun _ _ _ => none) = some (built, ctx) ∧
    jitCodegen sampleHost (constantEmitter 2128) false 100 ctx = some jit ∧ codegenAll (constantEmitter 2128) ctx 100 {} = some ((), cg) ∧
    ¬TableImage (jitLinker sampleHost ctx cg jit.binary) jit.image := by
  have run : ((jitEmitSpidir 100 (startContext wrapModule fun _ _ _ => none)).bind fun r =>
      (codegenAll (constantEmitter 2128) r.2 100 {}).bind fun g => (jitCodegen sampleHost (constantEmitter 2128) false 100 r.2).map fun jit =>
        (r.2.tables, slotEntry r.2.module.elems 0 1, g.2.globalOffsets.lookup 0, jit.image (jit.binary + (g.2.pages 4096).codeSize),
          decide (jit.binary + (g.2.pages 4096).codeSize = 0x7F0000001000))) =
      some ([{ global := 0, length := 2 ^ 29 + 1, used := true }], none, some (2 ^ 64 - 8), some 1, true) := by decide +kernel
  obtain ⟨⟨built, ctx⟩, hemit, run⟩ := Option.bind_eq_some_iff.mp run
  obtain ⟨⟨_, cg⟩, hcodegen, run⟩ := Option.bind_eq_some_iff.mp run
  obtain ⟨jit, hjit, run⟩ := Option.map_eq_some_iff.mp run
  simp only [Prod.mk.injEq, decide_eq_true_eq] at run
  obtain ⟨htables, uncovered, hoffset, hbyte, hrodata⟩ := run
  refine ⟨built, ctx, cg, jit, hemit, hjit, hcodegen, fun image => ?_⟩
  have place : TableAt (jitLinker sampleHost ctx cg jit.binary) 0 0x7F0000000FF8 (2 ^ 29 + 1) := by
    refine ⟨{ global := 0, length := 2 ^ 29 + 1, used := true }, 2 ^ 64 - 8, congrArg (fun tables : List JitTable => tables[0]?) htables, rfl,
      hoffset, ?_, rfl⟩
    change _ = sizeT (jit.binary + (cg.pages 4096).codeSize + (2 ^ 64 - 8))
    rw [hrodata]
    decide
  have slot := image.slots 0 _ _ place 1 (by decide)
  have entry : slotEntry (jitLinker sampleHost ctx cg jit.binary).ctx.module.elems 0 1 = none := uncovered
  rw [entry] at slot
  have null := (Memory.load_eq_some.mp slot).2 0 (by decide)
  rw [hrodata] at hbyte
  exact absurd (hbyte.symm.trans null) (by decide)

end SpidirWasm.Jit
