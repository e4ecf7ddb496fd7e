import Mathlib.Tactic.IntervalCases
import SpidirWasm.Wasm.Sections

/-! What the translator relies on in a loaded module. Sections come in a fixed order,
so that the index spaces a section is checked against do not change behind it. -/

namespace SpidirWasm.Wasm

open Keeping

/-- Every index points into its index space, and every type is a number type. -/
structure WasmModule.Valid (m : WasmModule) : Prop where
  types : ∀ t ∈ m.types, t.Ok
  imports : ∀ i ∈ m.imports, i.kind = .func ∧ i.index < m.types.length
  functions : ∀ typeidx ∈ m.functions, typeidx < m.types.length
  tables : ∀ t ∈ m.tables, t.min ≤ t.max
  memory : m.memory.Ok
  globals : ∀ g ∈ m.globals, g.value.kind.IsNumber
  exports : ∀ e ∈ m.exports, e.Ok m.totalFuncs m.globals.length
  start : m.startFunc = -1 ∨ ∃ index : ℕ, m.startFunc = index ∧ StartOk m index
  elems : ∀ e ∈ m.elems, e.Ok m.totalFuncs
  code : ∀ code, m.code = some code → code.length = m.functions.length ∧ ∀ c ∈ code, c.length < 2 ^ 32
  data : ∀ d ∈ m.data, d.Ok

/-- A valid module whose sections from the place `index` on were not read yet. -/
structure Staged (index : ℕ) (m : WasmModule) : Prop extends m.Valid where
  noTypes : index ≤ 0 → m.types = []
  noImports : index ≤ 1 → m.imports = []
  noFunctions : index ≤ 2 → m.functions = []
  noGlobals : index ≤ 6 → m.globals = []
  noExports : index ≤ 7 → m.exports = []
  noStart : index ≤ 8 → m.startFunc = -1
  noElems : index ≤ 9 → m.elems = []
  noCode : index ≤ 11 → m.code = none

theorem staged_start : Staged 0 {} where
  types := by simp
  imports := by simp
  functions := by simp
  tables := by simp
  memory := ⟨le_rfl, by simp, Nat.dvd_zero _, Nat.dvd_zero _⟩
  globals := by simp
  exports := by simp
  start := .inl rfl
  elems := by simp
  code := by simp
  data := by simp
  noTypes _ := rfl
  noImports _ := rfl
  noFunctions _ := rfl
  noGlobals _ := rfl
  noExports _ := rfl
  noStart _ := rfl
  noElems _ := rfl
  noCode _ := rfl

variable {m : WasmModule} {index p id : ℕ}

/-- Names are not staged. -/
theorem Staged.named (h : Staged index m) (moduleName : Option Name) (functionNames : Option (List (Option Name))) :
    Staged index { m with moduleName, functionNames } :=
  { h with }

/-- The place of a section that is accepted. -/
theorem findSectionIndex_eq_some (h : findSectionIndex id index = some p) : index ≤ p ∧ expectedSectionOrder[p]? = some id := by
  obtain ⟨i, hi, rfl⟩ := Option.map_eq_some_iff.mp h
  obtain ⟨hlt, hget, -⟩ := List.idxOf?_eq_some_iff.mp hi
  refine ⟨Nat.le_add_right _ _, ?_⟩
  rw [← List.getElem?_drop, List.getElem?_eq_getElem hlt]
  exact congrArg some (by simpa using hget)

/-- A later place promises less. -/
theorem Staged.mono (h : Staged index m) (hle : index ≤ p) : Staged p m :=
  { h with
    noTypes := fun hp => h.noTypes (hle.trans hp)
    noImports := fun hp => h.noImports (hle.trans hp)
    noFunctions := fun hp => h.noFunctions (hle.trans hp)
    noGlobals := fun hp => h.noGlobals (hle.trans hp)
    noExports := fun hp => h.noExports (hle.trans hp)
    noStart := fun hp => h.noStart (hle.trans hp)
    noElems := fun hp => h.noElems (hle.trans hp)
    noCode := fun hp => h.noCode (hle.trans hp) }

/-- Reading the section at `p` leaves a valid module with that section behind it. -/
theorem wasmParseSection_staged (hs : Staged p m) (hp : expectedSectionOrder[p]? = some id) :
    Ensures (On m) (wasmParseSection id) fun _ s => Staged (p + 1) s.module := by
  have hlt : p < 13 := (List.getElem?_eq_some_iff.mp hp).1
  have next := hs.mono (Nat.le_succ p)
  -- a section only has to be checked against sections in front of it, the later ones are empty
  interval_cases p <;> simp only [expectedSectionOrder, List.getElem?_cons_zero, List.getElem?_cons_succ, Option.some.injEq] at hp <;>
    subst hp
  · refine wasmParseTypeSection_ensures.weaken (fun _ h => h) fun _ s ⟨types, hok, ht⟩ => ht ▸ ?_
    exact { next with
      types := hok
      imports := by simp [hs.noImports]
      functions := by simp [hs.noFunctions]
      start := .inl (hs.noStart (by decide))
      noTypes := fun h => absurd h (by decide) }
  · refine wasmParseImportSection_ensures.weaken (fun _ h => h) fun _ s ⟨imports, hok, ht⟩ => ht ▸ ?_
    exact { next with
      imports := hok
      exports := by simp [hs.noExports]
      elems := by simp [hs.noElems]
      start := .inl (hs.noStart (by decide))
      noImports := fun h => absurd h (by decide) }
  · refine wasmParseFunctionSection_ensures.weaken (fun _ h => h) fun _ s ⟨functions, hok, ht⟩ => ht ▸ ?_
    exact { next with
      functions := hok
      exports := by simp [hs.noExports]
      elems := by simp [hs.noElems]
      start := .inl (hs.noStart (by decide))
      code := by simp [hs.noCode]
      noFunctions := fun h => absurd h (by decide) }
  · exact wasmParseTableSection_ensures.weaken (fun _ h => h) fun _ s ⟨tables, hok, ht⟩ => ht ▸ { next with tables := hok }
  · exact wasmParseMemorySection_ensures.weaken (fun _ h => h) fun _ s ⟨memory, hok, ht⟩ => ht ▸ { next with memory := hok }
  · exact .fail
  · refine wasmParseGlobalSection_ensures.weaken (fun _ h => h) fun _ s ⟨globals, hok, ht⟩ => ht ▸ ?_
    exact { next with
      globals := hok
      exports := by simp [hs.noExports]
      noGlobals := fun h => absurd h (by decide) }
  · refine wasmParseExportSection_ensures.weaken (fun _ h => h) fun _ s ⟨exports, hok, ht⟩ => ht ▸ ?_
    exact { next with
      exports := hok
      noExports := fun h => absurd h (by decide) }
  · refine wasmParseStartSection_ensures.weaken (fun _ h => h) fun _ s ⟨index, hok, ht⟩ => ht ▸ ?_
    exact { next with
      start := .inr ⟨index, rfl, hok⟩
      noStart := fun h => absurd h (by decide) }
  · refine wasmParseElementSection_ensures.weaken (fun _ h => h) fun _ s ⟨elems, hok, ht⟩ => ht ▸ ?_
    exact { next with
      elems := hok
      noElems := fun h => absurd h (by decide) }
  · exact Ensures.pure _ fun s hs => hs ▸ next
  · refine wasmParseCodeSection_ensures.weaken (fun _ h => h) fun _ s ⟨code, hlen, hok, ht⟩ => ht ▸ ?_
    exact { next with
      code := fun c hc => Option.some.inj hc ▸ ⟨hlen, hok⟩
      noCode := fun h => absurd h (by decide) }
  · exact wasmParseDataSection_ensures.weaken (fun _ h => h) fun _ s ⟨data, hok, ht⟩ => ht ▸ { next with data := hok }

/-! ### The section loop -/

/-- The loader between two sections, behind those at the places it has passed. -/
def Loader.Staged (l : Loader) : Prop := Wasm.Staged l.currentIndex l.module

theorem parseContents_staged {contents : List UInt8} (hs : Staged p m) (hp : id = 0 ∨ ∃ q, p = q + 1 ∧ Staged q m ∧ expectedSectionOrder[q]? = some id) :
    Ensures (fun l : Loader => l.module = m ∧ l.currentIndex = p) (parseContents contents (wasmParseSection id)) fun _ l => l.Staged := by
  suffices h : Ensures (On m) (wasmParseSection id) fun _ s => Staged p s.module by
    refine Ensures.zoom h (fun l hl => hl.1) fun l _ s hl hs => ?_
    rw [Loader.Staged, hl.2]
    exact hs
  rcases hp with rfl | ⟨q, rfl, hq, hid⟩
  · refine (Ensures.of_preserves (P := Named m) customSection_named).weaken (fun s h => ⟨m.moduleName, m.functionNames, h⟩) ?_
    exact fun _ s ⟨mn, fn, h⟩ => h ▸ hs.named mn fn
  · exact wasmParseSection_staged hq hid

/-- One section keeps the module valid, and passes its place. -/
theorem wasmLoadSection_staged : Ensures Loader.Staged wasmLoadSection fun _ => Loader.Staged := by
  refine (Ensures.read _).bind fun _ => (Ensures.lift _).bind fun ⟨⟨id, contents⟩, buffer⟩ => ?_
  refine Ensures.bind (Q := fun _ => Loader.Staged) (Ensures.update fun l hl => hl.1.1) fun _ => .ite (fun hid => ?_) fun hid => ?_
  · refine (Ensures.read _).bind fun index => (Ensures.lift _).bind fun p => ?_
    rintro l a t seen ⟨⟨hl, rfl⟩, hp⟩ h
    obtain ⟨hle, hget⟩ := findSectionIndex_eq_some hp
    refine Ensures.bind (P := fun l' => l' = l) (Q := fun _ l' => l'.module = l.module ∧ l'.currentIndex = p + 1)
      (R := fun _ => Loader.Staged) (Ensures.update fun l' hl' => hl' ▸ ⟨rfl, rfl⟩) (fun _ => ?_) l a t seen rfl h
    exact parseContents_staged ((hl.mono hle).mono (Nat.le_succ p)) (.inr ⟨p, rfl, hl.mono hle, hget⟩)
  · obtain rfl : id = 0 := by simpa using hid
    intro l a t seen hl h
    exact parseContents_staged (m := l.module) (p := l.currentIndex) hl (.inl rfl) l a t seen ⟨rfl, rfl⟩ h

theorem wasmLoadSections_staged (fuel : ℕ) : Ensures Loader.Staged (wasmLoadSections fuel) fun _ => Loader.Staged := by
  induction fuel with
  | zero => exact Ensures.pure _ fun _ h => h
  | succ fuel ih =>
    refine (Ensures.read _).bind fun _ => .ite (fun _ => ?_) fun _ => Ensures.pure _ fun _ h => h.1
    exact (wasmLoadSection_staged.weaken (fun _ h => h.1) fun _ _ h => h).bind fun _ => ih

/-- The last state of a load that succeeds. -/
theorem wasmLoadModule_staged {data : List UInt8} {m : WasmModule} (h : wasmLoadModule data = some m) :
    ∃ l : Loader, l.Staged ∧ l.module = m ∧ (0 < m.functions.length → m.code ≠ none) := by
  simp only [wasmLoadModule, Option.bind_eq_bind, Option.bind_eq_some_iff] at h
  obtain ⟨start, hstart, h⟩ := h
  have staged : start.Staged := by
    obtain ⟨_, -, rfl⟩ := Option.map_eq_some_iff.mp hstart
    exact staged_start
  have run : Ensures Loader.Staged wasmLoadModuleRun fun _ l => l.Staged ∧ (0 < l.module.functions.length → l.module.code ≠ none) := by
    refine (Ensures.read _).bind fun _ => ((wasmLoadSections_staged _).weaken (fun _ h => h.1) fun _ _ h => h).bind fun _ => ?_
    exact (Ensures.read _).bind fun m => (Ensures.check _).weaken (fun _ h => h) fun _ l hl => ⟨hl.1.1, hl.1.2 ▸ hl.2⟩
  rcases hr : wasmLoadModuleRun start with ⟨⟨⟩ | _ | _, l, seen⟩ <;> simp only [hr, Ending.result, Option.map_none, Option.map_some,
    reduceCtorEq, Option.some.injEq] at h
  subst h
  exact ⟨l, (run _ _ _ _ staged hr).1, rfl, (run _ _ _ _ staged hr).2⟩

/-- A module that is accepted is valid, and has the code of all its functions. -/
theorem loaded_valid {data : List UInt8} {m : WasmModule} (h : wasmLoadModule data = some m) :
    m.Valid ∧ (0 < m.functions.length → ∃ code, m.code = some code ∧ code.length = m.functions.length) := by
  obtain ⟨l, hl, rfl, hcode⟩ := wasmLoadModule_staged h
  refine ⟨hl.toValid, fun hpos => ?_⟩
  obtain ⟨code, hc⟩ := Option.ne_none_iff_exists'.mp (hcode hpos)
  exact ⟨code, hc, (hl.code code hc).1⟩

/-- A module with a memory, a global, a start function and an export of each. -/
def startModule : List UInt8 :=
  [0x00, 0x61, 0x73, 0x6D, 0x01, 0x00, 0x00, 0x00,
   0x01, 0x04, 0x01, 0x60, 0x00, 0x00,
   0x03, 0x02, 0x01, 0x00,
   0x05, 0x03, 0x01, 0x00, 0x01,
   0x06, 0x06, 0x01, 0x7F, 0x00, 0x41, 0x2A, 0x0B,
   0x07, 0x09, 0x02, 0x01, 0x66, 0x00, 0x00, 0x01, 0x67, 0x03, 0x00,
   0x08, 0x01, 0x00,
   0x0A, 0x04, 0x01, 0x02, 0x00, 0x0B]

theorem startModule_valid : ∃ m, wasmLoadModule startModule = some m ∧ m.startFunc = 0 ∧ m.exports.length = 2 ∧
    m.Valid ∧ ∃ code, m.code = some code ∧ code.length = 1 := by
  have run : (wasmLoadModule startModule).map (fun m => (m.startFunc, m.exports.length, m.functions.length)) = some (0, 2, 1) := by
    decide +kernel
  obtain ⟨m, hm, he⟩ := Option.map_eq_some_iff.mp run
  simp only [Prod.mk.injEq] at he
  obtain ⟨hstart, hexports, hfunctions⟩ := he
  obtain ⟨valid, hcode⟩ := loaded_valid hm
  exact ⟨m, hm, hstart, hexports, valid, by simpa [hfunctions] using hcode⟩

end SpidirWasm.Wasm
