import Mathlib.Order.Bounds.Basic
import SpidirWasm.Logic.StringTable
import SpidirWasm.Wasm.EntryFormat
import SpidirWasm.Wasm.SectionOrder

/-! The search for an export by its name. Names are kept as C strings and compared as C
strings, and nothing keeps two exports from having the same one, so that a search finds
the first export whose name is right up to its first NUL. -/

namespace SpidirWasm.Wasm

open Keeping
open StringTable (cString)

/-- The loop of `wasm_find_export`, from the `i`-th export on; an export without a name cannot be compared. -/
def findExportFrom (name : Name) : ℕ → List WasmExport → Option ℤ
  | _, [] => some (-1)
  | i, e :: exports => e.name.bind fun exportName =>
    if cString exportName = cString name then some i else findExportFrom name (i + 1) exports

/-- `wasm_find_export`. -/
def wasmFindExport (m : WasmModule) (name : Name) : Option ℤ := findExportFrom name 0 m.exports

/-- The export `i` has a name that C reads as it reads `name`. -/
def ExportedAs (exports : List WasmExport) (name : Name) (i : ℕ) : Prop :=
  ∃ e exportName, exports[i]? = some e ∧ e.name = some exportName ∧ cString exportName = cString name

/-! ### The names of a loaded module -/

/-- The contents of the export section have these exports. -/
def ExportsRead (contents : List UInt8) (exports : List WasmExport) : Prop :=
  ∃ m b b', Taken [.u32 exports.length] ⟨0, contents⟩ b ∧ Entries (ExportEntry m) exports b b'

variable {m m' : WasmModule} {id : ℕ} {b : Buffer} {s : LoadState} {secs : List (ℕ × List UInt8)}

/-- Only the export section has to do with exports. -/
theorem SectionWrites.exports_kept (h : SectionWrites m id m') (hid : id ≠ 7) : m'.exports = m.exports := by
  cases h with
  | exports => exact absurd rfl hid
  | _ => rfl

/-- The exports are those of the export section, if there is one. -/
theorem exports_read (hrun : secs.foldlM parseSection m = some m') :
    (m'.exports = m.exports ∧ ∀ sec ∈ secs, sec.1 ≠ 7) ∨ ∃ contents, (7, contents) ∈ secs ∧ ExportsRead contents m'.exports := by
  induction secs generalizing m with
  | nil => exact .inl ⟨by rw [Option.some.inj hrun], fun _ h => absurd h List.not_mem_nil⟩
  | cons sec secs ih =>
    obtain ⟨m₁, hsec, hrest⟩ := Option.bind_eq_some_iff.mp hrun
    obtain ⟨⟨_, s⟩, hs, rfl⟩ := Option.map_eq_some_iff.mp hsec
    rcases ih hrest with ⟨hkept, hnone⟩ | ⟨contents, hmem, hread⟩
    · by_cases hid : sec.1 = 7
      · rw [hid] at hs
        obtain ⟨exports, b, hcount, b', hentries, he⟩ := wasmParseExportSection_run.mp hs
        obtain ⟨-, rfl⟩ := Prod.mk.inj he
        refine .inr ⟨sec.2, ?_, hkept ▸ ⟨m, b, b', hcount, hentries⟩⟩
        rw [← hid]
        exact List.mem_cons_self
      · refine .inl ⟨hkept.trans ((section_writes hs).exports_kept hid), ?_⟩
        rw [List.forall_mem_cons]
        exact ⟨hid, hnone⟩
    · exact .inr ⟨contents, List.mem_cons_of_mem sec hmem, hread⟩

theorem ExportsRead.named {contents : List UInt8} {exports : List WasmExport} (h : ExportsRead contents exports) :
    ∀ e ∈ exports, ∃ name, e.name = some name := by
  obtain ⟨m, b, b', -, hpath, -⟩ := h
  have labelled : Path (fun e s t => (∃ name, e.name = some name) ∧ ExportEntry m e s t) exports b b' := by
    refine Path.mono (fun e _ s t he => ⟨?_, he⟩) hpath
    obtain ⟨name, -, hname, -⟩ := he
    exact ⟨name, hname⟩
  exact (Path.and_iff.mp labelled).1

/-! ### The search -/

variable {exports : List WasmExport} {e : WasmExport} {name n : Name}

theorem exportedAs_zero (hn : e.name = some n) : ExportedAs (e :: exports) name 0 ↔ cString n = cString name := by
  constructor
  · rintro ⟨e', n', he, hn', h⟩
    obtain rfl := Option.some.inj he
    rwa [Option.some.inj (hn.symm.trans hn')]
  · exact fun h => ⟨e, n, rfl, hn, h⟩

theorem exportedAs_succ (k : ℕ) : ExportedAs (e :: exports) name (k + 1) ↔ ExportedAs exports name k := by
  rw [ExportedAs, ExportedAs, List.getElem?_cons_succ]

/-- What the search returns: the first export of that name, or -1. -/
def Found (exports : List WasmExport) (name : Name) (i : ℕ) (result : Option ℤ) : Prop :=
  (∃ j : ℕ, IsLeast {k | ExportedAs exports name k} j ∧ result = some (i + j : ℤ)) ∨
    ((∀ k, ¬ExportedAs exports name k) ∧ result = some (-1))

theorem findExportFrom_found (hnamed : ∀ e ∈ exports, ∃ n, e.name = some n) (name : Name) (i : ℕ) :
    Found exports name i (findExportFrom name i exports) := by
  induction exports generalizing i with
  | nil => exact .inr ⟨fun k ⟨_, _, h, _⟩ => absurd h (by simp), rfl⟩
  | cons e exports ih =>
    obtain ⟨n, hn⟩ := hnamed e List.mem_cons_self
    rw [findExportFrom, hn, Option.bind_some]
    split_ifs with hfirst
    · exact .inl ⟨0, ⟨(exportedAs_zero hn).mpr hfirst, fun _ _ => Nat.zero_le _⟩, by simp⟩
    · have notFirst : ¬ExportedAs (e :: exports) name 0 := mt (exportedAs_zero hn).mp hfirst
      rcases ih (fun e he => hnamed e (List.mem_cons_of_mem _ he)) (i + 1) with ⟨j, ⟨hj, hleast⟩, hfind⟩ | ⟨hnone, hfind⟩
      · refine .inl ⟨j + 1, ⟨(exportedAs_succ j).mpr hj, fun k hk => ?_⟩, ?_⟩
        · cases k with
          | zero => exact absurd hk notFirst
          | succ k => exact Nat.succ_le_succ (hleast ((exportedAs_succ k).mp hk))
        · rw [hfind]
          congr 1
          push_cast
          omega
      · refine .inr ⟨fun k => ?_, hfind⟩
        cases k with
        | zero => exact notFirst
        | succ k => exact mt (exportedAs_succ k).mp (hnone k)

/-- In a module that is accepted, whose exports are those of its export section, a search finds the first export whose name is right
up to its first NUL. So an export is found by its own name exactly if no export in front of it has that name up to there, and
nothing is found under a name that no export has. -/
theorem find_export {data : List UInt8} {m : WasmModule} (h : wasmLoadModule data = some m) :
    (∃ bs secs, data = magicVersion ++ bs ∧ Split bs secs ∧
      ((m.exports = [] ∧ ∀ sec ∈ secs, sec.1 ≠ 7) ∨ ∃ contents, (7, contents) ∈ secs ∧ ExportsRead contents m.exports)) ∧
    (∀ name, Found m.exports name 0 (wasmFindExport m name)) ∧
    (∀ (i : ℕ) e n, m.exports[i]? = some e → e.name = some n →
      (wasmFindExport m n = some (i : ℤ) ↔ ∀ j < i, ¬ExportedAs m.exports n j)) ∧
    ∀ name, wasmFindExport m name = some (-1) ↔ ∀ i, ¬ExportedAs m.exports name i := by
  obtain ⟨bs, secs, index, hdata, hsplit, hfold, -⟩ := wasmLoadModule_eq_some.mp h
  rw [foldlM_loadSection] at hfold
  obtain ⟨_, -, hparse⟩ := Option.bind_eq_some_iff.mp hfold
  obtain ⟨m', hm, he⟩ := Option.map_eq_some_iff.mp hparse
  obtain ⟨-, rfl⟩ := Prod.mk.inj he
  have read := exports_read hm
  have named : ∀ e ∈ m'.exports, ∃ n, e.name = some n := by
    rcases read with ⟨hnone, -⟩ | ⟨contents, -, hread⟩
    · simp [hnone]
    · exact hread.named
  have found (name : Name) : Found m'.exports name 0 (wasmFindExport m' name) := findExportFrom_found named name 0
  refine ⟨⟨bs, secs, hdata, hsplit, read⟩, found, fun i e n he hn => ?_, fun name => ?_⟩
  · have own : ExportedAs m'.exports n i := ⟨e, n, he, hn, rfl⟩
    rcases found n with ⟨j, ⟨hj, hleast⟩, hfind⟩ | ⟨hnone, -⟩
    · have hle : j ≤ i := hleast own
      rw [hfind]
      constructor
      · intro heq k hk hexported
        have hjk : j ≤ k := hleast hexported
        have : (j : ℤ) = i := by simpa using heq
        omega
      · intro hfirst
        have : ¬j < i := fun hlt => hfirst j hlt hj
        obtain rfl : j = i := by omega
        simp
    · exact absurd own (hnone i)
  · rcases found name with ⟨j, ⟨hj, -⟩, hfind⟩ | ⟨hnone, hfind⟩
    · rw [hfind]
      constructor
      · exact fun heq => by simp at heq
      · exact fun hnone => absurd hj (hnone j)
    · exact ⟨fun _ => hnone, fun _ => hfind⟩

/-- A module that exports a memory three times: twice under the same name, and under a name with a NUL in it. -/
def collidingExports : List UInt8 :=
  magicVersion ++ [0x07, 0x0F, 0x03, 0x01, 0x61, 0x02, 0x00, 0x01, 0x61, 0x02, 0x00, 0x03, 0x62, 0x00, 0x63, 0x02, 0x00]

theorem find_export_collidingExports : ∃ m, wasmLoadModule collidingExports = some m ∧ Found m.exports [0x62] 0 (wasmFindExport m [0x62]) := by
  have loads : (wasmLoadModule collidingExports).isSome := by decide +kernel
  obtain ⟨m, hm⟩ := Option.isSome_iff_exists.mp loads
  exact ⟨m, hm, (find_export hm).2.1 [0x62]⟩

/-- The second export is not found by its name, and the third one is found by a name that it does not have. -/
theorem find_export_fails :
    (¬∀ data m, wasmLoadModule data = some m → ∀ (i : ℕ) e n, m.exports[i]? = some e → e.name = some n →
      wasmFindExport m n = some (i : ℤ)) ∧
    ¬∀ data m, wasmLoadModule data = some m → ∀ name, (∀ e ∈ m.exports, e.name ≠ some name) → wasmFindExport m name = some (-1) := by
  have loads : (wasmLoadModule collidingExports).map (fun m => (m.exports.map WasmExport.name, wasmFindExport m [0x61], wasmFindExport m [0x62])) =
      some ([some [0x61], some [0x61], some [0x62, 0x00, 0x63]], some 0, some 2) := by decide +kernel
  obtain ⟨m, hm, hvalue⟩ := Option.map_eq_some_iff.mp loads
  simp only [Prod.mk.injEq] at hvalue
  obtain ⟨hnames, hfindA, hfindB⟩ := hvalue
  constructor
  · intro claim
    have second : (m.exports.map WasmExport.name)[1]? = some (some [0x61]) := by rw [hnames]; rfl
    rw [List.getElem?_map] at second
    obtain ⟨e, he, hn⟩ := Option.map_eq_some_iff.mp second
    have found := claim collidingExports m hm 1 e [0x61] he hn
    rw [hfindA] at found
    exact absurd found (by decide)
  · intro claim
    have absent : ∀ e ∈ m.exports, e.name ≠ some [0x62] := by
      intro e he hn
      have hmem : some [0x62] ∈ m.exports.map WasmExport.name := List.mem_map.mpr ⟨e, he, hn⟩
      rw [hnames] at hmem
      exact absurd hmem (by decide)
    have found := claim collidingExports m hm [0x62] absent
    rw [hfindB] at found
    exact absurd found (by decide)

end SpidirWasm.Wasm
