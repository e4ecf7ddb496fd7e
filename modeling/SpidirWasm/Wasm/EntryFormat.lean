import SpidirWasm.Wasm.SectionFormat

/-! The sections whose entries refer to other index spaces, or hold names and bytes. -/

namespace SpidirWasm.Wasm

open Keeping

variable {β : Type} {m : WasmModule} {b b' : Buffer} {s s' : LoadState}

/-! ### Imports and functions -/

/-- The checks on a name. -/
structure Name.Ok (name : Name) : Prop where
  nonempty : 0 < name.length
  utf8 : isValidUtf8 name = true

theorem pullItemName_run {name : Name} : pullItemName.run s = some (name, s') ↔
    ∃ b', Name.Ok name ∧ Taken (nameTokens name) s.buffer b' ∧ s' = ⟨s.module, b'⟩ := by
  rw [pullItemName]
  simp only [↓pull_bind_run_iff, bufferPullName_iff, ↓check_bind_run_iff, pure_run_iff, Prod.mk.injEq]
  constructor
  · rintro ⟨_, b', ⟨hutf8, htaken⟩, hpos, rfl, rfl⟩
    exact ⟨b', ⟨hpos, hutf8⟩, htaken, rfl⟩
  · rintro ⟨b', hok, htaken, rfl⟩
    exact ⟨name, b', ⟨hok.utf8, htaken⟩, hok.nonempty, rfl, rfl⟩

def importTokens (moduleName itemName : Name) (index : ℕ) : List Token :=
  nameTokens moduleName ++ nameTokens itemName ++ [.raw [0x00], .u32 index]

/-- An import as it is read: a function, with its names and the index of a type. -/
def ImportEntry (m : WasmModule) (i : WasmImport) (b b' : Buffer) : Prop :=
  ∃ moduleName itemName, Name.Ok moduleName ∧ Name.Ok itemName ∧ i.index < m.types.length ∧
    i = { moduleName := some moduleName, itemName := some itemName, index := i.index } ∧
    Taken (importTokens moduleName itemName i.index) b b'

theorem ImportEntry.length {i : WasmImport} (h : ImportEntry m i b b') : b'.data.length + 1 ≤ b.data.length := by
  obtain ⟨moduleName, itemName, -, -, -, -, h⟩ := h
  exact Taken.shorter h trivial

theorem wasmParseImportSection_run {r : Unit × LoadState} : wasmParseImportSection.run ⟨m, b⟩ = some r ↔
    ∃ imports b', Taken [.u32 imports.length] b b' ∧ ∃ b'', Entries (ImportEntry m) imports b' b'' ∧
      r = ((), ⟨{ m with imports }, b''⟩) := by
  refine vector_run (fun imports m => { m with imports }) (fun i imports b r => ?_) fun _ _ _ => ImportEntry.length
  simp only [bind_run_iff, ↓pull_bind_run_iff, ↓check_bind_run_iff, pullItemName_run, bufferPullU8_iff, bufferPullU32_iff,
    ↓module_check_bind_run_iff, modify_run, ImportEntry, importTokens, Path.append_iff, Path.cons_iff, Path.nil_iff]
  constructor
  · rintro ⟨moduleName, _, ⟨c, hmodule, hc, rfl⟩, itemName, _, ⟨d, hitem, hd, rfl⟩, _, e, he, index, f, hf, rfl, hindex, he'⟩
    exact ⟨{ moduleName := some moduleName, itemName := some itemName, index }, f,
      ⟨moduleName, itemName, hmodule, hitem, hindex, rfl, d, ⟨c, hc, hd⟩, e, he, f, hf, rfl⟩, (Option.some.inj he').symm⟩
  · rintro ⟨i, f, ⟨moduleName, itemName, hmodule, hitem, hindex, hi, d, ⟨c, hc, hd⟩, e, he, _, hf, rfl⟩, rfl⟩
    refine ⟨moduleName, _, ⟨c, hmodule, hc, rfl⟩, itemName, _, ⟨d, hitem, hd, rfl⟩, _, e, he, i.index, f, hf, rfl, hindex, ?_⟩
    rw [← hi]

/-- The type of a function. -/
def FunctionEntry (m : WasmModule) (typeidx : ℕ) (b b' : Buffer) : Prop :=
  typeidx < m.types.length ∧ Taken [.u32 typeidx] b b'

theorem wasmParseFunctionSection_run {r : Unit × LoadState} : wasmParseFunctionSection.run ⟨m, b⟩ = some r ↔
    ∃ functions b', Taken [.u32 functions.length] b b' ∧ ∃ b'', Entries (FunctionEntry m) functions b' b'' ∧
      r = ((), ⟨{ m with functions }, b''⟩) := by
  refine vector_run (fun functions m => { m with functions }) (fun i functions b r => ?_) fun _ _ _ h => ?_
  · simp only [↓pull_bind_run_iff, bufferPullU32_iff, ↓module_check_bind_run_iff, modify_run, FunctionEntry, Path.single_iff]
    constructor
    · rintro ⟨typeidx, b', hb', hlt, he⟩
      exact ⟨typeidx, b', ⟨hlt, hb'⟩, (Option.some.inj he).symm⟩
    · rintro ⟨typeidx, b', ⟨hlt, hb'⟩, rfl⟩
      exact ⟨typeidx, b', hb', hlt, rfl⟩
  · exact Taken.shorter h.2 trivial

/-! ### Tables and globals -/

/-- The limits of a table; without a maximum it is the greatest `uint32_t`. -/
def tableTokens (t : WasmTable) (bounded : Bool) : List Token :=
  if bounded then [.raw [0x70], .raw [0x01], .u32 t.min, .u32 t.max] else [.raw [0x70], .raw [0x00], .u32 t.min]

def TableEntry (t : WasmTable) (b b' : Buffer) : Prop :=
  t.min ≤ t.max ∧ ∃ bounded, (bounded = false → t.max = 2 ^ 32 - 1) ∧ Taken (tableTokens t bounded) b b'

theorem pullTableLimits_run {t : WasmTable} : pullTableLimits.run ⟨m, b⟩ = some (t, s') ↔
    ∃ b' bounded, (bounded = false → t.max = 2 ^ 32 - 1) ∧
      Taken (if bounded then [.raw [0x01], .u32 t.min, .u32 t.max] else [.raw [0x00], .u32 t.min]) b b' ∧ s' = ⟨m, b'⟩ := by
  obtain ⟨min, max⟩ := t
  rw [pullTableLimits]
  simp only [↓pull_bind_run_iff, bufferPullU8_iff, ↓ite_run_iff, bufferPullU32_iff, pure_run_iff, fail_run_iff, Prod.mk.injEq,
    WasmTable.mk.injEq]
  constructor
  · rintro ⟨_, u, hu, ⟨rfl, _, v, hv, ⟨rfl, rfl⟩, rfl⟩ | ⟨-, ⟨rfl, _, v, hv, _, w, hw, ⟨rfl, rfl⟩, rfl⟩ | h⟩⟩
    · exact ⟨v, false, fun _ => rfl, ⟨u, hu, v, hv, rfl⟩, rfl⟩
    · exact ⟨w, true, by simp, ⟨u, hu, v, hv, w, hw, rfl⟩, rfl⟩
    · exact h.2.elim
  · rintro ⟨b', _ | _, hmax, ⟨u, hu, v, hv, h⟩, rfl⟩
    · obtain rfl : b' = v := h
      exact ⟨_, u, hu, .inl ⟨rfl, min, b', hv, ⟨rfl, hmax rfl⟩, rfl⟩⟩
    · obtain ⟨w, hw, rfl⟩ := h
      exact ⟨_, u, hu, .inr ⟨by decide, .inl ⟨rfl, min, v, hv, max, b', hw, ⟨rfl, rfl⟩, rfl⟩⟩⟩

theorem wasmParseTableSection_run {r : Unit × LoadState} : wasmParseTableSection.run ⟨m, b⟩ = some r ↔
    ∃ tables b', Taken [.u32 tables.length] b b' ∧ ∃ b'', Entries TableEntry tables b' b'' ∧ r = ((), ⟨{ m with tables }, b''⟩) := by
  refine vector_run (fun tables m => { m with tables }) (fun i tables b r => ?_) fun _ _ _ h => ?_
  · simp only [bind_run_iff, ↓pull_bind_run_iff, bufferPullU8_iff, ↓check_bind_run_iff, pullTableLimits_run, ↓modify_bind_run,
      check_run_iff, TableEntry]
    constructor
    · rintro ⟨_, u, hu, rfl, t, _, ⟨b', bounded, hmax, htaken, rfl⟩, hle, rfl⟩
      refine ⟨t, b', ⟨hle, bounded, hmax, ?_⟩, rfl⟩
      cases bounded with
      | false => exact ⟨u, hu, htaken⟩
      | true => exact ⟨u, hu, htaken⟩
    · rintro ⟨t, b', ⟨hle, bounded, hmax, htaken⟩, rfl⟩
      cases bounded with
      | false =>
        obtain ⟨u, hu, htaken⟩ := htaken
        exact ⟨_, u, hu, rfl, t, _, ⟨b', false, hmax, htaken, rfl⟩, hle, rfl⟩
      | true =>
        obtain ⟨u, hu, htaken⟩ := htaken
        exact ⟨_, u, hu, rfl, t, _, ⟨b', true, hmax, htaken, rfl⟩, hle, rfl⟩
  · obtain ⟨-, bounded, -, htaken⟩ := h
    cases bounded with
    | false => exact Taken.shorter htaken (List.cons_ne_nil _ _)
    | true => exact Taken.shorter htaken (List.cons_ne_nil _ _)

def globalTokens (g : WasmGlobal) : List Token :=
  [.raw [valTypeByte g.value.kind], .raw [if g.mutable then 0x01 else 0x00]] ++ constantTokens g.value

def GlobalEntry (g : WasmGlobal) (b b' : Buffer) : Prop := g.value.Ok ∧ Taken (globalTokens g) b b'

theorem wasmParseGlobalSection_run {r : Unit × LoadState} : wasmParseGlobalSection.run ⟨m, b⟩ = some r ↔
    ∃ globals b', Taken [.u32 globals.length] b b' ∧ ∃ b'', Entries GlobalEntry globals b' b'' ∧ r = ((), ⟨{ m with globals }, b''⟩) := by
  refine vector_run (fun globals m => { m with globals }) (fun i globals b r => ?_) fun _ _ _ h => ?_
  · simp only [bind_run_iff, ↓pull_bind_run_iff, bufferPullValType_iff, bufferPullU8_iff, ↓check_bind_run_iff, wasmParseConstantExpr_run,
      modify_run, GlobalEntry, globalTokens, Path.append_iff, Path.cons_iff, Path.nil_iff]
    constructor
    · rintro ⟨_, u, ⟨-, hu⟩, flag, v, hv, hflag, value, _, ⟨b', hok, htaken, rfl⟩, rfl, he⟩
      refine ⟨⟨value, flag = 0x01⟩, b', ⟨hok, v, ⟨u, hu, v, ?_, rfl⟩, htaken⟩, (Option.some.inj he).symm⟩
      rcases hflag with rfl | rfl
      · exact hv
      · exact hv
    · rintro ⟨⟨value, mutable⟩, b', ⟨hok, _, ⟨u, hu, v, hv, rfl⟩, htaken⟩, rfl⟩
      refine ⟨_, u, ⟨hok.number, hu⟩, _, _, hv, ?_, value, _, ⟨b', hok, htaken, rfl⟩, rfl, ?_⟩
      · cases mutable <;> simp
      · cases mutable <;> simp
  · exact Taken.shorter h.2 (List.cons_ne_nil _ _)

/-! ### Exports and the start function -/

def exportByte : ExportKind → UInt8
  | .func => 0x00
  | .table => 0x01
  | .memory => 0x02
  | .global => 0x03
  | .tag => 0x04

theorem exportKind_run {x : UInt8} {kind : ExportKind} {index : ℕ} (name : Option Name) :
    (exportKind x index).run s = some (kind, s') ↔ x = exportByte kind ∧
      (⟨name, kind, index⟩ : WasmExport).Ok s.module.totalFuncs32 s.module.globals.length ∧ s' = s := by
  rw [exportKind, module_bind_run]
  simp only [ite_run_iff, check_bind_run_iff, pure_run_iff, fail_run_iff, Prod.mk.injEq]
  constructor
  · rintro (⟨rfl, hlt, rfl, rfl⟩ | ⟨-, ⟨rfl, h0, rfl, rfl⟩ | ⟨-, ⟨rfl, hlt, rfl, rfl⟩ | h⟩⟩)
    · exact ⟨rfl, ⟨by simp, fun _ => hlt, by simp, by simp⟩, rfl⟩
    · exact ⟨rfl, ⟨by simp, by simp, fun _ => h0, by simp⟩, rfl⟩
    · exact ⟨rfl, ⟨by simp, by simp, by simp, fun _ => hlt⟩, rfl⟩
    · exact h.2.elim
  · rintro ⟨rfl, hok, rfl⟩
    obtain hkind | hkind | hkind := hok.kind
    · obtain rfl : kind = .func := hkind
      exact .inl ⟨rfl, hok.func rfl, rfl, rfl⟩
    · obtain rfl : kind = .memory := hkind
      exact .inr ⟨by decide, .inl ⟨rfl, hok.memory rfl, rfl, rfl⟩⟩
    · obtain rfl : kind = .global := hkind
      exact .inr ⟨by decide, .inr ⟨by decide, .inl ⟨rfl, hok.global rfl, rfl, rfl⟩⟩⟩

def exportTokens (name : Name) (e : WasmExport) : List Token := nameTokens name ++ [.raw [exportByte e.kind], .u32 e.index]

/-- An export of something that exists, with its name. -/
def ExportEntry (m : WasmModule) (e : WasmExport) (b b' : Buffer) : Prop :=
  ∃ name, Name.Ok name ∧ e.name = some name ∧ e.Ok m.totalFuncs32 m.globals.length ∧ Taken (exportTokens name e) b b'

theorem wasmParseExportSection_run {r : Unit × LoadState} : wasmParseExportSection.run ⟨m, b⟩ = some r ↔
    ∃ exports b', Taken [.u32 exports.length] b b' ∧ ∃ b'', Entries (ExportEntry m) exports b' b'' ∧
      r = ((), ⟨{ m with exports }, b''⟩) := by
  refine vector_run (fun exports m => { m with exports }) (fun i exports b r => ?_) fun _ _ _ h => ?_
  · simp only [bind_run_iff, ↓pull_bind_run_iff, pullItemName_run, bufferPullU8_iff, bufferPullU32_iff, exportKind_run none, modify_run,
      ExportEntry, exportTokens, Path.append_iff, Path.cons_iff, Path.nil_iff]
    constructor
    · rintro ⟨name, _, ⟨c, hname, hc, rfl⟩, _, d, hd, index, e, he, kind, _, ⟨rfl, hok, rfl⟩, he'⟩
      exact ⟨⟨some name, kind, index⟩, e, ⟨name, hname, rfl, { hok with }, c, hc, d, hd, e, he, rfl⟩, (Option.some.inj he').symm⟩
    · rintro ⟨⟨_, kind, index⟩, e, ⟨name, hname, rfl, hok, c, hc, d, hd, _, he, rfl⟩, rfl⟩
      exact ⟨name, _, ⟨c, hname, hc, rfl⟩, _, d, hd, index, e, he, kind, _, ⟨rfl, { hok with }, rfl⟩, rfl⟩
  · obtain ⟨name, -, -, -, h⟩ := h
    exact Taken.shorter h trivial

theorem startTypeidx_run {index : ℕ} {r : ℕ × LoadState} : (startTypeidx m index).run s = some r ↔
    ∃ typeidx, r = (typeidx, s) ∧ (if index < m.imports.length then ∃ item, m.imports[index]? = some item ∧ item.kind = .func ∧
      typeidx = item.index else m.functions[index - m.imports.length]? = some typeidx) := by
  rw [startTypeidx, ite_run_iff, bind_run_iff]
  simp only [run_lift, Option.map_eq_some_iff, Prod.mk.injEq, check_bind_run_iff, pure_run_iff]
  split_ifs with hi
  · simp only [hi, true_and, not_true, false_and, or_false]
    constructor
    · rintro ⟨_, _, ⟨item, hitem, rfl, rfl⟩, hkind, rfl⟩
      exact ⟨_, rfl, item, hitem, hkind, rfl⟩
    · rintro ⟨_, rfl, item, hitem, hkind, rfl⟩
      exact ⟨item, s, ⟨item, hitem, rfl, rfl⟩, hkind, rfl⟩
  · simp only [hi, false_and, not_false_eq_true, true_and, false_or]
    exact exists_congr fun _ => by rw [and_comm, eq_comm]

/-- The signature behind the index is the one of `wasm_get_func`. -/
theorem startTypeidx_getFunc {index : ℕ} {type : FuncType} :
    (∃ typeidx, (startTypeidx m index).run s = some (typeidx, s) ∧ m.types[typeidx]? = some type) ↔ m.getFunc index = some type := by
  simp only [startTypeidx_run, Prod.mk.injEq, and_true, WasmModule.getFunc]
  split_ifs with hi
  · obtain ⟨item, hitem⟩ : ∃ item, m.imports[index]? = some item := ⟨_, List.getElem?_eq_getElem hi⟩
    simp only [hitem]
    split_ifs with hkind
    · simp [hkind]
    · simp [hkind]
  · rcases m.functions[index - m.imports.length]? with _ | typeidx <;> simp

theorem wasmParseStartSection_run {r : Unit × LoadState} : wasmParseStartSection.run ⟨m, b⟩ = some r ↔
    ∃ index b', Taken [.u32 index] b b' ∧ b'.data = [] ∧ index < m.totalFuncs32 ∧ StartOk m index ∧
      r = ((), ⟨{ m with startFunc := index }, b'⟩) := by
  have same : ∀ index : ℕ, (⟨m.types, m.functions, m.globals, m.imports, m.exports, m.tables, m.elems, m.data, m.code, m.memory, index,
      m.moduleName, m.functionNames⟩ : WasmModule).getFunc = m.getFunc := fun _ => rfl
  simp only [Path.single_iff, StartOk]
  constructor
  · intro h
    obtain ⟨index, b', hb', h₁⟩ := pull_bind_run_iff.mp h
    rw [modify_bind_run] at h₁
    obtain ⟨_, _, hatEnd, h₂⟩ := bind_run_iff.mp h₁
    obtain ⟨hend, he⟩ := atEnd_run_iff.mp hatEnd
    obtain ⟨-, rfl⟩ := Prod.mk.inj he
    rw [module_bind_run] at h₂
    obtain ⟨hlt, h₃⟩ := check_bind_run_iff.mp h₂
    obtain ⟨typeidx, t, htypeidx, h₄⟩ := bind_run_iff.mp h₃
    obtain ⟨_, he, -⟩ := startTypeidx_run.mp htypeidx
    obtain ⟨rfl, rfl⟩ := Prod.mk.inj he
    obtain ⟨_, t, hlift, h₅⟩ := bind_run_iff.mp h₄
    rw [run_lift] at hlift
    obtain ⟨type, htype, he⟩ := Option.map_eq_some_iff.mp hlift
    obtain ⟨rfl, rfl⟩ := Prod.mk.inj he
    obtain ⟨hargs, h₆⟩ := check_bind_run_iff.mp h₅
    obtain ⟨hresults, rfl⟩ := check_run_iff.mp h₆
    refine ⟨index, b', bufferPullU32_iff.mp hb', hend, hlt, ⟨hlt.trans_le (totalFuncs32_le _), type, ?_,
      List.length_eq_zero_iff.mp hargs, List.length_eq_zero_iff.mp hresults⟩, rfl⟩
    rw [← same index]
    exact startTypeidx_getFunc.mp ⟨_, htypeidx, htype⟩
  · rintro ⟨index, b', hb', hend, hlt, ⟨-, type, hget, hargs, hresults⟩, rfl⟩
    rw [← same index] at hget
    obtain ⟨typeidx, htypeidx, htype⟩ := startTypeidx_getFunc.mpr hget
    refine pull_bind_run_iff.mpr ⟨index, b', bufferPullU32_iff.mpr hb', ?_⟩
    rw [modify_bind_run]
    refine bind_run_iff.mpr ⟨(), _, atEnd_run_iff.mpr ⟨hend, rfl⟩, ?_⟩
    rw [module_bind_run]
    refine check_bind_run_iff.mpr ⟨hlt, bind_run_iff.mpr ⟨typeidx, _, htypeidx, ?_⟩⟩
    refine bind_run_iff.mpr ⟨type, _, (run_lift _ _).trans (Option.map_eq_some_iff.mpr ⟨type, htype, rfl⟩), ?_⟩
    exact check_bind_run_iff.mpr ⟨List.length_eq_zero_iff.mpr hargs, check_run_iff.mpr ⟨List.length_eq_zero_iff.mpr hresults, rfl⟩⟩

/-! ### Segments and code -/

/-- Bytes behind their length. -/
def bytesTokens (bytes : List UInt8) : List Token := [.u32 bytes.length, .raw bytes]

theorem pullBytes_run {f : List UInt8 → Load β} {r : β × LoadState} : (do
    let len ← Load.pull bufferPullU32
    let bytes ← Load.pull (bufferPull len)
    f bytes).run s = some r ↔ ∃ bytes b', Taken (bytesTokens bytes) s.buffer b' ∧ (f bytes).run ⟨s.module, b'⟩ = some r := by
  simp only [↓pull_bind_run_iff, bufferPullU32_iff, bufferPull_iff, bytesTokens, Path.cons_iff, Path.nil_iff]
  constructor
  · rintro ⟨_, u, hu, bytes, b', ⟨rfl, hb'⟩, h⟩
    exact ⟨bytes, b', ⟨u, hu, b', hb', rfl⟩, h⟩
  · rintro ⟨bytes, b', ⟨u, hu, _, hb', rfl⟩, h⟩
    exact ⟨_, u, hu, bytes, b', ⟨rfl, hb'⟩, h⟩

/-- An active segment has an offset, a passive one none. -/
def dataTokens (d : DataSegment) : List Token :=
  (if d.active then .u32 0 :: constantTokens ⟨.i32, d.offset⟩ else [.u32 1]) ++ bytesTokens d.data

def DataEntry (d : DataSegment) (b b' : Buffer) : Prop := (d.active = false → d.offset = 0) ∧ Taken (dataTokens d) b b'

theorem int_ok (bits : ℕ) : (⟨.i32, bits⟩ : WasmValue).Ok := ⟨by simp [ValueType.IsNumber], by simp, by simp⟩

theorem wasmParseDataSection_run {r : Unit × LoadState} : wasmParseDataSection.run ⟨m, b⟩ = some r ↔
    ∃ data b', Taken [.u32 data.length] b b' ∧ ∃ b'', Entries DataEntry data b' b'' ∧ r = ((), ⟨{ m with data }, b''⟩) := by
  refine vector_run (fun data m => { m with data }) (fun i data b r => ?_) fun d _ _ h => ?_
  · rw [pull_bind_run_iff]
    simp only [bufferPullU32_iff, ite_run_iff]
    constructor
    · rintro ⟨_, u, hu, ⟨rfl, h⟩ | ⟨-, ⟨rfl, h⟩ | h⟩⟩
      · obtain ⟨⟨kind, offset⟩, _, hexpr, h₁⟩ := bind_run_iff.mp h
        obtain ⟨v, hok, hv, rfl⟩ := wasmParseConstantExpr_run.mp hexpr
        obtain ⟨rfl, h₂⟩ := check_bind_run_iff.mp h₁
        obtain ⟨bytes, b', hb', he⟩ := pullBytes_run.mp h₂
        exact ⟨⟨offset, bytes, true⟩, b', ⟨by simp, Path.append_iff.mpr ⟨v, ⟨u, hu, hv⟩, hb'⟩⟩, (Option.some.inj he).symm⟩
      · obtain ⟨bytes, b', hb', he⟩ := pullBytes_run.mp h
        exact ⟨⟨0, bytes, false⟩, b', ⟨by simp, u, hu, hb'⟩, (Option.some.inj he).symm⟩
      · exact (fail_run_iff.mp h.2).elim
    · rintro ⟨⟨offset, bytes, _ | _⟩, b', ⟨hpassive, htaken⟩, rfl⟩
      · obtain ⟨u, hu, hb'⟩ := htaken
        obtain rfl : offset = 0 := hpassive rfl
        exact ⟨1, u, hu, .inr ⟨by decide, .inl ⟨rfl, pullBytes_run.mpr ⟨bytes, b', hb', rfl⟩⟩⟩⟩
      · obtain ⟨v, ⟨u, hu, hv⟩, hb'⟩ := Path.append_iff.mp htaken
        refine ⟨0, u, hu, .inl ⟨rfl, bind_run_iff.mpr ⟨⟨.i32, offset⟩, _, wasmParseConstantExpr_run.mpr ⟨v, int_ok offset, hv, rfl⟩, ?_⟩⟩⟩
        exact check_bind_run_iff.mpr ⟨rfl, pullBytes_run.mpr ⟨bytes, b', hb', rfl⟩⟩
  · obtain ⟨offset, bytes, _ | _⟩ := d
    · exact Taken.shorter h.2 trivial
    · exact Taken.shorter h.2 trivial

/-- The code section has as many bodies as there are functions. -/
theorem wasmParseCodeSection_run {r : Unit × LoadState} : wasmParseCodeSection.run ⟨m, b⟩ = some r ↔
    ∃ code b', code.length = m.functions.length ∧ Taken [.u32 code.length] b b' ∧
      ∃ b'', Entries (fun bytes => Taken (bytesTokens bytes)) code b' b'' ∧ r = ((), ⟨{ m with code := some code }, b''⟩) := by
  have turn : ∀ i code b r, (do
      let length ← Load.pull bufferPullU32
      let data ← Load.pull (bufferPull length)
      Load.modify fun m => { m with code := m.code.map (·.set i data) } : Load Unit).run ⟨{ m with code := some code }, b⟩ = some r ↔
        ∃ bytes b', Taken (bytesTokens bytes) b b' ∧ r = ((), ⟨{ m with code := some (code.set i bytes) }, b'⟩) := by
    intro i code b r
    rw [pullBytes_run]
    exact exists₂_congr fun bytes b' => and_congr_right fun _ => by rw [modify_run, Option.some.injEq, eq_comm]; rfl
  have loop := fun n b r => @entries_run m b _ (fun code m => { m with code := some code }) [] _ n _ turn r
  simp only [Path.single_iff]
  constructor
  · intro h
    obtain ⟨count, u, hu, h₁⟩ := pull_bind_run_iff.mp h
    rw [module_bind_run] at h₁
    obtain ⟨hcount, h₂⟩ := check_bind_run_iff.mp h₁
    obtain ⟨code, b', rfl, hentries, rfl⟩ := (loop _ _ _).mp h₂
    exact ⟨code, u, hcount, bufferPullU32_iff.mp hu, b', hentries, rfl⟩
  · rintro ⟨code, u, hcount, hu, b', hentries, rfl⟩
    refine pull_bind_run_iff.mpr ⟨_, u, bufferPullU32_iff.mpr hu, ?_⟩
    rw [module_bind_run]
    exact check_bind_run_iff.mpr ⟨hcount, (loop _ _ _).mpr ⟨code, b', rfl, hentries, rfl⟩⟩

/-! ### Elements -/

/-- An element segment up to the count of its functions. -/
def elementHead (e : ElemSegment) : List Token := .u32 0 :: constantTokens ⟨.i32, e.offset⟩ ++ [.u32 e.funcs.length]

def elementTokens (e : ElemSegment) : List Token := elementHead e ++ e.funcs.map .u32

/-- A segment of the only table, with as many functions as an `int` counts and indices
below the 32-bit sum of the two counts. -/
def ElemSegment.InRange (m : WasmModule) (e : ElemSegment) : Prop :=
  e.tableidx = 0 ∧ e.funcs.length < 2 ^ 31 ∧ ∀ f ∈ e.funcs, f < m.totalFuncs32

/-- What the loop over the segments accepts: behind the count of a segment there are
more bytes than functions. -/
def ElementEntry (m : WasmModule) (e : ElemSegment) (b b' : Buffer) : Prop :=
  e.InRange m ∧ ∃ c, Taken (elementHead e) b c ∧ e.funcs.length < c.data.length ∧ Taken (e.funcs.map .u32) c b'

theorem pullFuncIndex_run {f : ℕ} : pullFuncIndex.run ⟨m, b⟩ = some (f, s') ↔
    ∃ b', (f < m.totalFuncs32 ∧ (Token.u32 f).Takes b b') ∧ s' = ⟨m, b'⟩ := by
  simp only [pullFuncIndex, ↓pull_bind_run_iff, bufferPullU32_iff, ↓module_check_bind_run_iff, pure_run_iff, Prod.mk.injEq]
  constructor
  · rintro ⟨f, u, hu, hf, rfl, rfl⟩
    exact ⟨u, ⟨hf, hu⟩, rfl⟩
  · rintro ⟨u, ⟨hf, hu⟩, rfl⟩
    exact ⟨f, u, hu, hf, rfl, rfl⟩

theorem pullFuncIndices_run {n : ℕ} {funcs : List ℕ} : (pullFuncIndices n).run ⟨m, b⟩ = some (funcs, s') ↔
    ∃ b', funcs.length = n ∧ funcs.length < 2 ^ 31 ∧ (∀ f ∈ funcs, f < m.totalFuncs32) ∧ Taken (funcs.map .u32) b b' ∧ s' = ⟨m, b'⟩ := by
  rw [pullFuncIndices, collectInt_run (E := fun f b b' => f < m.totalFuncs32 ∧ (Token.u32 f).Takes b b') fun b f s' => pullFuncIndex_run]
  simp only [Path.and_iff, Path.map_iff, and_assoc]

theorem wasmParseElementSection_run {r : Unit × LoadState} : wasmParseElementSection.run ⟨m, b⟩ = some r ↔
    ∃ elems b', Taken [.u32 elems.length] b b' ∧ ∃ b'', Entries (ElementEntry m) elems b' b'' ∧ r = ((), ⟨{ m with elems }, b''⟩) := by
  refine vector_run (fun elems m => { m with elems }) (fun i elems b r => ?_) fun e _ _ h => ?_
  · simp only [bind_run_iff, ↓pull_bind_run_iff, bufferPullU32_iff, ↓check_bind_run_iff, wasmParseConstantExpr_run,
      ↓len_check_bind_run_iff, pullFuncIndices_run, modify_run, ElementEntry, elementHead, Path.append_iff, Path.cons_iff, Path.nil_iff]
    constructor
    · rintro ⟨_, u, hu, rfl, ⟨kind, offset⟩, _, ⟨v, -, hv, rfl⟩, rfl, _, w, hw, hroom, funcs, _, ⟨b', rfl, hcount, hfuncs, htaken, rfl⟩, he⟩
      exact ⟨⟨0, offset, funcs⟩, b', ⟨⟨rfl, hcount, hfuncs⟩, w, ⟨v, ⟨u, hu, hv⟩, w, hw, rfl⟩, hroom, htaken⟩, (Option.some.inj he).symm⟩
    · rintro ⟨⟨table, offset, funcs⟩, b', ⟨⟨rfl, hcount, hfuncs⟩, w, ⟨v, ⟨u, hu, hv⟩, _, hw, rfl⟩, hroom, htaken⟩, rfl⟩
      exact ⟨0, u, hu, rfl, ⟨.i32, offset⟩, _, ⟨v, int_ok offset, hv, rfl⟩, rfl, _, w, hw, hroom, funcs, _,
        ⟨b', rfl, hcount, hfuncs, htaken, rfl⟩, rfl⟩
  · obtain ⟨-, c, hc, -, hb'⟩ := h
    exact (Nat.add_le_add_right (Taken.le hb') 1).trans (Taken.shorter hc trivial)

end SpidirWasm.Wasm
