import SpidirWasm.Utf8
import SpidirWasm.Wasm.SectionEncodings
import SpidirWasm.Wasm.SectionList
import SpidirWasm.Wasm.SectionOrder

/-! The container format as a whole: what a module is before it is encoded, its encodings,
and that the loader undoes them. -/

namespace SpidirWasm.Wasm

open Keeping

namespace Format

/-- An imported function. -/
structure Import where
  moduleName : List Char
  itemName : List Char
  typeidx : ℕ

structure Table where
  min : ℕ
  max : Option ℕ

/-- A memory with its limits in pages. -/
structure Memory where
  min : ℕ
  max : ℕ
  shared : Bool

structure Export where
  name : List Char
  kind : ExportKind
  index : ℕ

/-- A module without element segments. The code is absent with its section, which a
module without functions need not have. -/
structure Module where
  types : List FuncType
  imports : List Import := []
  functions : List ℕ := []
  tables : List Table := []
  memory : Option Memory := none
  globals : List WasmGlobal := []
  exports : List Export := []
  start : Option ℕ := none
  code : Option (List (List UInt8)) := none
  data : List DataSegment := []

def Import.loaded (i : Import) : WasmImport :=
  { moduleName := some (utf8 i.moduleName), itemName := some (utf8 i.itemName), index := i.typeidx }

def Table.loaded (t : Table) : WasmTable := ⟨t.min, t.max.getD (2 ^ 32 - 1)⟩

def Memory.loaded (mem : Memory) : WasmMemory := ⟨mem.min * pageSize, mem.max * pageSize, mem.shared⟩

def Export.loaded (e : Export) : WasmExport := ⟨some (utf8 e.name), e.kind, e.index⟩

/-- The module in memory. -/
def Module.loaded (M : Module) : WasmModule where
  types := M.types
  functions := M.functions
  globals := M.globals
  imports := M.imports.map Import.loaded
  exports := M.exports.map Export.loaded
  tables := M.tables.map Table.loaded
  data := M.data
  code := M.code
  memory := (M.memory.map Memory.loaded).getD {}
  startFunc := (M.start.map Int.ofNat).getD (-1)

/-- A name is not empty and has no NUL. -/
def NameOk (cs : List Char) : Prop := cs ≠ [] ∧ Char.ofNat 0 ∉ cs

/-- An export of something that exists. -/
def ExportOk (funcs globals : ℕ) (e : Export) : Prop :=
  match e.kind with
  | .func => e.index < funcs
  | .memory => e.index = 0
  | .global => e.index < globals
  | _ => False

/-- The supported modules. -/
structure Module.Ok (M : Module) : Prop where
  types_ne : M.types ≠ []
  types : ∀ t ∈ M.types, t.Ok
  imports : ∀ i ∈ M.imports, NameOk i.moduleName ∧ NameOk i.itemName ∧ i.typeidx < M.types.length
  functions : ∀ typeidx ∈ M.functions, typeidx < M.types.length
  -- a function has a 32-bit index
  index_space : M.imports.length + M.functions.length < 2 ^ 32
  tables : ∀ t ∈ M.tables, ∀ max ∈ t.max, t.min ≤ max
  memory : ∀ mem ∈ M.memory, mem.min ≤ mem.max ∧ mem.max ≤ 65536
  globals : ∀ g ∈ M.globals, g.value.Ok
  exports : ∀ e ∈ M.exports, NameOk e.name ∧ ExportOk (M.imports.length + M.functions.length) M.globals.length e
  start : ∀ index ∈ M.start, M.loaded.getFunc index = some {}
  code : (M.code = none → M.functions = []) ∧ ∀ code ∈ M.code, code.length = M.functions.length
  data : ∀ d ∈ M.data, d.active = false → d.offset = 0

/-! ### Encodings -/

/-- A section: its id, its length and its contents. -/
def SectionOf (id : UInt8) (toks : List Token) (bs : List UInt8) : Prop :=
  ∃ contents, Encodes toks contents ∧ Encodes [.raw [id], .u32 contents.length, .raw contents] bs

/-- A section that is a vector, which may be left out when it is empty. -/
def VectorOf (id : UInt8) (entries : List (List Token)) (bs : List UInt8) : Prop :=
  SectionOf id (.u32 entries.length :: entries.flatten) bs ∨ entries = [] ∧ bs = []

/-- A section that is there with what it holds. -/
def OptionOf (id : UInt8) (toks : Option (List Token)) (bs : List UInt8) : Prop :=
  (∃ ts, toks = some ts ∧ SectionOf id ts bs) ∨ toks = none ∧ bs = []

def Import.tokens (i : Import) : List Token := importTokens (utf8 i.moduleName) (utf8 i.itemName) i.typeidx

def Table.tokens (t : Table) : List Token := tableTokens t.loaded t.max.isSome

def Memory.tokens (mem : Memory) : List Token := memoryTokens (if mem.shared then 0x03 else 0x01) mem.min mem.max

def Export.tokens (e : Export) : List Token := exportTokens (utf8 e.name) e.loaded

def codeTokens (code : List (List UInt8)) : List Token := .u32 code.length :: code.flatMap bytesTokens

/-- The encodings of a module, in every padding of their integers. The count of the data
segments may stand in front of the code. -/
inductive Module.Encoded (M : Module) : List UInt8 → Prop
  | sections {types imports functions tables memory globals exports start dataCount code data : List UInt8}
      (htypes : SectionOf 1 (typeSectionTokens M.types) types)
      (himports : VectorOf 2 (M.imports.map Import.tokens) imports)
      (hfunctions : VectorOf 3 (M.functions.map fun typeidx => [.u32 typeidx]) functions)
      (htables : VectorOf 4 (M.tables.map Table.tokens) tables)
      (hmemory : OptionOf 5 (M.memory.map Memory.tokens) memory)
      (hglobals : VectorOf 6 (M.globals.map globalTokens) globals)
      (hexports : VectorOf 7 (M.exports.map Export.tokens) exports)
      (hstart : OptionOf 8 (M.start.map fun index => [.u32 index]) start)
      (hdataCount : SectionOf 12 [.u32 M.data.length] dataCount ∨ dataCount = [])
      (hcode : OptionOf 10 (M.code.map codeTokens) code)
      (hdata : VectorOf 11 (M.data.map dataTokens) data) :
      M.Encoded (magicVersion ++ (types ++ (imports ++ (functions ++ (tables ++ (memory ++ (globals ++ (exports ++ (start ++
        (dataCount ++ (code ++ data)))))))))))

/-! ### Sections behind each other -/

/-- Loading the sections in `bs` takes the module `m` to `m'`, from any place up to `k` in
the order of the sections, and stays in front of the place `k'`. -/
def Advances (k k' : ℕ) (m m' : WasmModule) (bs : List UInt8) : Prop :=
  ∀ index ≤ k, ∃ secs index', index' ≤ k' ∧ Split bs secs ∧ secs.foldlM loadSection (index, m) = some (index', m')

variable {M : Module} {m m' m'' : WasmModule} {k k' k'' p : ℕ} {id : UInt8} {toks : List Token} {bs bs' : List UInt8}

theorem Advances.skip (hk : k ≤ k') : Advances k k' m m [] := fun index hindex => ⟨[], index, hindex.trans hk, .nil, rfl⟩

theorem Advances.append (h : Advances k k' m m' bs) (h' : Advances k' k'' m' m'' bs') : Advances k k'' m m'' (bs ++ bs') := by
  intro index hindex
  obtain ⟨secs, index', hindex', hsplit, hfold⟩ := h index hindex
  obtain ⟨secs', index'', hindex'', hsplit', hfold'⟩ := h' index' hindex'
  refine ⟨secs ++ secs', index'', hindex'', hsplit.append hsplit', ?_⟩
  rw [List.foldlM_append, hfold]
  exact hfold'

theorem Advances.earlier (h : Advances k' k'' m m' bs) (hk : k ≤ k') : Advances k k'' m m' bs :=
  fun index hindex => h index (hindex.trans hk)

/-- A section is found at its place from any place in front. -/
theorem findSectionIndex_of_le {id index : ℕ} (hle : index ≤ p) (hp : expectedSectionOrder[p]? = some id) :
    findSectionIndex id index = some p := by
  have all : ∀ p < 13, ∀ index < p + 1, findSectionIndex (expectedSectionOrder[p]?.getD 0) index = some p := by decide
  have hlt : p < 13 := (List.getElem?_eq_some_iff.mp hp).1
  have found := all p hlt index (by omega)
  rwa [hp, Option.getD_some] at found

theorem wasmPullSection_encoded {contents : List UInt8} (h : Encodes [.raw [id], .u32 contents.length, .raw contents] bs) (q : UInt8) :
    ∃ q', wasmPullSection ⟨q, bs⟩ = some ((id.toNat, contents), ⟨q', []⟩) := by
  obtain ⟨⟨q', rest⟩, ⟨u, hu, v, hv, w, hw, rfl⟩, hend⟩ := (whole_iff (p := q)).mp h.whole
  obtain rfl : rest = [] := hend
  refine ⟨q', ?_⟩
  simp only [wasmPullSection, Checked.bind_eq_some, bufferPullU8_iff, bufferPullU32_iff, bufferPull_iff, Checked.pure_eq_some]
  exact ⟨id, u, hu, _, v, hv, contents, _, ⟨rfl, hw⟩, rfl⟩

/-- The length of a section has 32 bits. -/
theorem contents_lt {contents : List UInt8} (h : Encodes [.raw [id], .u32 contents.length, .raw contents] bs) :
    contents.length < 2 ^ 32 := by
  obtain ⟨_, -, _, hlength, -⟩ := (whole_iff (p := 0)).mp h.whole |>.choose_spec.1
  exact bufferPullU32_lt (bufferPullU32_iff.mpr hlength)

/-- A section that its parser reads is passed. -/
theorem SectionOf.advances (h : SectionOf id toks bs) (hid : id ≠ 0) (hp : expectedSectionOrder[p]? = some id.toNat)
    (hy : ∀ contents, Encodes toks contents → contents.length < 2 ^ 32 → Yields (wasmParseSection id.toNat) contents m m') :
    Advances p (p + 1) m m' bs := by
  intro index hindex
  obtain ⟨contents, hcontents, hbs⟩ := h
  obtain ⟨q, hpull⟩ := wasmPullSection_encoded hbs 0
  obtain ⟨b, hrun⟩ := hy contents hcontents (contents_lt hbs)
  have nonzero : id.toNat ≠ 0 := fun h => hid (UInt8.toNat_inj.mp h)
  refine ⟨[(id.toNat, contents)], p + 1, le_rfl, .cons hpull .nil, ?_⟩
  simp only [List.foldlM_cons, List.foldlM_nil, loadSection_ordered nonzero, findSectionIndex_of_le hindex hp, Option.bind_eq_bind,
    Option.bind_some, hrun, Option.map_some]
  rfl

theorem VectorOf.advances {entries : List (List Token)} (h : VectorOf id entries bs) (hid : id ≠ 0)
    (hp : expectedSectionOrder[p]? = some id.toNat) (hempty : entries = [] → m' = m)
    (hy : ∀ contents, Encodes (.u32 entries.length :: entries.flatten) contents → contents.length < 2 ^ 32 →
      Yields (wasmParseSection id.toNat) contents m m') : Advances p (p + 1) m m' bs := by
  rcases h with h | ⟨hnil, rfl⟩
  · exact h.advances hid hp hy
  · rw [hempty hnil]
    exact .skip (Nat.le_succ p)

theorem OptionOf.advances {toks : Option (List Token)} (h : OptionOf id toks bs) (hid : id ≠ 0)
    (hp : expectedSectionOrder[p]? = some id.toNat) (hnone : toks = none → m' = m)
    (hy : ∀ ts, toks = some ts → ∀ contents, Encodes ts contents → contents.length < 2 ^ 32 →
      Yields (wasmParseSection id.toNat) contents m m') : Advances p (p + 1) m m' bs := by
  rcases h with ⟨ts, hts, h⟩ | ⟨h, rfl⟩
  · exact h.advances hid hp (hy ts hts)
  · rw [hnone h]
    exact .skip (Nat.le_succ p)

/-- Two bytes an entry are enough to keep the count of a section's entries within an `int`. -/
theorem vector_counted {S : Type} {xs : List S} {tokens : S → List Token}
    (h : Encodes (.u32 (xs.map tokens).length :: (xs.map tokens).flatten) bs) (hbs : bs.length < 2 ^ 32)
    (hlong : ∀ x ∈ xs, ∃ t t' toks, tokens x = t :: t' :: toks ∧ t.Long ∧ t'.Long) : xs.length < 2 ^ 31 := by
  obtain ⟨b'', ⟨b', hb', htaken⟩, -⟩ := (whole_iff (p := 0)).mp h.whole
  have entries : Path (fun x => Taken (tokens x)) xs b' b'' := Path.flatMap_iff.mp htaken
  have halved := @Path.length_le _ _ _ _ _ _ (fun b : Buffer => b.data.length / 2) (fun x hx b c hstep => by
    obtain ⟨t, t', toks, he, ht, ht'⟩ := hlong x hx
    rw [he] at hstep
    obtain ⟨u, hu, hrest⟩ := hstep
    have first := hu.length ht
    have second := Taken.shorter hrest ht'
    omega) entries
  have count : b'.data.length + 1 ≤ bs.length := hb'.length trivial
  omega

/-- The entries of a vector, when each is accepted from its tokens. -/
theorem entries_of_encodes {T S : Type} {xs : List S} {tokens : S → List Token} (f : S → T) (entry : T → Buffer → Buffer → Prop)
    (h : Encodes (.u32 (xs.map tokens).length :: (xs.map tokens).flatten) bs) (hcount : xs.length < 2 ^ 31)
    (hentry : ∀ x ∈ xs, ∀ b b', Taken (tokens x) b b' → entry (f x) b b') :
    ∃ b' b'', Taken [.u32 (xs.map f).length] ⟨0, bs⟩ b' ∧ Entries entry (xs.map f) b' b'' := by
  obtain ⟨b'', ⟨b', hb', htaken⟩, hend⟩ := (whole_iff (p := 0)).mp h.whole
  rw [List.length_map] at hb'
  refine ⟨b', b'', Path.single_iff.mpr (by rwa [List.length_map]), Path.map_iff.mpr ?_, by rwa [List.length_map], hend⟩
  have entries : Path Token.Takes (xs.flatMap tokens) b' b'' := htaken
  exact Path.mono hentry (Path.flatMap_iff.mp entries)

/-! ### The sections of a module -/

theorem nameOk_utf8 {cs : List Char} (h : NameOk cs) : Name.Ok (utf8 cs) := by
  refine ⟨?_, isValidUtf8_utf8 cs⟩
  obtain ⟨c, cs, rfl⟩ := List.exists_cons_of_ne_nil h.1
  have pos := List.length_pos_iff.mpr (@String.utf8EncodeChar_ne_nil c)
  rw [utf8, List.flatMap_cons, List.length_append]
  omega

theorem types_yields (hM : M.Ok) (hcounts : ∀ t ∈ M.types, t.Countable) (h : Encodes (typeSectionTokens M.types) bs)
    (hbs : bs.length < 2 ^ 32) : Yields wasmParseTypeSection bs m { m with types := M.types } := by
  have same : typeSectionTokens M.types = .u32 (M.types.map typeTokens).length :: (M.types.map typeTokens).flatten := by
    rw [List.length_map]
    rfl
  have count : M.types.length < 2 ^ 31 := vector_counted (same ▸ h) hbs fun t _ =>
    ⟨.raw [0x60], .u32 t.argTypes.length, _, rfl, List.cons_ne_nil _ _, trivial⟩
  exact typeSection_yields_iff.mpr ⟨M.types, ⟨hM.types_ne, hM.types, count, hcounts⟩, h.whole, rfl⟩

theorem imports_yields (hM : M.Ok) (htypes : m.types = M.types)
    (h : Encodes (.u32 (M.imports.map Import.tokens).length :: (M.imports.map Import.tokens).flatten) bs) (hbs : bs.length < 2 ^ 32) :
    Yields wasmParseImportSection bs m { m with imports := M.imports.map Import.loaded } := by
  have count : M.imports.length < 2 ^ 31 := vector_counted h hbs fun i hi =>
    ⟨_, _, _, rfl, trivial, List.ne_nil_of_length_pos (nameOk_utf8 (hM.imports i hi).1).nonempty⟩
  obtain ⟨b', b'', hb', hentries⟩ := entries_of_encodes Import.loaded (ImportEntry m) h count fun i hi b b' ht => by
    obtain ⟨hmodule, hitem, hindex⟩ := hM.imports i hi
    exact ⟨_, _, nameOk_utf8 hmodule, nameOk_utf8 hitem, htypes ▸ hindex, rfl, ht⟩
  exact ⟨b'', wasmParseImportSection_run.mpr ⟨_, b', hb', b'', hentries, rfl⟩⟩

theorem functions_yields (hM : M.Ok) (htypes : m.types = M.types) (hcount : M.functions.length < 2 ^ 31)
    (h : Encodes (.u32 (M.functions.map fun typeidx => [Token.u32 typeidx]).length ::
      (M.functions.map fun typeidx => [.u32 typeidx]).flatten) bs) :
    Yields wasmParseFunctionSection bs m { m with functions := M.functions } := by
  obtain ⟨b', b'', hb', hentries⟩ := entries_of_encodes id (FunctionEntry m) h hcount fun typeidx hi b b' ht =>
    ⟨htypes ▸ hM.functions typeidx hi, ht⟩
  rw [List.map_id] at hb' hentries
  exact ⟨b'', wasmParseFunctionSection_run.mpr ⟨_, b', hb', b'', hentries, rfl⟩⟩

theorem tables_yields (hM : M.Ok)
    (h : Encodes (.u32 (M.tables.map Table.tokens).length :: (M.tables.map Table.tokens).flatten) bs) (hbs : bs.length < 2 ^ 32) :
    Yields wasmParseTableSection bs m { m with tables := M.tables.map Table.loaded } := by
  have count : M.tables.length < 2 ^ 31 := by
    refine vector_counted h hbs fun t _ => ?_
    obtain ⟨min, _ | max⟩ := t
    · exact ⟨_, _, _, rfl, List.cons_ne_nil _ _, List.cons_ne_nil _ _⟩
    · exact ⟨_, _, _, rfl, List.cons_ne_nil _ _, List.cons_ne_nil _ _⟩
  obtain ⟨b', b'', hb', hentries⟩ := entries_of_encodes Table.loaded TableEntry h count fun t hi b b' ht => by
    obtain ⟨min, max⟩ := t
    cases max with
    | none =>
      have small : min < 2 ^ 32 := by
        obtain ⟨u, hu, v, hv, w, hw, -⟩ := ht
        exact bufferPullU32_lt (bufferPullU32_iff.mpr hw)
      exact ⟨Nat.le_sub_one_of_lt small, false, fun _ => rfl, ht⟩
    | some max => exact ⟨hM.tables _ hi max rfl, true, by simp, ht⟩
  exact ⟨b'', wasmParseTableSection_run.mpr ⟨_, b', hb', b'', hentries, rfl⟩⟩

theorem memory_yields {mem : Memory} (hM : M.Ok) (hmem : M.memory = some mem) (h : Encodes mem.tokens bs) :
    Yields wasmParseMemorySection bs m { m with memory := mem.loaded } := by
  obtain ⟨hle, h4⟩ := hM.memory mem hmem
  obtain ⟨b', htaken, hend⟩ := (whole_iff (p := 0)).mp h.whole
  obtain ⟨min, max, shared⟩ := mem
  cases shared with
  | false => exact ⟨b', wasmParseMemorySection_run.mpr ⟨0x01, min, max, b', .inr (.inl rfl), by simp, htaken, hend, hle, h4, rfl⟩⟩
  | true => exact ⟨b', wasmParseMemorySection_run.mpr ⟨0x03, min, max, b', .inr (.inr rfl), by simp, htaken, hend, hle, h4, rfl⟩⟩

theorem globals_yields (hM : M.Ok)
    (h : Encodes (.u32 (M.globals.map globalTokens).length :: (M.globals.map globalTokens).flatten) bs) (hbs : bs.length < 2 ^ 32) :
    Yields wasmParseGlobalSection bs m { m with globals := M.globals } := by
  have count : M.globals.length < 2 ^ 31 := vector_counted h hbs fun g _ => ⟨_, _, _, rfl, List.cons_ne_nil _ _, List.cons_ne_nil _ _⟩
  obtain ⟨b', b'', hb', hentries⟩ := entries_of_encodes id GlobalEntry h count fun g hi b b' ht => ⟨hM.globals g hi, ht⟩
  rw [List.map_id] at hb' hentries
  exact ⟨b'', wasmParseGlobalSection_run.mpr ⟨_, b', hb', b'', hentries, rfl⟩⟩

theorem exports_yields (hM : M.Ok) (hfuncs : m.totalFuncs = M.imports.length + M.functions.length) (hglobals : m.globals = M.globals)
    (h : Encodes (.u32 (M.exports.map Export.tokens).length :: (M.exports.map Export.tokens).flatten) bs) (hbs : bs.length < 2 ^ 32) :
    Yields wasmParseExportSection bs m { m with exports := M.exports.map Export.loaded } := by
  have count : M.exports.length < 2 ^ 31 := vector_counted h hbs fun e he =>
    ⟨_, _, _, rfl, trivial, List.ne_nil_of_length_pos (nameOk_utf8 (hM.exports e he).1).nonempty⟩
  have total : m.totalFuncs32 = M.imports.length + M.functions.length := by
    rw [WasmModule.totalFuncs32, hfuncs, Nat.mod_eq_of_lt hM.index_space]
  obtain ⟨b', b'', hb', hentries⟩ := entries_of_encodes Export.loaded (ExportEntry m) h count fun e hi b b' ht => by
    obtain ⟨hname, hok⟩ := hM.exports e hi
    refine ⟨_, nameOk_utf8 hname, rfl, ?_, ht⟩
    rw [total, hglobals]
    obtain ⟨name, kind, index⟩ := e
    cases kind with
    | func => exact ⟨.inl rfl, fun _ => hok, by simp [Export.loaded], by simp [Export.loaded]⟩
    | memory => exact ⟨.inr (.inl rfl), by simp [Export.loaded], fun _ => hok, by simp [Export.loaded]⟩
    | global => exact ⟨.inr (.inr rfl), by simp [Export.loaded], by simp [Export.loaded], fun _ => hok⟩
    | table | tag => exact hok.elim
  exact ⟨b'', wasmParseExportSection_run.mpr ⟨_, b', hb', b'', hentries, rfl⟩⟩

/-- The signature of a function is found with the types and the two lists of functions. -/
theorem getFunc_congr (htypes : m.types = m'.types) (himports : m.imports = m'.imports) (hfunctions : m.functions = m'.functions) :
    m.getFunc = m'.getFunc := by
  funext index
  rw [WasmModule.getFunc, WasmModule.getFunc, htypes, himports, hfunctions]

theorem getFunc_lt {index : ℕ} {type : FuncType} (h : m.getFunc index = some type) : index < m.totalFuncs := by
  rw [WasmModule.totalFuncs]
  by_contra hge
  have none : m.functions[index - m.imports.length]? = none := List.getElem?_eq_none (by omega)
  rw [WasmModule.getFunc, if_neg (by omega), none] at h
  cases h

theorem start_yields {index : ℕ} (hM : M.Ok) (hstart : M.start = some index) (hfuncs : m.getFunc = M.loaded.getFunc)
    (htotal : m.totalFuncs = M.imports.length + M.functions.length) (h : Encodes [.u32 index] bs) :
    Yields wasmParseStartSection bs m { m with startFunc := index } := by
  obtain ⟨b', htaken, hend⟩ := (whole_iff (p := 0)).mp h.whole
  have hget : m.getFunc index = some {} := by rw [hfuncs, hM.start index hstart]
  have inside := getFunc_lt hget
  have small : index < m.totalFuncs32 := by
    rw [WasmModule.totalFuncs32, Nat.mod_eq_of_lt (htotal ▸ hM.index_space)]
    exact inside
  exact ⟨b', wasmParseStartSection_run.mpr ⟨index, b', htaken, hend, small, ⟨inside, {}, hget, rfl, rfl⟩, rfl⟩⟩

theorem code_yields {code : List (List UInt8)} (hM : M.Ok) (hcode : M.code = some code) (hfunctions : m.functions = M.functions)
    (hcount : M.functions.length < 2 ^ 31) (h : Encodes (codeTokens code) bs) : Yields wasmParseCodeSection bs m { m with code := some code } := by
  have same : codeTokens code = .u32 (code.map bytesTokens).length :: (code.map bytesTokens).flatten := by
    rw [List.length_map]
    rfl
  rw [same] at h
  have bodies := hM.code.2 code hcode
  obtain ⟨b', b'', hb', hentries⟩ := entries_of_encodes id (fun bytes => Taken (bytesTokens bytes)) h (bodies ▸ hcount)
    fun _ _ _ _ ht => ht
  rw [List.map_id] at hb' hentries
  exact ⟨b'', wasmParseCodeSection_run.mpr ⟨code, b', hfunctions ▸ bodies, hb', b'', hentries, rfl⟩⟩

theorem data_yields (hM : M.Ok) (h : Encodes (.u32 (M.data.map dataTokens).length :: (M.data.map dataTokens).flatten) bs)
    (hbs : bs.length < 2 ^ 32) : Yields wasmParseDataSection bs m { m with data := M.data } := by
  have count : M.data.length < 2 ^ 31 := by
    refine vector_counted h hbs fun d _ => ?_
    obtain ⟨offset, bytes, _ | _⟩ := d
    · exact ⟨_, _, _, rfl, trivial, trivial⟩
    · exact ⟨_, _, _, rfl, trivial, List.cons_ne_nil _ _⟩
  obtain ⟨b', b'', hb', hentries⟩ := entries_of_encodes id DataEntry h count fun d hi b b' ht => ⟨hM.data d hi, ht⟩
  rw [List.map_id] at hb' hentries
  exact ⟨b'', wasmParseDataSection_run.mpr ⟨_, b', hb', b'', hentries, rfl⟩⟩

/-! ### The whole module -/

/-- An `int` counts the functions, and the parameters and the results of each type. -/
structure Module.Countable (M : Module) : Prop where
  functions : M.functions.length < 2 ^ 31
  types : ∀ t ∈ M.types, t.Countable

theorem encoded_loads (hM : M.Ok) (hcounts : M.Countable) (h : M.Encoded bs) : wasmLoadModule bs = some M.loaded := by
  cases h with
  | @sections types imports functions tables memory globals exports start dataCount code data htypes himports hfunctions htables
      hmemory hglobals hexports hstart hdataCount hcode hdata =>
    -- the module behind each section
    let m₁ : WasmModule := { types := M.types }
    let m₂ : WasmModule := { m₁ with imports := M.imports.map Import.loaded }
    let m₃ : WasmModule := { m₂ with functions := M.functions }
    let m₄ : WasmModule := { m₃ with tables := M.tables.map Table.loaded }
    let m₅ : WasmModule := { m₄ with memory := (M.memory.map Memory.loaded).getD {} }
    let m₆ : WasmModule := { m₅ with globals := M.globals }
    let m₇ : WasmModule := { m₆ with exports := M.exports.map Export.loaded }
    let m₈ : WasmModule := { m₇ with startFunc := (M.start.map Int.ofNat).getD (-1) }
    let m₉ : WasmModule := { m₈ with code := M.code }
    have total : m₆.totalFuncs = M.imports.length + M.functions.length := by
      simp [m₆, m₅, m₄, m₃, m₂, WasmModule.totalFuncs]
    have step₁ : Advances 0 1 {} m₁ types := htypes.advances (by decide) rfl fun _ h hbs =>
      types_yields hM hcounts.types h hbs
    have step₂ : Advances 1 2 m₁ m₂ imports := himports.advances (by decide) rfl (fun h => by simp_all [m₂, m₁])
      fun _ h hbs => imports_yields hM rfl h hbs
    have step₃ : Advances 2 3 m₂ m₃ functions := hfunctions.advances (by decide) rfl (fun h => by simp_all [m₃, m₂, m₁])
      fun _ h _ => functions_yields hM rfl hcounts.functions h
    have step₄ : Advances 3 4 m₃ m₄ tables := htables.advances (by decide) rfl (fun h => by simp_all [m₄, m₃, m₂, m₁])
      fun _ h hbs => tables_yields hM h hbs
    have step₅ : Advances 4 5 m₄ m₅ memory := by
      refine hmemory.advances (by decide) rfl (fun h => ?_) fun ts hts _ h _ => ?_
      · simp_all [m₅, m₄, m₃, m₂, m₁]
      · obtain ⟨mem, hmem, rfl⟩ := Option.map_eq_some_iff.mp hts
        simp only [m₅, hmem, Option.map_some, Option.getD_some]
        exact memory_yields hM hmem h
    have step₆ : Advances 6 7 m₅ m₆ globals := hglobals.advances (by decide) rfl (fun h => by simp_all [m₆, m₅, m₄, m₃, m₂, m₁])
      fun _ h hbs => globals_yields hM h hbs
    have step₇ : Advances 7 8 m₆ m₇ exports := hexports.advances (by decide) rfl
      (fun h => by simp_all [m₇, m₆, m₅, m₄, m₃, m₂, m₁]) fun _ h hbs =>
      exports_yields hM total rfl h hbs
    have step₈ : Advances 8 9 m₇ m₈ start := by
      refine hstart.advances (by decide) rfl (fun h => ?_) fun ts hts _ h _ => ?_
      · simp_all [m₈, m₇, m₆, m₅, m₄, m₃, m₂, m₁]
      · obtain ⟨index, hindex, rfl⟩ := Option.map_eq_some_iff.mp hts
        simp only [m₈, hindex, Option.map_some, Option.getD_some]
        exact start_yields hM hindex (getFunc_congr rfl rfl rfl) total h
    have step₉ : Advances 10 11 m₈ m₈ dataCount := by
      rcases hdataCount with h | rfl
      · exact h.advances (by decide) rfl fun contents _ _ => ⟨⟨0, contents⟩, rfl⟩
      · exact .skip (by decide)
    have step₁₀ : Advances 11 12 m₈ m₉ code := by
      refine hcode.advances (by decide) rfl (fun h => ?_) fun ts hts _ h _ => ?_
      · simp_all [m₉, m₈, m₇, m₆, m₅, m₄, m₃, m₂, m₁]
      · obtain ⟨bodies, hbodies, rfl⟩ := Option.map_eq_some_iff.mp hts
        simp only [m₉, hbodies]
        exact code_yields hM hbodies rfl hcounts.functions h
    have step₁₁ : Advances 12 13 m₉ M.loaded data := hdata.advances (by decide) rfl
      (fun h => by simp_all [Module.loaded, m₉, m₈, m₇, m₆, m₅, m₄, m₃, m₂, m₁]) fun _ h hbs =>
      data_yields hM h hbs
    have all := step₁.append (step₂.append (step₃.append (step₄.append (step₅.append ((step₆.append (step₇.append (step₈.append
      ((step₉.append (step₁₀.append step₁₁)).earlier (Nat.le_succ 9))))).earlier (Nat.le_succ 5))))))
    obtain ⟨secs, index, -, hsplit, hfold⟩ := all 0 le_rfl
    refine wasmLoadModule_eq_some.mpr ⟨_, secs, index, rfl, hsplit, hfold, fun hpos hnone => ?_⟩
    exact absurd (hM.code.1 hnone) (List.ne_nil_of_length_pos hpos)

/-- A module in which an `int` counts the functions, and the parameters and the results of each type. -/
def Counted (m : WasmModule) : Prop := m.functions.length < 2 ^ 31 ∧ ∀ t ∈ m.types, t.Countable

theorem counted_of_writes {n : ℕ} (h : SectionWrites m n m') (h1 : n ≠ 1) (h3 : n ≠ 3) (hm : Counted m) : Counted m' := by
  cases h with
  | types => exact absurd rfl h1
  | functions => exact absurd rfl h3
  | _ => exact hm

/-- Every section that is accepted has been counted. -/
theorem parseSection_counted {sec : ℕ × List UInt8} (hm : Counted m) (h : parseSection m sec = some m') : Counted m' := by
  obtain ⟨n, contents⟩ := sec
  obtain ⟨⟨_, s⟩, hs, rfl⟩ := Option.map_eq_some_iff.mp h
  by_cases h1 : n = 1
  · subst h1
    obtain ⟨types, b', -, -, htypes, -, -, he⟩ := wasmParseTypeSection_run.mp hs
    obtain ⟨-, rfl⟩ := Prod.mk.inj he
    exact ⟨hm.1, fun t ht => (htypes t ht).2⟩
  by_cases h3 : n = 3
  · subst h3
    obtain ⟨functions, b', -, b'', ⟨-, hcount, -⟩, he⟩ := wasmParseFunctionSection_run.mp hs
    obtain ⟨-, rfl⟩ := Prod.mk.inj he
    exact ⟨hcount, hm.2⟩
  exact counted_of_writes (section_writes hs) h1 h3 hm

theorem load_counted {data : List UInt8} (h : wasmLoadModule data = some m) : Counted m := by
  obtain ⟨bs, secs, index, -, -, hfold, -⟩ := wasmLoadModule_eq_some.mp h
  rw [foldlM_loadSection] at hfold
  obtain ⟨_, -, hparse⟩ := Option.bind_eq_some_iff.mp hfold
  obtain ⟨m', hm, he⟩ := Option.map_eq_some_iff.mp hparse
  obtain ⟨-, rfl⟩ := Prod.mk.inj he
  have run : ∀ (secs : List (ℕ × List UInt8)) (m m' : WasmModule), Counted m → secs.foldlM parseSection m = some m' → Counted m' := by
    intro secs
    induction secs with
    | nil =>
      rintro m m' hm hrun
      obtain rfl := Option.some.inj hrun
      exact hm
    | cons sec secs ih =>
      rintro m m' hm hrun
      obtain ⟨m₁, hsec, hrest⟩ := Option.bind_eq_some_iff.mp hrun
      exact ih m₁ m' (parseSection_counted hm hsec) hrest
  exact run secs {} m' ⟨Nat.two_pow_pos 31, by simp⟩ hm

/-- Loading an encoding of a supported module returns that module, whatever the padding of
its integers, when an `int` counts its functions and the parameters and the results of its
types; otherwise a loop of the loader overflows. -/
theorem load_encoded_iff (hM : M.Ok) (h : M.Encoded bs) : wasmLoadModule bs = some M.loaded ↔
    M.functions.length < 2 ^ 31 ∧ ∀ t ∈ M.types, t.argTypes.length < 2 ^ 31 ∧ t.resultTypes.length < 2 ^ 31 :=
  ⟨fun hload => load_counted hload, fun hcounts => encoded_loads hM ⟨hcounts.1, hcounts.2⟩ h⟩

/-- A function that is exported, with a padded length of the type section. -/
def exported : List UInt8 := magicVersion ++
  [0x01, 0x84, 0x00, 0x01, 0x60, 0x00, 0x00,
   0x03, 0x02, 0x01, 0x00,
   0x07, 0x05, 0x01, 0x01, 0x66, 0x00, 0x00,
   0x0A, 0x04, 0x01, 0x02, 0x00, 0x0B]

theorem load_encoded_exported : (wasmLoadModule exported).map (fun m => (m.types, m.functions, m.exports, m.code)) =
    some ([{}], [0], [⟨some [0x66], .func, 0⟩], some [[0x00, 0x0B]]) := by
  let M : Module := { types := [{}], functions := [0], exports := [⟨[Char.ofNat 0x66], .func, 0⟩], code := some [[0x00, 0x0B]] }
  have ok : M.Ok := by
    constructor <;> simp [M, FuncType.Ok, NameOk, ExportOk]
  have byte : ∀ {x : UInt8}, x.toNat < 128 → (Token.u32 x.toNat).Spelled [x] := fun hx => (byte_spelled hx).1
  have four : (Token.u32 4).Spelled [0x84, 0x00] :=
    (Leb128.unsigned_iff (by decide)).mpr ⟨.more (by decide) (.last (by decide)), by decide, by decide, by decide⟩
  have types : SectionOf 1 (typeSectionTokens M.types) [0x01, 0x84, 0x00, 0x01, 0x60, 0x00, 0x00] :=
    ⟨[0x01, 0x60, 0x00, 0x00], ⟨[[0x01], [0x60], [0x00], [0x00]],
      .cons (@byte 1 (by decide)) (.cons rfl (.cons (@byte 0 (by decide)) (.cons (@byte 0 (by decide)) .nil))), rfl⟩,
      ⟨[[0x01], [0x84, 0x00], _], .cons rfl (.cons four (.cons rfl .nil)), rfl⟩⟩
  have functions : VectorOf 3 (M.functions.map fun typeidx => [.u32 typeidx]) [0x03, 0x02, 0x01, 0x00] :=
    .inl ⟨[0x01, 0x00], ⟨[[0x01], [0x00]], .cons (@byte 1 (by decide)) (.cons (@byte 0 (by decide)) .nil), rfl⟩,
      ⟨[[0x03], [0x02], _], .cons rfl (.cons (@byte 2 (by decide)) (.cons rfl .nil)), rfl⟩⟩
  have exports : VectorOf 7 (M.exports.map Export.tokens) [0x07, 0x05, 0x01, 0x01, 0x66, 0x00, 0x00] :=
    .inl ⟨[0x01, 0x01, 0x66, 0x00, 0x00], ⟨[[0x01], [0x01], [0x66], [0x00], [0x00]], .cons (@byte 1 (by decide))
      (.cons (@byte 1 (by decide)) (.cons rfl (.cons rfl (.cons (@byte 0 (by decide)) .nil)))), rfl⟩,
      ⟨[[0x07], [0x05], _], .cons rfl (.cons (@byte 5 (by decide)) (.cons rfl .nil)), rfl⟩⟩
  have code : OptionOf 10 (M.code.map codeTokens) [0x0A, 0x04, 0x01, 0x02, 0x00, 0x0B] :=
    .inl ⟨_, rfl, [0x01, 0x02, 0x00, 0x0B], ⟨[[0x01], [0x02], [0x00, 0x0B]], .cons (@byte 1 (by decide))
      (.cons (@byte 2 (by decide)) (.cons rfl .nil)), rfl⟩,
      ⟨[[0x0A], [0x04], _], .cons rfl (.cons (@byte 4 (by decide)) (.cons rfl .nil)), rfl⟩⟩
  have encoded : M.Encoded exported := .sections types (.inr ⟨rfl, rfl⟩) functions (.inr ⟨rfl, rfl⟩) (.inr ⟨rfl, rfl⟩) (.inr ⟨rfl, rfl⟩)
    exports (.inr ⟨rfl, rfl⟩) (.inr rfl) code (.inr ⟨rfl, rfl⟩)
  rw [(load_encoded_iff ok encoded).mpr ⟨by decide, by simp [M]⟩]
  rfl

/-- One type with `n` parameters. -/
def parameters (n : ℕ) : Module := { types := [⟨List.replicate n .i32, []⟩] }

/-- The contents of its type section, where `count` spells `n`. -/
def parametersContents (n : ℕ) (count : List UInt8) : List UInt8 := [0x01, 0x60] ++ count ++ List.replicate n 0x7F ++ [0x00]

theorem parametersContents_length (n : ℕ) (count : List UInt8) : (parametersContents n count).length = n + (count.length + 3) := by
  simp [parametersContents]
  omega

theorem parameters_encoded {n : ℕ} {count length : List UInt8} (hcount : (Token.u32 n).Spelled count)
    (hlength : (Token.u32 (parametersContents n count).length).Spelled length) :
    (parameters n).Encoded (magicVersion ++ ([0x01] ++ length ++ parametersContents n count)) := by
  have raw (bs : List UInt8) : Encodes [.raw bs] bs := Token.Spelled.encodes (t := .raw bs) rfl
  have byte {x : UInt8} (hx : x.toNat < 128) : Encodes [.u32 x.toNat] [x] := (byte_spelled hx).1.encodes
  have contents : Encodes (typeSectionTokens (parameters n).types) (parametersContents n count) := by
    have tokens : typeSectionTokens (parameters n).types = [.u32 1] ++ [.raw [0x60]] ++ [.u32 n] ++ List.replicate n (.raw [0x7F]) ++ [.u32 0] := by
      simp [typeSectionTokens, parameters, typeTokens, resultTokens, valTypeByte]
    rw [tokens]
    exact ((((byte (x := 1) (by decide)).append (raw [0x60])).append hcount.encodes).append (encodes_replicate 0x7F n)).append
      (byte (x := 0) (by decide))
  have whole : SectionOf 1 (typeSectionTokens (parameters n).types) ([0x01] ++ length ++ parametersContents n count) :=
    ⟨_, contents, ((raw [0x01]).append hlength.encodes).append (raw _)⟩
  have encoded := Module.Encoded.sections (M := parameters n) whole (.inr ⟨rfl, rfl⟩) (.inr ⟨rfl, rfl⟩) (.inr ⟨rfl, rfl⟩) (.inr ⟨rfl, rfl⟩)
    (.inr ⟨rfl, rfl⟩) (.inr ⟨rfl, rfl⟩) (.inr ⟨rfl, rfl⟩) (.inr rfl) (.inr ⟨rfl, rfl⟩) (.inr ⟨rfl, rfl⟩)
  simpa using encoded

/-- `2 ^ 31`, in five bytes. -/
def spelled31 : List UInt8 := [0x80, 0x80, 0x80, 0x80, 0x08]

/-- With `2 ^ 31` parameters the loop over them overflows, and the module is not returned. -/
theorem load_parameters_fails : (parameters (2 ^ 31)).Ok ∧
    (parameters (2 ^ 31)).Encoded (magicVersion ++ ([0x01] ++ [0x88, 0x80, 0x80, 0x80, 0x08] ++ parametersContents (2 ^ 31) spelled31)) ∧
    wasmLoadModule (magicVersion ++ ([0x01] ++ [0x88, 0x80, 0x80, 0x80, 0x08] ++ parametersContents (2 ^ 31) spelled31)) ≠
      some (parameters (2 ^ 31)).loaded := by
  -- nothing is computed with a list of this length
  generalize hn : 2 ^ 31 = n
  have five {v : ℕ} {low : UInt8} (hlow : 128 ≤ low.toNat) (hv : Leb128.value [low, 0x80, 0x80, 0x80, 0x08] = v) (hlt : v < 2 ^ 32) :
      (Token.u32 v).Spelled [low, 0x80, 0x80, 0x80, 0x08] :=
    (Leb128.unsigned_iff (by decide)).mpr
      ⟨.more hlow (.more (by decide) (.more (by decide) (.more (by decide) (.last (by decide))))), by simp, hv, hlt⟩
  have count : (Token.u32 n).Spelled spelled31 := by
    rw [← hn]
    exact five (by decide) (by simp [Leb128.value]) (by norm_num)
  have length : (Token.u32 (parametersContents n spelled31).length).Spelled [0x88, 0x80, 0x80, 0x80, 0x08] := by
    have extra : spelled31.length + 3 = 8 := rfl
    rw [parametersContents_length, extra, ← hn]
    exact five (by decide) (by simp [Leb128.value]) (by norm_num)
  refine ⟨?_, parameters_encoded count length, fun h => ?_⟩
  · constructor <;> simp [parameters, FuncType.Ok, ValueType.IsNumber]
  · have counted := ((load_counted h).2 _ List.mem_cons_self).1
    rw [List.length_replicate, hn] at counted
    exact Nat.lt_irrefl _ counted

end Format

end SpidirWasm.Wasm
