import SpidirWasm.Jit.LinkedImage

/-! The linked image of a module. The code part of the binary is right when no size wraps
around. The size of the constants doubles with every constant pool, so that it does wrap
around behind 60 of them, and the tables then lie in the code. -/

namespace SpidirWasm.Jit

open Checked
open Util (Hmap)
open Spidir (Word)
open Relation (ReflTransGen)
open Wasm (WasmModule FuncType Name)

/-- What the host promises of pages and of the memory for the binary. -/
structure JitHost.Ok (host : JitHost) : Prop where
  page : ∃ k, 4 ≤ k ∧ k ≤ 32 ∧ host.pageSize = 2 ^ k
  alloc : ∀ rxPageCount roPageCount binary, host.jitAlloc rxPageCount roPageCount = some binary →
    host.pageSize ∣ binary ∧ binary + (rxPageCount + roPageCount) * host.pageSize ≤ 2 ^ 64

/-- The linker for what was emitted, by the address of the binary; nothing here depends on
the capture. -/
def jitLinker (host : JitHost) (ctx : JitContext) (cg : Codegen) (binary : ℕ) : Linker :=
  { host, ctx, codegen := cg.pages host.pageSize, binary, captureDebug := false, maps := {} }

/-- The linked image: the ranges of the functions are aligned, inside of the code part, and
apart; each holds spidir's bytes with the fields of the relocations filled; the addresses of
exports, of the start function and in the slots of used tables are published ones. -/
structure LinkedImage (l : Linker) (jit : WasmModuleJit) : Prop where
  aligned : ∀ f ∈ l.codegen.functions, 16 ∣ l.entry f ∧ l.binary ≤ l.entry f ∧ l.entry f + f.blob.code.length ≤ l.rodata
  disjoint : l.codegen.functions.Pairwise fun f g => l.entry f + f.blob.code.length ≤ l.entry g
  code : ∀ f ∈ l.codegen.functions, Relocated l f f.blob.relocs jit.image
  exports : ∀ (i : ℕ) (e : Wasm.WasmExport), l.ctx.module.exports[i]? = some e → e.kind = .func →
    ∃ a, jit.exports[i]? = some (.func a) ∧ Addressed l jit.image e.index a
  start : 0 ≤ l.ctx.module.startFunc → ∃ a, jit.startFunc = some a ∧ Addressed l jit.image l.ctx.module.startFunc.toNat a
  slots : ∀ elem ∈ l.ctx.module.elems, SegmentFilled l jit.image elem

variable {host : JitHost} {emitter : Emitter} {ctx : JitContext} {cg : Codegen} {fuel : ℕ} {captureDebug : Bool}

/-- The tables behind the constant pools, and the map of the functions. -/
theorem codegenAll_placed (hglobals : ∀ (i : ℕ) (t : JitTable), ctx.tables[i]? = some t → t.global = i)
    (hlength : ctx.tables.length = ctx.module.tables.length) (hrun : codegenAll emitter ctx fuel {} = some ((), cg))
    (hrodata : tablesEnd (poolsEnd 0 (cg.functions.map FunctionCodegen.blob)) ctx.tables < 2 ^ 64) :
    TablesPlaced (poolsEnd 0 (cg.functions.map FunctionCodegen.blob)) ctx ctx.tables.length cg ∧
    (∀ f ∈ cg.functions, f.blob.constpool.length ≠ 0 →
      f.constpoolOffset + f.blob.constpool.length ≤ poolsEnd 0 (cg.functions.map FunctionCodegen.blob)) ∧
    ∀ id i, cg.funcToIdx.lookup id = some i → cg.functionAt i = some id := by
  obtain ⟨_, cg₁, hfunctions, htables⟩ := (bind_eq_some _ _ _ _).mp hrun
  have placed : Places emitter (jitCodegenFunctions emitter ctx fuel) := inferInstance
  have unwrapped : Unwrapped cg₁.layout := placed.keeps (fun _ _ hs h => hs.unwrapped h) hfunctions unwrapped_start
  obtain ⟨hemitted, -⟩ := jitCodegenFunctions_emitted hfunctions
  obtain ⟨rodataSize, globalOffsets, rfl⟩ := codegenTables_kept htables
  obtain ⟨hpools, hinside⟩ := unwrapped.pools ((le_tablesEnd _ _).trans_lt hrodata)
  have start : TablesPlaced (poolsEnd 0 (cg₁.functions.map FunctionCodegen.blob)) ctx 0 cg₁ := by
    have none : cg₁.globalOffsets = {} := unwrapped.tables
    exact ⟨none ▸ Hmap.empty_wf, hpools, fun j hj => absurd hj (Nat.not_lt_zero j)⟩
  refine ⟨codegenTables_placed start (by rw [Nat.zero_add, hlength]) hglobals hrodata htables, fun f hf hpool => ?_, fun id i hi => ?_⟩
  · exact (hinside f hf hpool).trans hpools.le
  · exact (hemitted.index id i).mp hi

/-- The code part, unless its size wrapped around. -/
theorem codegenAll_inside (hrun : codegenAll emitter ctx fuel {} = some ((), cg))
    (hcode : codeEnd 0 (cg.functions.map FunctionCodegen.blob) < 2 ^ 64) : cg.codeSize = codeEnd 0 (cg.functions.map FunctionCodegen.blob) ∧
      ∀ f ∈ cg.functions, 16 ∣ f.codeOffset ∧ f.codeOffset + f.blob.code.length ≤ cg.codeSize := by
  obtain ⟨_, cg₁, hfunctions, htables⟩ := (bind_eq_some _ _ _ _).mp hrun
  have placed : Places emitter (jitCodegenFunctions emitter ctx fuel) := inferInstance
  have inside : CodeInside cg₁.layout := placed.keeps (fun _ _ hs h => hs.inside h) hfunctions codeInside_start
  obtain ⟨rodataSize, globalOffsets, rfl⟩ := codegenTables_kept htables
  exact inside hcode

/-- The sizes and the maps behind the code generation. -/
theorem codegenAll_laid (hglobals : ∀ (i : ℕ) (t : JitTable), ctx.tables[i]? = some t → t.global = i)
    (hlength : ctx.tables.length = ctx.module.tables.length) (hrun : codegenAll emitter ctx fuel {} = some ((), cg))
    (hcode : codeEnd 0 (cg.functions.map FunctionCodegen.blob) < 2 ^ 32)
    (hrodata : tablesEnd (poolsEnd 0 (cg.functions.map FunctionCodegen.blob)) ctx.tables < 2 ^ 64) :
    CodeLaid 0 cg.functions ∧ cg.codeSize = codeEnd 0 (cg.functions.map FunctionCodegen.blob) ∧
    cg.rodataSize = tablesEnd (poolsEnd 0 (cg.functions.map FunctionCodegen.blob)) ctx.tables ∧
    (∀ f ∈ cg.functions, f.blob.constpool.length ≠ 0 → f.constpoolOffset + f.blob.constpool.length ≤ cg.rodataSize) ∧
    (∀ id i, cg.funcToIdx.lookup id = some i → cg.functionAt i = some id) ∧ TablesLaid ctx ctx.tables.length cg := by
  obtain ⟨htablesPlaced, hpools, hindex⟩ := codegenAll_placed hglobals hlength hrun hrodata
  have size : cg.rodataSize = tablesEnd (poolsEnd 0 (cg.functions.map FunctionCodegen.blob)) ctx.tables := by
    rw [htablesPlaced.size, List.take_length]
  obtain ⟨_, cg₁, hfunctions, htables⟩ := (bind_eq_some _ _ _ _).mp hrun
  have placed : Places emitter (jitCodegenFunctions emitter ctx fuel) := inferInstance
  have unwrapped : Unwrapped cg₁.layout := placed.keeps (fun _ _ hs h => hs.unwrapped h) hfunctions unwrapped_start
  obtain ⟨rodataSize, globalOffsets, rfl⟩ := codegenTables_kept htables
  obtain ⟨hlaid, hsize⟩ := unwrapped.code hcode
  refine ⟨hlaid, hsize, size, fun f hf hpool => ?_, hindex, htablesPlaced.laid⟩
  rw [size]
  exact (hpools f hf hpool).trans (le_tablesEnd _ _)

/-- The linker of a module is in order when no size wraps around. -/
theorem jitLinker_ok {binary : ℕ} (hhost : host.Ok) (hglobals : ∀ (i : ℕ) (t : JitTable), ctx.tables[i]? = some t → t.global = i)
    (hlength : ctx.tables.length = ctx.module.tables.length) (hrun : codegenAll emitter ctx fuel {} = some ((), cg))
    (hcode : codeEnd 0 (cg.functions.map FunctionCodegen.blob) < 2 ^ 32)
    (hrodata : alignUp (tablesEnd (poolsEnd 0 (cg.functions.map FunctionCodegen.blob)) ctx.tables) host.pageSize < 2 ^ 64)
    (halloc : host.jitAlloc ((cg.pages host.pageSize).codeSize / host.pageSize) ((cg.pages host.pageSize).rodataSize / host.pageSize) =
      some binary) : (jitLinker host ctx cg binary).Ok ∧ 16 ∣ binary := by
  obtain ⟨k, hk, hk', hpage⟩ := hhost.page
  have pos : 0 < host.pageSize := hpage ▸ Nat.two_pow_pos k
  have small : host.pageSize ≤ 2 ^ 32 := hpage ▸ Nat.pow_le_pow_right (by decide) hk'
  have sixteen : 16 ∣ host.pageSize := hpage ▸ (show 16 = 2 ^ 4 from rfl) ▸ Nat.pow_dvd_pow 2 hk
  have whole := le_alignUp (n := tablesEnd (poolsEnd 0 (cg.functions.map FunctionCodegen.blob)) ctx.tables) pos
  obtain ⟨hlaid, hcodeSize, hrodataSize, hpools, hindex, htables⟩ := codegenAll_laid hglobals hlength hrun hcode (by omega)
  have codeLt : alignUp cg.codeSize host.pageSize < cg.codeSize + host.pageSize := alignUp_lt pos
  have codeLe : cg.codeSize ≤ alignUp cg.codeSize host.pageSize := le_alignUp pos
  have codePages : (cg.pages host.pageSize).codeSize = alignUp cg.codeSize host.pageSize := sizeT_of_lt (by omega)
  have rodataPages : (cg.pages host.pageSize).rodataSize = alignUp cg.rodataSize host.pageSize := by
    refine sizeT_of_lt ?_
    rw [hrodataSize]
    exact hrodata
  have rodataLe : cg.rodataSize ≤ alignUp cg.rodataSize host.pageSize := le_alignUp pos
  obtain ⟨haligned, hfits⟩ := hhost.alloc _ _ _ halloc
  have sizes : ((cg.pages host.pageSize).codeSize / host.pageSize + (cg.pages host.pageSize).rodataSize / host.pageSize) * host.pageSize =
      alignUp cg.codeSize host.pageSize + alignUp cg.rodataSize host.pageSize := by
    rw [Nat.add_mul, codePages, rodataPages, Nat.div_mul_cancel (dvd_alignUp _ _), Nat.div_mul_cancel (dvd_alignUp _ _)]
  rw [sizes] at hfits
  refine ⟨⟨fun f hf => ?_, hlaid.pairwise, hindex, ?_, fun f hf hpool => ?_, fun i t ht hused offset hoffset => ?_⟩, sixteen.trans haligned⟩
  · obtain ⟨hdvd, hstart, hstop⟩ := hlaid.inside f hf
    refine ⟨hdvd, by omega, ?_⟩
    show f.codeOffset + f.blob.code.length ≤ (cg.pages host.pageSize).codeSize
    omega
  · show binary + (cg.pages host.pageSize).codeSize + (cg.pages host.pageSize).rodataSize ≤ 2 ^ 64
    omega
  · have := hpools f hf hpool
    show _ ≤ (cg.pages host.pageSize).rodataSize
    omega
  · obtain ⟨hlt, -⟩ := List.getElem?_eq_some_iff.mp ht
    obtain ⟨offset', hoffset', hdvd, hle⟩ := htables.slots i hlt t ht hused
    obtain rfl := Option.some.inj (hoffset.symm.trans hoffset')
    refine ⟨hdvd, ?_⟩
    show _ ≤ (cg.pages host.pageSize).rodataSize
    omega

/-- The stores behind the linker leave a function's code. -/
theorem fill_imageSteps {l : Linker} {image image' : Memory UInt8} (hrun : ReflTransGen (FillStep l) image image') :
    ReflTransGen (ImageStep l none) image image' := by
  induction hrun with
  | refl => exact .refl
  | tail _ hs ih => exact ih.tail hs.imageStep

/-- The functions of a linker are different. -/
theorem Linker.Ok.pairwise_ne {l : Linker} (h : l.Ok) : l.codegen.functions.Pairwise (· ≠ ·) := by
  apply h.apart.imp
  rintro f _ hgap rfl
  omega

/-- What a linker whose sizes are right leaves in the binary. -/
theorem linker_image {l : Linker} {image : Memory UInt8} {exports : List JitExport} {start : Option ℕ} {s t u : Linked} (h : l.Ok)
    (hbinary : 16 ∣ l.binary) (hfields : ∀ f ∈ l.codegen.functions, f.blob.relocs.Pairwise FieldsApart)
    (hlink : jitCodegenLink l { image } = some ((), s)) (hfunctions : jitCodegenFillFunctions l s = some ((exports, start), t))
    (htables : jitCodegenFillTables l t = some ((), u)) (jit : WasmModuleJit) (himage : jit.image = u.image)
    (hexports : jit.exports = exports) (hstart : jit.startFunc = start) : LinkedImage l jit := by
  obtain ⟨hlinked, -⟩ := linkFunctions_relocated h (fun _ hf => hf) h.pairwise_ne hfields hlink
  obtain ⟨hes, hentry, hsteps⟩ := jitCodegenFillFunctions_eq_some h hfunctions
  obtain ⟨hfill, hsegments⟩ := fillElems_eq_some h (fun _ he => he) htables
  have hsteps' := fill_imageSteps hfill
  have later : ReflTransGen (ImageStep l none) s.image u.image := hsteps.trans hsteps'
  refine ⟨fun f hf => ?_, ?_, fun f hf => ?_, fun i e he hkind => ?_, fun hs => ?_, fun elem helem => ?_⟩
  · obtain ⟨hdvd, -⟩ := h.inside f hf
    obtain ⟨hlow, hhigh⟩ := h.code hf
    exact ⟨Nat.dvd_add hbinary hdvd, by omega, hhigh⟩
  · apply h.apart.imp
    intro f g hgap
    simp only [Linker.entry]
    omega
  · rw [himage]
    exact (hlinked f hf).kept later h hf (by simp)
  · obtain ⟨a, hx, ha⟩ := hes i e he hkind
    rw [himage, hexports]
    exact ⟨a, hx, ha.kept hsteps' h⟩
  · obtain ⟨a, hx, ha⟩ := hentry hs
    rw [himage, hstart]
    exact ⟨a, hx, ha.kept hsteps' h⟩
  · rw [himage]
    exact hsegments elem helem

/-- The capture does not show in the linked image. -/
theorem LinkedImage.capture {l : Linker} {jit : WasmModuleJit} (h : LinkedImage l jit) (captureDebug : Bool) (maps : DebugMaps) :
    LinkedImage { l with captureDebug, maps } jit :=
  ⟨h.aligned, h.disjoint, fun f hf => ⟨(h.code f hf).fields, (h.code f hf).rest⟩, h.exports, h.start, h.slots⟩

/-- The emission of a module, a code generation whose code stays below 4 GiB and whose
constants and tables do not wrap around, and relocations whose fields are apart: at the end of
a successful run the binary is the linked image. -/
theorem linked_image {m : WasmModule} {resolveImport : Option Name → Option Name → FuncType → Option ℕ} {c ctx : JitContext}
    {stateSize fuel' : ℕ} {built : List ℕ} {jit : WasmModuleJit} (hhost : host.Ok)
    (hprepare : jitPrepareState (startContext m resolveImport) = some (c, stateSize)) (hemit : jitEmitSpidir fuel' c = some (built, ctx))
    (hjit : jitCodegen host emitter captureDebug fuel ctx = some jit) (hcodegen : codegenAll emitter ctx fuel {} = some ((), cg))
    (hcode : codeEnd 0 (cg.functions.map FunctionCodegen.blob) < 2 ^ 32)
    (hfields : ∀ f ∈ cg.functions, f.blob.relocs.Pairwise FieldsApart)
    (hrodata : alignUp (tablesEnd (poolsEnd 0 (cg.functions.map FunctionCodegen.blob)) ctx.tables) host.pageSize < 2 ^ 64) :
    LinkedImage (jitLinker host ctx cg jit.binary) jit := by
  obtain ⟨hstart, hmodule, -, hnone, hcount⟩ := emission_start hprepare
  obtain ⟨-, hkept, -, -, -, hlength, hglobals⟩ := jitEmitSpidir_emission hstart hemit
  have globals : ∀ (i : ℕ) (t : JitTable), ctx.tables[i]? = some t → t.global = i := fun i t ht => by
    have := hglobals (by rw [hcount, hmodule]) i t ht
    rwa [hnone, Nat.zero_add] at this
  have tables : ctx.tables.length = ctx.module.tables.length := by rw [hlength, hcount, hkept, hmodule]
  simp only [jitCodegen, Option.bind_eq_bind, Option.pure_def, Option.bind_eq_some_iff, Option.some.injEq] at hjit
  obtain ⟨maps, -, ⟨_, cg'⟩, hcg, binary, halloc, ⟨_, s⟩, hlink, ⟨⟨exports, start⟩, t⟩, hfunctions, ⟨_, u⟩, htables, _, -, rfl⟩ := hjit
  obtain rfl : cg = cg' := (Prod.mk.inj (Option.some.inj (hcodegen.symm.trans hcg))).2
  obtain ⟨ok, hbinary⟩ := jitLinker_ok hhost globals tables hcodegen hcode hrodata halloc
  have linked : Linker.Ok { jitLinker host ctx cg binary with captureDebug, maps } := ⟨ok.inside, ok.apart, ok.index, ok.fits, ok.pools, ok.tables⟩
  exact (linker_image linked hbinary hfields hlink hfunctions htables _ rfl rfl rfl).capture false {}

/-- A host with room for 8 GiB. -/
def sampleHost : JitHost where
  pageSize := 4096
  jitAlloc rxPageCount roPageCount := if rxPageCount + roPageCount ≤ 2 ^ 21 then some 0x7F0000000000 else none
  jitLock _ _ _ := true
  helperAddress _ := 0x1000
  resolveLibcall _ := none

theorem sampleHost_ok : sampleHost.Ok := by
  refine ⟨⟨12, by decide, by decide, rfl⟩, fun rxPageCount roPageCount binary halloc => ?_⟩
  simp only [sampleHost, Option.ite_none_right_eq_some] at halloc ⊢
  obtain ⟨hroom, he⟩ := halloc
  obtain rfl := Option.some.inj he
  exact ⟨by decide, by omega⟩

/-- Code for `recursiveModule`: the function calls itself, and the thunks jump to it. -/
def recursiveEmitter : Emitter
  | 0 => some { code := [0xE8, 0, 0, 0, 0, 0xC3], relocs := [{ offset := 1, addend := -4, kind := .pc32, target := .internal 0 }] }
  | _ => some {
    code := [0x48, 0xB8, 0, 0, 0, 0, 0, 0, 0, 0, 0xFF, 0xE0]
    relocs := [{ offset := 2, addend := 0, kind := .abs64, target := .internal 0 }] }

theorem linked_image_recursive : ∃ ctx cg jit, jitEmitSpidir 2 (startContext recursiveModule fun _ _ _ => none) = some ([1, 2, 0], ctx) ∧
    jitCodegen sampleHost recursiveEmitter true 10 ctx = some jit ∧ cg.functions.length = 2 ∧
    LinkedImage (jitLinker sampleHost ctx cg jit.binary) jit := by
  have run : ((jitEmitSpidir 2 (startContext recursiveModule fun _ _ _ => none)).bind fun r =>
      (codegenAll recursiveEmitter r.2 10 {}).bind fun g => (jitCodegen sampleHost recursiveEmitter true 10 r.2).map fun _ =>
        (r.1, g.2.functions.length, decide (codeEnd 0 (g.2.functions.map FunctionCodegen.blob) < 2 ^ 32),
          decide (∀ f ∈ g.2.functions, f.blob.relocs.Pairwise FieldsApart),
          decide (alignUp (tablesEnd (poolsEnd 0 (g.2.functions.map FunctionCodegen.blob)) r.2.tables) sampleHost.pageSize < 2 ^ 64))) =
      some ([1, 2, 0], 2, true, true, true) := by decide +kernel
  obtain ⟨⟨built, ctx⟩, hemit, run⟩ := Option.bind_eq_some_iff.mp run
  obtain ⟨⟨_, cg⟩, hcodegen, run⟩ := Option.bind_eq_some_iff.mp run
  obtain ⟨jit, hjit, run⟩ := Option.map_eq_some_iff.mp run
  simp only [Prod.mk.injEq, decide_eq_true_eq] at run
  obtain ⟨rfl, hcount, hcode, hfields, hrodata⟩ := run
  have prepared : jitPrepareState (startContext recursiveModule fun _ _ _ => none) =
      some (startContext recursiveModule fun _ _ _ => none, 0) := rfl
  exact ⟨ctx, cg, jit, hemit, hjit, hcount, linked_image sampleHost_ok prepared hemit hjit hcodegen hcode hfields hrodata⟩

/-- 61 functions, the first of which calls through a table. -/
def wrapModule : WasmModule where
  types := [{}]
  functions := List.replicate 61 0
  exports := (List.range 61).map fun i => { kind := .func, index := i }
  tables := [{ min := 2 ^ 29 + 1, max := 2 ^ 32 - 1 }]
  elems := [{ funcs := [0] }]
  code := some ([0, 0x41, 0, 0x11, 0, 0, 0x0B] :: List.replicate 60 [0, 0x0B])

/-- A constant pool of 8 bytes for each function; the last function fills its page. -/
def wrapEmitter : Emitter := fun id => some {
  code := if id = 60 then List.replicate 2128 0x90 else [0xC3]
  constpool := List.replicate 8 0
  constpoolAlign := 8 }

/-- The size of the constants wraps around to -8, and the first slot of the table is stored
over the last 8 bytes of code. -/
theorem linked_image_wraps : ∃ built ctx cg jit, jitEmitSpidir 100 (startContext wrapModule fun _ _ _ => none) = some (built, ctx) ∧
    jitCodegen sampleHost wrapEmitter false 100 ctx = some jit ∧ codegenAll wrapEmitter ctx 100 {} = some ((), cg) ∧
    codeEnd 0 (cg.functions.map FunctionCodegen.blob) = 4096 ∧ (∀ f ∈ cg.functions, f.blob.relocs = []) ∧
    ¬LinkedImage (jitLinker sampleHost ctx cg jit.binary) jit := by
  have run : ((jitEmitSpidir 100 (startContext wrapModule fun _ _ _ => none)).bind fun r =>
      (codegenAll wrapEmitter r.2 100 {}).bind fun g => (jitCodegen sampleHost wrapEmitter false 100 r.2).bind fun jit =>
        (g.2.functions.find? fun f => f.function = 60).map fun f =>
          (codeEnd 0 (g.2.functions.map FunctionCodegen.blob), decide (∀ f ∈ g.2.functions, f.blob.relocs = []),
            f.blob.code[2127]?, jit.image (jit.binary + f.codeOffset + 2127))) = some (4096, true, some 0x90, some 0) := by decide +kernel
  obtain ⟨⟨built, ctx⟩, hemit, run⟩ := Option.bind_eq_some_iff.mp run
  obtain ⟨⟨_, cg⟩, hcodegen, run⟩ := Option.bind_eq_some_iff.mp run
  obtain ⟨jit, hjit, run⟩ := Option.bind_eq_some_iff.mp run
  obtain ⟨f, hfind, run⟩ := Option.map_eq_some_iff.mp run
  simp only [Prod.mk.injEq, decide_eq_true_eq] at run
  obtain ⟨hcode, hrelocs, hbyte, himage⟩ := run
  have hf := List.mem_of_find?_eq_some hfind
  refine ⟨built, ctx, cg, jit, hemit, hjit, hcodegen, hcode, hrelocs, fun linked => ?_⟩
  have kept := (linked.code f hf).rest 2127 (List.getElem?_eq_some_iff.mp hbyte).1 (by simp [hrelocs f hf])
  have wrong := himage.symm.trans (kept.trans hbyte)
  exact absurd wrong (by decide)

end SpidirWasm.Jit
