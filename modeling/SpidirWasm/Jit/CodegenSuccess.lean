import SpidirWasm.Jit.LinkLookups
import SpidirWasm.Wasm.Valid

/-! When a module gets a binary. Up to what spidir and the host refuse, that is where the
segments fit: everything that is looked up on the way is there, and what is stored lies in the
binary. -/

namespace SpidirWasm.Jit

open Checked
open Util (Hmap)
open Wasm (ElemSegment WasmModule FuncType Name)

/-- What lies in the binary. -/
def RelocTarget.Near : RelocTarget → Prop
  | .external _ | .libcall _ => False
  | _ => True

/-- A relocation that can be applied: its field lies in the code, and a PC-relative one refers to the binary, to its constants
or to the start of something. -/
structure Reloc.Sound (host : JitHost) (blob : Blob) (r : Reloc) : Prop where
  field : r.offset + r.kind.size ≤ blob.code.length
  libcall : ∀ kind, r.target = .libcall kind → (host.resolveLibcall kind).isSome
  pool : r.target = .constpool → blob.constpool.length ≠ 0
  near : r.kind = .pc32 → r.target.Near ∧ -2 ^ 16 ≤ r.addend ∧ r.addend ≤ if r.target = .constpool then blob.constpool.length else 0

/-- Spidir emits every graph, and what it emits refers to what the graph refers to. -/
structure SpidirOk (host : JitHost) (emitter : Emitter) (spidir : SpidirModule) : Prop where
  emits : EmitsAll emitter spidir
  compiles : Compiles emitter spidir
  sound : ∀ id body blob, spidir.bodies id = some body → emitter id = some blob → ∀ r ∈ blob.relocs, r.Sound host blob

/-- The host has memory for binaries up to 2 GiB. -/
structure JitHost.Roomy (host : JitHost) : Prop extends host.Ok where
  allocates : ∀ rxPageCount roPageCount, (rxPageCount + roPageCount) * host.pageSize ≤ 2 ^ 31 → (host.jitAlloc rxPageCount roPageCount).isSome
  locks : ∀ binary rxPageCount roPageCount, host.jitLock binary rxPageCount roPageCount = true

/-- The size of the binary, in whole pages. -/
def binarySize (host : JitHost) (ctx : JitContext) (cg : Codegen) : ℕ :=
  alignUp (codeEnd 0 (cg.functions.map FunctionCodegen.blob)) host.pageSize +
    alignUp (tablesEnd (poolsEnd 0 (cg.functions.map FunctionCodegen.blob)) ctx.tables) host.pageSize

variable {host : JitHost} {emitter : Emitter} {ctx : JitContext} {cg : Codegen} {fuel : ℕ} {l : Linker} {f : FunctionCodegen} {r : Reloc}

/-! ### PC-relative fields -/

/-- Nothing in the binary is too far. -/
theorem reach {x : ℕ} (h : l.Ok) (hf : f ∈ l.codegen.functions) (hsize : l.codegen.codeSize + l.codegen.rodataSize + 2 ^ 16 ≤ 2 ^ 31)
    (hfield : r.offset ≤ f.blob.code.length) (hlow : l.binary ≤ x) (haddend : -2 ^ 16 ≤ r.addend)
    (hhigh : x + r.addend ≤ (l.rodata + l.codegen.rodataSize : ℕ)) :
    -2 ^ 31 ≤ (x + r.addend - (l.entry f + r.offset : ℕ) : ℤ).bmod (2 ^ 64) ∧
    (x + r.addend - (l.entry f + r.offset : ℕ) : ℤ).bmod (2 ^ 64) ≤ 2 ^ 31 - 1 := by
  obtain ⟨-, hstop⟩ := h.code hf
  have start : l.binary ≤ l.entry f := Nat.le_add_right _ _
  have rodata : l.rodata = l.binary + l.codegen.codeSize := rfl
  have reaches : (x + r.addend - (l.entry f + r.offset : ℕ) : ℤ).bmod (2 ^ 64) = x + r.addend - (l.entry f + r.offset : ℕ) :=
    Int.bmod_eq_of_le (by omega) (by omega)
  rw [reaches]
  omega

theorem Reloc.Sound.near_reach {target : ℕ} (hs : r.Sound l.host f.blob) (h : l.Ok) (hf : f ∈ l.codegen.functions)
    (hsize : l.codegen.codeSize + l.codegen.rodataSize + 2 ^ 16 ≤ 2 ^ 31) (hin : r.target.In l.ctx.spidir) (hctx : l.ctx.Complete)
    (hkind : r.kind = .pc32) (htarget : Resolves l f r target) :
    -2 ^ 31 ≤ (target + r.addend - (l.entry f + r.offset : ℕ) : ℤ).bmod (2 ^ 64) ∧
    (target + r.addend - (l.entry f + r.offset : ℕ) : ℤ).bmod (2 ^ 64) ≤ 2 ^ 31 - 1 := by
  obtain ⟨hnear, hlow, hhigh⟩ := hs.near hkind
  have field := (Nat.le_add_right _ _).trans hs.field
  have rodata : l.rodata = l.binary + l.codegen.codeSize := rfl
  have behind {x : ℕ} (hx : l.binary ≤ x) (hstop : x + r.addend ≤ (l.rodata + l.codegen.rodataSize : ℕ)) :=
    reach h hf hsize field hx hlow hstop
  rw [Resolves] at htarget
  cases hrt : r.target with
  | constpool =>
    simp only [hrt] at htarget hhigh
    rw [if_pos trivial] at hhigh
    have pool := h.pools f hf (hs.pool hrt)
    subst htarget
    exact behind (by omega) (by push_cast; omega)
  | global id =>
    simp only [hrt] at htarget hhigh hin
    rw [if_neg (by simp)] at hhigh
    obtain ⟨offset, hoffset, rfl⟩ := htarget
    obtain ⟨t, ht, hused, rfl⟩ : l.ctx.Addressable id := hctx.provides _ hin
    obtain ⟨i, hi⟩ := List.mem_iff_getElem?.mp ht
    have stop := (h.tables i t hi hused offset hoffset).2
    have wraps : ((sizeT (l.rodata + offset) : ℕ) + r.addend - (l.entry f + r.offset : ℕ) : ℤ).bmod (2 ^ 64) =
        ((l.rodata + offset : ℕ) + r.addend - (l.entry f + r.offset : ℕ) : ℤ).bmod (2 ^ 64) := by
      rw [sizeT, Int.natCast_mod, add_sub_assoc, add_sub_assoc]
      exact Int.emod_add_bmod _ _
    rw [wraps]
    exact behind (by omega) (by push_cast; omega)
  | internal id =>
    simp only [hrt, hkind] at htarget hhigh
    rw [if_neg (by simp)] at hhigh
    obtain ⟨g, hg, -, rfl⟩ := htarget
    rw [if_neg (by simp)]
    obtain ⟨-, hstop⟩ := h.code hg
    exact behind (Nat.le_add_right _ _) (by omega)
  | external id =>
    rw [hrt] at hnear
    exact hnear.elim
  | libcall kind =>
    rw [hrt] at hnear
    exact hnear.elim

/-! ### The linker -/

/-- A linker for what was emitted, with all that it looks up. -/
structure Linker.Supplied (l : Linker) (host : JitHost) (emitter : Emitter) (ctx : JitContext) (cg : Codegen) : Prop extends l.Ok where
  hosted : l.host = host
  context : l.ctx = ctx
  paged : l.codegen = cg.pages host.pageSize
  complete : ctx.Complete
  emitted : SpidirOk host emitter ctx.spidir
  links : cg.Links emitter ctx
  slots : OfSlots ctx cg
  laid : TablesLaid ctx ctx.tables.length cg
  owns : ∀ id ∈ ctx.slotIds, l.Owns id

namespace Linker.Supplied

theorem link (h : l.Supplied host emitter ctx cg) (hsize : l.codegen.codeSize + l.codegen.rodataSize + 2 ^ 16 ≤ 2 ^ 31) :
    Succeeds (jitCodegenLink l) := by
  have functions : l.codegen.functions = cg.functions := by
    rw [h.paged]
    rfl
  refine jitCodegenLink_succeeds h.toOk (fun f hf => h.owns _ (h.slots.placed f (functions ▸ hf))) fun f hf r hr => ?_
  have placed : f ∈ cg.functions := functions ▸ hf
  have slot := h.slots.placed f placed
  have blob := h.links.blobs f placed
  obtain ⟨body, hbody⟩ := h.complete.body slot
  have sound : r.Sound l.host f.blob := h.hosted ▸ h.emitted.sound _ body _ hbody blob r hr
  have target := h.emitted.compiles _ body _ hbody blob r hr
  have complete : l.ctx.Complete := h.context ▸ h.complete
  refine ⟨⟨?_, sound.field, fun hkind address haddress => ?_⟩, fun id hid => ?_⟩
  · exact h.links.knows h.complete h.laid h.context h.paged placed hr target sound.libcall
  · exact sound.near_reach h.toOk hf hsize (h.context ▸ target) complete hkind haddress
  · exact h.owns id (h.complete.target h.emitted.compiles slot blob hr hid)

theorem addresses (h : l.Supplied host emitter ctx cg) {funcidx : ℕ} (hprepared : ctx.IsPrepared funcidx)
    (hlooks : ∀ f, ctx.functions[funcidx]? = some f → f.spidir.external = false → cg.LooksUp ctx f.spidir.id) : l.Addresses funcidx := by
  obtain ⟨f, hf, hinit⟩ := hprepared
  refine ⟨f, h.context ▸ hf, hinit, fun hext => ?_⟩
  rw [Linker.Knows, h.paged]
  exact h.links.index _ (h.links.visited _ (hlooks f hf hext))

theorem fillFunctions (h : l.Supplied host emitter ctx cg) (hvalid : ctx.module.Valid) : Succeeds (jitCodegenFillFunctions l) := by
  have exports : Succeeds (fillExports l l.ctx.module.exports) := by
    rw [h.context]
    refine fillExports_succeeds h.toOk (fun e he => (hvalid.exports e he).kind) (fun e he hkind => ?_) fun e he hkind => ?_
    · exact h.addresses (h.complete.exported e he hkind) fun f hf hext => .exported he hkind hf hext
    · rw [h.context, h.complete.globalCount]
      exact (hvalid.exports e he).global hkind
  refine jitCodegenFillFunctions_succeeds h.toOk exports fun hstart => ?_
  rw [h.context] at hstart ⊢
  exact h.addresses (h.complete.started hstart) fun f hf hext => .start hstart hf hext

theorem fillTables (h : l.Supplied host emitter ctx cg) (hfits : ∀ elem ∈ ctx.module.elems, SegmentFits ctx elem) :
    Succeeds (jitCodegenFillTables l) := by
  refine .forMem fun elem helem => ?_
  rw [h.context] at helem
  refine fillElem_succeeds h.toOk (h.context ▸ hfits elem helem) (h.context ▸ h.complete.tableCount) (fun i t ht hused => ?_) fun j hj => ?_
  · rw [h.context] at ht
    obtain ⟨offset, hoffset, -⟩ := h.laid.slots i (List.getElem?_eq_some_iff.mp ht).1 t ht hused
    rw [h.paged, Codegen.pages, hoffset]
    rfl
  · obtain ⟨f, hf, hcfi⟩ := h.complete.listed elem helem j hj
    refine ⟨f, h.context ▸ hf, hcfi, ?_⟩
    rw [Linker.Knows, h.paged]
    exact h.links.index _ (h.links.visited _ (.slot helem hj hf))

end Linker.Supplied

/-! ### A module -/

/-- The binary can be had, and its linker is supplied. -/
theorem jitLinker_supplied {maps : DebugMaps} (hhost : host.Roomy) (hctx : ctx.Complete) (hspidir : SpidirOk host emitter ctx.spidir)
    (hrun : codegenAll emitter ctx fuel {} = some ((), cg)) (hready : Ready ctx cg) (hroom : binarySize host ctx cg + 2 ^ 16 ≤ 2 ^ 31)
    (captureDebug : Bool) (howns : ∀ l : Linker, l.captureDebug = captureDebug → l.maps = maps → ∀ id ∈ ctx.slotIds, l.Owns id) :
    ∃ binary, host.jitAlloc ((cg.pages host.pageSize).codeSize / host.pageSize) ((cg.pages host.pageSize).rodataSize / host.pageSize) = some binary ∧
      Linker.Supplied ⟨host, ctx, cg.pages host.pageSize, binary, captureDebug, maps⟩ host emitter ctx cg ∧
      (cg.pages host.pageSize).codeSize + (cg.pages host.pageSize).rodataSize + 2 ^ 16 ≤ 2 ^ 31 := by
  obtain ⟨k, hk, hk', hpage⟩ := hhost.page
  have pos : 0 < host.pageSize := hpage ▸ Nat.two_pow_pos k
  have codeLe := le_alignUp (n := codeEnd 0 (cg.functions.map FunctionCodegen.blob)) pos
  have rodataLe := le_alignUp (n := tablesEnd (poolsEnd 0 (cg.functions.map FunctionCodegen.blob)) ctx.tables) pos
  rw [binarySize] at hroom
  obtain ⟨-, hcodeSize, hrodataSize, -, -, laid⟩ := codegenAll_laid hctx.tableIds hctx.tableCount hrun (by omega) (by omega)
  have codePages : (cg.pages host.pageSize).codeSize = alignUp (codeEnd 0 (cg.functions.map FunctionCodegen.blob)) host.pageSize := by
    show sizeT (alignUp cg.codeSize host.pageSize) = _
    rw [hcodeSize]
    exact sizeT_of_lt (by omega)
  have rodataPages : (cg.pages host.pageSize).rodataSize =
      alignUp (tablesEnd (poolsEnd 0 (cg.functions.map FunctionCodegen.blob)) ctx.tables) host.pageSize := by
    show sizeT (alignUp cg.rodataSize host.pageSize) = _
    rw [hrodataSize]
    exact sizeT_of_lt (by omega)
  have size : ((cg.pages host.pageSize).codeSize / host.pageSize + (cg.pages host.pageSize).rodataSize / host.pageSize) * host.pageSize ≤
      2 ^ 31 := by
    rw [Nat.add_mul, codePages, rodataPages, Nat.div_mul_cancel (dvd_alignUp _ _), Nat.div_mul_cancel (dvd_alignUp _ _)]
    omega
  obtain ⟨binary, halloc⟩ := Option.isSome_iff_exists.mp (hhost.allocates _ _ size)
  obtain ⟨ok, -⟩ := jitLinker_ok hhost.toOk hctx.tableIds hctx.tableCount hrun (by omega) (by omega) halloc
  refine ⟨binary, halloc, ⟨⟨ok.inside, ok.apart, ok.index, ok.fits, ok.pools, ok.tables⟩, rfl, rfl, rfl, hctx, hspidir,
    codegenAll_links hctx hrun, hready.toOfSlots, laid, howns _ rfl rfl⟩, ?_⟩
  rw [codePages, rodataPages]
  omega

/-- Behind the code generation, it is the segments that decide. -/
theorem jitCodegen_isSome_iff (hhost : host.Roomy) (hctx : ctx.Complete) (hvalid : ctx.module.Valid) (hspidir : SpidirOk host emitter ctx.spidir)
    (hfit : ctx.MapsFit) (hrun : codegenAll emitter ctx fuel {} = some ((), cg)) (hready : Ready ctx cg)
    (hroom : binarySize host ctx cg + 2 ^ 16 ≤ 2 ^ 31) (captureDebug : Bool) :
    (jitCodegen host emitter captureDebug fuel ctx).isSome ↔ ∀ elem ∈ ctx.module.elems, SegmentFits ctx elem := by
  constructor
  · intro hsome elem helem
    obtain ⟨jit, hjit⟩ := Option.isSome_iff_exists.mp hsome
    simp only [jitCodegen, Option.bind_eq_bind, Option.pure_def, Option.bind_eq_some_iff, Option.some.injEq] at hjit
    obtain ⟨maps, -, ⟨_, cg'⟩, -, binary, -, ⟨_, s⟩, -, ⟨⟨exports, start⟩, t⟩, -, ⟨_, u⟩, htables, -⟩ := hjit
    exact jitCodegenFillTables_fits htables helem
  · intro hfits
    obtain ⟨maps, hmaps, howns⟩ := captureMaps_owns hctx hfit captureDebug
    obtain ⟨binary, halloc, supplied, hsize⟩ := jitLinker_supplied hhost hctx hspidir hrun hready hroom captureDebug howns
    obtain ⟨_, s, hlink, -⟩ := supplied.link hsize _ trivial
    obtain ⟨⟨exports, start⟩, t, hfunctions, -⟩ := supplied.fillFunctions hvalid s trivial
    obtain ⟨_, u, htables, -⟩ := supplied.fillTables hfits t trivial
    rw [Option.isSome_iff_exists]
    simp only [jitCodegen, Option.bind_eq_bind, Option.pure_def, Option.bind_eq_some_iff, Option.some.injEq]
    exact ⟨_, maps, hmaps, ⟨(), cg⟩, hrun, binary, halloc, ⟨_, s⟩, hlink, ⟨(exports, start), t⟩, hfunctions, ⟨_, u⟩, htables, (),
      by rw [hhost.locks]; rfl, rfl⟩

/-- More fuel changes nothing. -/
theorem codegenQueue_more {fuel' : ℕ} {r : Unit × Codegen} (h : codegenQueue emitter fuel cg = some r) (hle : fuel ≤ fuel') :
    codegenQueue emitter fuel' cg = some r := by
  induction fuel generalizing cg fuel' with
  | zero => cases h
  | succ fuel ih =>
    obtain ⟨k, rfl⟩ : ∃ k, fuel' = k + 1 := ⟨fuel' - 1, by omega⟩
    rw [codegenQueue, read_bind] at h ⊢
    cases hqueue : cg.queue with
    | nil =>
      rw [hqueue] at h
      exact h
    | cons function queue =>
      simp only [hqueue, update_bind] at h ⊢
      obtain ⟨_, cg₁, hfirst, hrest⟩ := (bind_eq_some _ _ _ _).mp h
      exact (bind_eq_some _ _ _ _).mpr ⟨(), cg₁, hfirst, ih hrest (by omega)⟩

theorem codegenAll_more {fuel' : ℕ} {r : Unit × Codegen} (h : codegenAll emitter ctx fuel {} = some r) (hle : fuel ≤ fuel') :
    codegenAll emitter ctx fuel' {} = some r := by
  obtain ⟨_, cg₁, hfunctions, htables⟩ := (bind_eq_some _ _ _ _).mp h
  refine (bind_eq_some _ _ _ _).mpr ⟨(), cg₁, ?_, htables⟩
  rw [jitCodegenFunctions] at hfunctions ⊢
  obtain ⟨_, s, hexports, hrun⟩ := (bind_eq_some _ _ _ _).mp hfunctions
  obtain ⟨_, t, himports, hrun⟩ := (bind_eq_some _ _ _ _).mp hrun
  obtain ⟨_, u, helems, hrun⟩ := (bind_eq_some _ _ _ _).mp hrun
  refine (bind_eq_some _ _ _ _).mpr ⟨(), s, hexports, (bind_eq_some _ _ _ _).mpr ⟨(), t, himports, (bind_eq_some _ _ _ _).mpr ⟨(), u, helems, ?_⟩⟩⟩
  split_ifs at hrun ⊢
  · obtain ⟨_, v, hstart, hqueue⟩ := (bind_eq_some _ _ _ _).mp hrun
    exact (bind_eq_some _ _ _ _).mpr ⟨(), v, hstart, codegenQueue_more hqueue hle⟩
  · exact codegenQueue_more hrun hle

/-- Whatever is laid out fits below 2 GiB. -/
def RoomFor (host : JitHost) (emitter : Emitter) (ctx : JitContext) : Prop :=
  ∀ fuel cg, codegenAll emitter ctx fuel {} = some ((), cg) → binarySize host ctx cg + 2 ^ 16 ≤ 2 ^ 31

/-- A module that was loaded and emitted gets a binary, up to what spidir and the host refuse, just if every function import was
prepared and every segment fits. -/
theorem code_generation_succeeds {data : List UInt8} {m : WasmModule} {resolveImport : Option Wasm.Name → Option Wasm.Name → FuncType → Option ℕ}
    {c : JitContext} {stateSize fuel' : ℕ} {built : List ℕ} (hload : Wasm.wasmLoadModule data = some m)
    (hprepare : jitPrepareState (startContext m resolveImport) = some (c, stateSize)) (hemit : jitEmitSpidir fuel' c = some (built, ctx))
    (hhost : host.Roomy) (hspidir : SpidirOk host emitter ctx.spidir) (hfit : ctx.MapsFit) (hroom : RoomFor host emitter ctx) (captureDebug : Bool) :
    (∃ n, ∀ fuel, n ≤ fuel → (jitCodegen host emitter captureDebug fuel ctx).isSome) ↔
      ctx.ImportsPrepared ∧ ∀ elem ∈ m.elems, SegmentFits ctx elem := by
  obtain ⟨loader, hloader, rfl, -⟩ := Wasm.wasmLoadModule_staged hload
  obtain ⟨hctx, hmodule⟩ := jitEmitSpidir_complete hprepare hemit
  have hvalid : ctx.module.Valid := hmodule ▸ hloader.toValid
  rw [← hmodule]
  constructor
  · rintro ⟨n, hn⟩
    obtain ⟨jit, hjit⟩ := Option.isSome_iff_exists.mp (hn n le_rfl)
    simp only [jitCodegen, Option.bind_eq_bind, Option.pure_def, Option.bind_eq_some_iff, Option.some.injEq] at hjit
    obtain ⟨maps, -, ⟨_, cg⟩, hrun, binary, -, ⟨_, s⟩, -, ⟨⟨exports, start⟩, t⟩, -, ⟨_, u⟩, htables, -⟩ := hjit
    exact ⟨(codegenAll_links hctx hrun).prepared, fun elem helem => jitCodegenFillTables_fits htables helem⟩
  · rintro ⟨himports, hfits⟩
    obtain ⟨n, hn⟩ := codegenAll_ready hctx hspidir.compiles hspidir.emits hfit himports
    refine ⟨n, fun fuel hfuel => ?_⟩
    obtain ⟨cg, hrun, hready⟩ := hn fuel hfuel
    exact (jitCodegen_isSome_iff hhost hctx hvalid hspidir hfit hrun hready (hroom fuel cg hrun) captureDebug).mpr hfits

/-- A function that calls an import, and itself through a table. -/
def listedModule : List UInt8 :=
  [0x00, 0x61, 0x73, 0x6D, 0x01, 0x00, 0x00, 0x00, 0x01, 0x04, 0x01, 0x60, 0x00, 0x00, 0x02, 0x07, 0x01, 0x01, 0x6D, 0x01, 0x66, 0x00, 0x00,
    0x03, 0x02, 0x01, 0x00, 0x04, 0x05, 0x01, 0x70, 0x01, 0x01, 0x01, 0x07, 0x05, 0x01, 0x01, 0x67, 0x00, 0x01,
    0x09, 0x08, 0x01, 0x00, 0x41, 0x00, 0x0B, 0x01, 0x81, 0x00, 0x0A, 0x0B, 0x01, 0x09, 0x00, 0x10, 0x00, 0x41, 0x00, 0x11, 0x00, 0x00, 0x0B]

/-- The function calls the import and the trap helper and takes the address of the table, its thunk refers to the function. -/
def listedEmitter : Emitter
  | 0 => some {
    code := List.replicate 32 0x90
    relocs := [{ offset := 2, kind := .abs64, target := .external 1 }, { offset := 12, addend := -4, kind := .pc32, target := .global 0 },
      { offset := 18, kind := .abs64, target := .external 0 }] }
  | _ => some { code := List.replicate 16 0x90, relocs := [{ offset := 1, addend := -4, kind := .pc32, target := .internal 0 }] }

theorem sampleHost_roomy : sampleHost.Roomy where
  toOk := sampleHost_ok
  allocates rxPageCount roPageCount h := by
    have room : rxPageCount + roPageCount ≤ 2 ^ 21 := by
      simp only [sampleHost] at h
      omega
    show (if rxPageCount + roPageCount ≤ 2 ^ 21 then some 0x7F0000000000 else none : Option ℕ).isSome
    rw [if_pos room]
    rfl
  locks _ _ _ := rfl

/-- What a call or an address refers to. -/
def referred : Spidir.Inst → Option RelocTarget
  | .call callee _ => some (if callee.external then .external callee.id else .internal callee.id)
  | .globaladdr id => some (.global id)
  | _ => none

theorem in_of_referred {spidir : SpidirModule} {id n : ℕ} {body : Spidir.Builder} {target : RelocTarget} (hbody : spidir.bodies id = some body)
    (h : referred (body.node n).inst = some target) : target.In spidir := by
  cases hinst : (body.node n).inst with
  | call callee args =>
    obtain rfl := Option.some.inj ((congrArg referred hinst).symm.trans h)
    split_ifs with hext
    · exact ⟨callee, args, ⟨id, body, n, hbody, hinst⟩, hext, rfl⟩
    · exact ⟨callee, args, ⟨id, body, n, hbody, hinst⟩, Bool.eq_false_iff.mpr hext, rfl⟩
  | globaladdr id' =>
    obtain rfl := Option.some.inj ((congrArg referred hinst).symm.trans h)
    exact ⟨id, body, n, hbody, hinst⟩
  | _ =>
    rw [hinst] at h
    cases h

theorem code_generation_succeeds_listed : ∃ m c stateSize built ctx, Wasm.wasmLoadModule listedModule = some m ∧
    jitPrepareState (startContext m fun _ _ _ => some 0x1000) = some (c, stateSize) ∧ jitEmitSpidir 4 c = some (built, ctx) ∧
    ∃ n, ∀ fuel, n ≤ fuel → (jitCodegen sampleHost listedEmitter true fuel ctx).isSome := by
  have run : ((Wasm.wasmLoadModule listedModule).bind fun m => (jitPrepareState (startContext m fun _ _ _ => some 0x1000)).bind fun c =>
      (jitEmitSpidir 4 c.1).bind fun r => (r.2.spidir.bodies 0).bind fun b => (r.2.spidir.bodies 1).bind fun b' =>
      (codegenAll listedEmitter r.2 4 {}).map fun g => decide ((referred (b.node 2).inst = some (.external 1) ∧
          referred (b.node 7).inst = some (.global 0) ∧ referred (b.node 6).inst = some (.external 0) ∧
          referred (b'.node 6).inst = some (.internal 0)) ∧
        m.elems = [{ funcs := [1] }] ∧ r.2.module.imports.length = 1 ∧ r.2.module.tables.length = 1 ∧
        r.2.tables = [⟨0, 1, true⟩] ∧ r.2.functions.map JitFunction.inited = [true, true] ∧
        r.2.slotIds.card ≤ 4 ∧ r.2.importIds.card ≤ 2 ∧ binarySize sampleHost r.2 g.2 ≤ 2 ^ 16)) = some true := by
    decide +kernel
  obtain ⟨m, hload, run⟩ := Option.bind_eq_some_iff.mp run
  obtain ⟨⟨c, stateSize⟩, hprepare, run⟩ := Option.bind_eq_some_iff.mp run
  obtain ⟨⟨built, ctx⟩, hemit, run⟩ := Option.bind_eq_some_iff.mp run
  obtain ⟨b, hbody, run⟩ := Option.bind_eq_some_iff.mp run
  obtain ⟨b', hbody', run⟩ := Option.bind_eq_some_iff.mp run
  obtain ⟨⟨_, cg⟩, hcodegen, run⟩ := Option.map_eq_some_iff.mp run
  obtain ⟨⟨import1, table0, trap0, thunk0⟩, helems, himports, htables, hused, hinited, hslots, hexterns, hsize⟩ := of_decide_eq_true run
  dsimp only at himports hsize
  have compiles : Compiles listedEmitter ctx.spidir := by
    intro id body blob _ hblob r hr
    cases id with
    | zero =>
      obtain rfl := Option.some.inj hblob
      simp only [List.mem_cons, List.not_mem_nil, or_false] at hr
      obtain rfl | rfl | rfl := hr
      · exact in_of_referred hbody import1
      · exact in_of_referred hbody table0
      · exact in_of_referred hbody trap0
    | succ id =>
      obtain rfl := Option.some.inj hblob
      obtain rfl := List.mem_singleton.mp hr
      exact in_of_referred hbody' thunk0
  have sound : ∀ id body blob, ctx.spidir.bodies id = some body → listedEmitter id = some blob → ∀ r ∈ blob.relocs, r.Sound sampleHost blob := by
    intro id body blob _ hblob r hr
    cases id with
    | zero =>
      obtain rfl := Option.some.inj hblob
      simp only [List.mem_cons, List.not_mem_nil, or_false] at hr
      obtain rfl | rfl | rfl := hr <;> exact ⟨by decide, by simp, by simp, by simp [RelocTarget.Near]⟩
    | succ id =>
      obtain rfl := Option.some.inj hblob
      obtain rfl := List.mem_singleton.mp hr
      exact ⟨by decide, by simp, by simp, by simp [RelocTarget.Near]⟩
  have room : RoomFor sampleHost listedEmitter ctx := by
    intro fuel cg' hrun
    have same := (codegenAll_more hcodegen (Nat.le_max_left 4 fuel)).symm.trans (codegenAll_more hrun (Nat.le_max_right 4 fuel))
    obtain rfl := (Prod.mk.inj (Option.some.inj same)).2
    omega
  have emits : EmitsAll listedEmitter ctx.spidir := fun id _ _ => by cases id <;> rfl
  have fit : ctx.MapsFit := ⟨hslots.trans (by decide), hexterns.trans (by decide), by rw [hused]; decide⟩
  refine ⟨m, c, stateSize, built, ctx, hload, hprepare, hemit, ?_⟩
  rw [code_generation_succeeds hload hprepare hemit sampleHost_roomy ⟨emits, compiles, sound⟩ fit room true]
  refine ⟨fun i item hitem _ => ?_, fun elem helem => ?_⟩
  · have inited : (ctx.functions.map JitFunction.inited)[0]? = some true := by rw [hinited]; rfl
    obtain ⟨f, hf, hinit⟩ := Option.map_eq_some_iff.mp (List.getElem?_map ▸ inited)
    obtain ⟨hlt, -⟩ := List.getElem?_eq_some_iff.mp hitem
    obtain rfl : i = 0 := by omega
    exact ⟨f, hf, hinit⟩
  · rw [helems, List.mem_singleton] at helem
    subst helem
    refine ⟨by rw [htables]; decide, fun t ht _ => ?_⟩
    rw [hused] at ht
    obtain rfl := Option.some.inj ht
    decide

end SpidirWasm.Jit
