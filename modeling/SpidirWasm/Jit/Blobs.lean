import Mathlib.Data.List.Nodup
import SpidirWasm.Jit.CodegenLayout
import SpidirWasm.Logic.Keeping

/-! The handles of the blobs. Spidir hands one out for each function it emits, the list of
functions holds it until the function is linked, and the clean-up of `jit_codegen` destroys
those that are left. The field that holds the handle is written by the emission alone. -/

namespace SpidirWasm.Jit.Blobs

open Keeping
open Wasm (WasmModule)

/-- What is done with handles: code is asked for, in a state of the code generation, and a
handle is returned by spidir or passed to `spidir_codegen_blob_destroy`. -/
inductive Event where
  | request (function : ℕ) (codegen : Codegen)
  | emitted (blob : ℕ)
  | destroyed (blob : ℕ)
  deriving DecidableEq, Repr

/-- The host's memory and spidir's handles. The vectors of functions and of queued functions
have or get room for another entry, by their length, and so have the records of a function's
relocations, by its index. The maps can grow or not where a function, an import, a table, or
for the capture a function or its thunk is inserted, by its index. A fresh function holds
something where its handle will be. -/
structure Allocation where
  functionRoom : ℕ → Bool
  queueRoom : ℕ → Bool
  recordRoom : ℕ → Bool
  indexRoom : ℕ → Bool
  importRoom : ℕ → Bool
  tableRoom : ℕ → Bool
  captureRoom : ℕ → Bool
  thunkRoom : ℕ → Bool
  layouts : Bool
  exports : Bool
  stale : ℕ → ℕ
  handle : ℕ → ℕ
  nonnull : ∀ n, handle n ≠ 0
  distinct : Function.Injective handle

/-- The state of `jit_codegen`: what the code generation has completed, what the linker has,
the `blob` fields of the list of functions, and what was done. -/
structure Run where
  codegen : Codegen := {}
  linked : Linked := { image := fun _ => none }
  blobs : List ℕ := []
  events : List Event := []

def Run.log (e : Event) (s : Run) : Run := { s with events := s.events ++ [e] }

/-- A step of the linker, in which no handle is touched. -/
def onLinked {α : Type} (m : Checked Linked α) : Keeping Run α := within Run.linked (fun linked s => { s with linked }) m

/-- One relocation of a blob, which may queue a function. -/
def queueTarget (a : Allocation) (reloc : Reloc) : Keeping Run Unit :=
  match reloc.target with
  | .internal id => do
    let cg ← read Run.codegen
    if jitCodegenVisitedFunction cg id then return
    check (a.queueRoom cg.queue.length = true)
    update fun s => { s with codegen := { s.codegen with queue := id :: s.codegen.queue } }
  | _ => return

/-- `jit_codegen_function`. -/
def jitCodegenFunction (a : Allocation) (emitter : Emitter) (function : ℕ) : Keeping Run Unit := do
  let cg ← read Run.codegen
  update (Run.log (.request function cg))
  if jitCodegenVisitedFunction cg function then return
  -- the entry is added, and its handle is whatever was there
  let index := cg.functions.length
  check (a.functionRoom index = true)
  update fun s => { s with blobs := s.blobs ++ [a.stale index] }
  let funcToIdx ← lift (cg.funcToIdx.insert (a.indexRoom index) function index)
  let blob ← lift (emitter function)
  update fun s => { s with blobs := s.blobs.set index (a.handle index), events := s.events ++ [.emitted (a.handle index)] }
  update fun s => { s with codegen := { s.codegen with funcToIdx }.place function blob }
  blob.relocs.forM (queueTarget a)

/-- `jit_try_codegen_function`. -/
def jitTryCodegenFunction (a : Allocation) (emitter : Emitter) (ctx : JitContext) (funcidx : ℕ) : Keeping Run Unit := do
  let func ← lift ctx.functions[funcidx]?
  check (func.inited = true)
  if func.spidir.external = false then jitCodegenFunction a emitter func.spidir.id
  if func.hasCfi then jitCodegenFunction a emitter func.cfiThunk

/-- The loop of `jit_codegen_functions` over the imports, from the `i`-th on. -/
def codegenImports (a : Allocation) (ctx : JitContext) : ℕ → List Wasm.WasmImport → Keeping Run Unit
  | _, [] => return
  | i, item :: imports => do
    if item.kind = .func then
      let func ← lift ctx.functions[i]?
      check (func.inited = true)
      check (func.spidir.external = true)
      let map ← lift ((← read fun s => s.codegen.imports).insert (a.importRoom i) func.spidir.id func.address)
      update fun s => { s with codegen := { s.codegen with imports := map } }
    codegenImports a ctx (i + 1) imports

/-- The loop that empties the queue. -/
def codegenQueue (a : Allocation) (emitter : Emitter) : (fuel : ℕ) → Keeping Run Unit
  | 0 => fail
  | fuel + 1 => do
    match ← read (fun s => s.codegen.queue) with
    | [] => return
    | function :: queue => do
      update fun s => { s with codegen := { s.codegen with queue } }
      jitCodegenFunction a emitter function
      codegenQueue a emitter fuel

/-- `jit_codegen_functions`. -/
def jitCodegenFunctions (a : Allocation) (emitter : Emitter) (ctx : JitContext) (fuel : ℕ) : Keeping Run Unit := do
  ctx.module.exports.forM fun e => do
    if e.kind = .func then jitTryCodegenFunction a emitter ctx e.index
  codegenImports a ctx 0 ctx.module.imports
  ctx.module.elems.forM fun elem => elem.funcs.forM fun funcidx => jitTryCodegenFunction a emitter ctx funcidx
  if 0 ≤ ctx.module.startFunc then jitTryCodegenFunction a emitter ctx ctx.module.startFunc.toNat
  codegenQueue a emitter fuel

/-- One table of `jit_codegen_tables`. -/
def codegenTable (a : Allocation) (i : ℕ) (table : JitTable) : Keeping Run Unit := do
  if table.used then
    let offset ← read fun s => sizeT (alignUp s.codegen.rodataSize 8)
    update fun s => { s with codegen := { s.codegen with rodataSize := sizeT (offset + 8 * table.length) } }
    let map ← lift ((← read fun s => s.codegen.globalOffsets).insert (a.tableRoom i) table.global offset)
    update fun s => { s with codegen := { s.codegen with globalOffsets := map } }

/-- `n` of them, from the `i`-th on. -/
def codegenTables (a : Allocation) (ctx : JitContext) : ℕ → ℕ → Keeping Run Unit
  | _, 0 => return
  | i, n + 1 => do
    codegenTable a i (← lift ctx.tables[i]?)
    codegenTables a ctx (i + 1) n

/-- `jit_codegen_tables`. -/
def jitCodegenTables (a : Allocation) (ctx : JitContext) : Keeping Run Unit := codegenTables a ctx 0 ctx.module.tables.length

/-- One function of `jit_codegen_prepare_debug_maps`. -/
def prepareDebugMap (a : Allocation) (maps : DebugMaps) (i : ℕ) (func : JitFunction) : Option DebugMaps :=
  if !func.inited then some maps
  else do
    let maps ← if func.spidir.external then
        (maps.externToFuncidx.insert (a.captureRoom i) func.spidir.id i).map fun externToFuncidx => { maps with externToFuncidx }
      else (maps.funcToFuncidx.insert (a.captureRoom i) func.spidir.id i).map fun funcToFuncidx => { maps with funcToFuncidx }
    if func.hasCfi then (maps.cfiToFuncidx.insert (a.thunkRoom i) func.cfiThunk i).map fun cfiToFuncidx => { maps with cfiToFuncidx }
    else some maps

/-- The loop of `jit_codegen_prepare_debug_maps`, from the `i`-th function on. -/
def prepareDebugMaps (a : Allocation) (maps : DebugMaps) : ℕ → List JitFunction → Option DebugMaps
  | _, [] => some maps
  | i, func :: rest => (prepareDebugMap a maps i func).bind fun maps => prepareDebugMaps a maps (i + 1) rest

/-- The maps are prepared for the capture alone. -/
def captureMaps (a : Allocation) (captureDebug : Bool) (ctx : JitContext) : Option DebugMaps :=
  if captureDebug then prepareDebugMaps a {} 0 ctx.functions else some {}

/-- One function of `jit_codegen_link`, whose blob is not needed any longer behind it. -/
def linkBlob (a : Allocation) (l : Linker) (i : ℕ) (func : FunctionCodegen) : Keeping Run Unit := do
  onLinked (linkFunction l func)
  check (l.captureDebug = true → a.recordRoom i = true)
  update fun s => { s with blobs := s.blobs.set i 0, events := s.events ++ [.destroyed (s.blobs.getD i 0)] }

/-- `jit_codegen_link`, from the `i`-th function on. -/
def jitCodegenLink (a : Allocation) (l : Linker) : ℕ → List FunctionCodegen → Keeping Run Unit
  | _, [] => return
  | i, func :: rest => do
    linkBlob a l i func
    jitCodegenLink a l (i + 1) rest

/-- `jit_codegen` up to its clean-up. -/
def jitCodegenBody (host : JitHost) (a : Allocation) (emitter : Emitter) (captureDebug : Bool) (fuel : ℕ) (ctx : JitContext) :
    Keeping Run WasmModuleJit := do
  let maps ← lift (captureMaps a captureDebug ctx)
  jitCodegenFunctions a emitter ctx fuel
  jitCodegenTables a ctx
  let cg ← read Run.codegen
  let codegen := cg.pages host.pageSize
  let rxPageCount := codegen.codeSize / host.pageSize
  let roPageCount := codegen.rodataSize / host.pageSize
  let binary ← lift (host.jitAlloc rxPageCount roPageCount)
  let l : Linker := { host, ctx, codegen, binary, captureDebug, maps }
  check (captureDebug = true → cg.functions ≠ [] → a.layouts = true)
  update fun s => { s with linked := { image := freshImage binary codegen.codeSize codegen.rodataSize } }
  jitCodegenLink a l 0 codegen.functions
  let s ← read Run.linked
  let debug : DebugInfo := if captureDebug then
      { funcs := s.funcs, relocs := s.relocs, codeBase := binary, codeSize := cg.codeSize, rodataBase := l.rodata, rodataSize := cg.rodataSize }
    else {}
  check (a.exports = true)
  let (exports, startFunc) ← onLinked (jitCodegenFillFunctions l)
  onLinked (jitCodegenFillTables l)
  check (host.jitLock binary rxPageCount roPageCount = true)
  let s ← read Run.linked
  return { binary, rxPageCount, roPageCount, image := s.image, exports, startFunc, debug }

/-- The clean-up destroys the handles that it finds in the list of functions. -/
def destroyBlobs (s : Run) : Run := { s with events := s.events ++ (s.blobs.filter (· ≠ 0)).map .destroyed }

/-- `jit_codegen`, with what it did with the handles. -/
def jitCodegen (host : JitHost) (a : Allocation) (emitter : Emitter) (captureDebug : Bool) (fuel : ℕ) (ctx : JitContext) :
    Option WasmModuleJit × List Event :=
  let body := jitCodegenBody host a emitter captureDebug fuel ctx
  ((body {}).1.result, (destroyBlobs (body.final {})).events)

/-! ### What was done with the handles -/

def emitted (events : List Event) : List ℕ := events.filterMap fun
  | .emitted blob => some blob
  | _ => none

def destroyed (events : List Event) : List ℕ := events.filterMap fun
  | .destroyed blob => some blob
  | _ => none

/-- Every handle that was returned is destroyed once, and nothing else is. -/
def Settled (events : List Event) : Prop :=
  (∀ blob ∈ emitted events, (destroyed events).count blob = 1) ∧ ∀ blob ∈ destroyed events, blob ∈ emitted events

variable (a : Allocation) (emitter : Emitter)

/-- The entry that a function gets is left without a blob of its own, and it did not hold null
before: the map is full or cannot grow, or spidir does not emit the function. -/
def Spills (function : ℕ) (cg : Codegen) : Prop :=
  jitCodegenVisitedFunction cg function = false ∧ a.functionRoom cg.functions.length = true ∧ a.stale cg.functions.length ≠ 0 ∧
    (cg.funcToIdx.insert (a.indexRoom cg.functions.length) function cg.functions.length = none ∨ emitter function = none)

/-- No function that was asked for spills. -/
def Calm (events : List Event) : Prop := ∀ function cg, .request function cg ∈ events → ¬Spills a emitter function cg

/-- What the clean-up would still destroy makes up for what was not destroyed, unless a function spilled. -/
structure Accounted (s : Run) : Prop where
  nodup : (emitted s.events).Nodup
  calm : Calm a emitter s.events ↔ (destroyed s.events ++ s.blobs.filter (· ≠ 0)).Perm (emitted s.events)

/-- While code is generated each function holds its handle. -/
structure Held (s : Run) : Prop where
  blobs : s.blobs = (List.range s.codegen.functions.length).map a.handle
  given : emitted s.events = s.blobs
  kept : destroyed s.events = []
  calm : Calm a emitter s.events

variable {a emitter} {s : Run} {events : List Event} {function : ℕ} {cg : Codegen}

theorem emitted_append (events events' : List Event) : emitted (events ++ events') = emitted events ++ emitted events' :=
  List.filterMap_append

theorem destroyed_append (events events' : List Event) : destroyed (events ++ events') = destroyed events ++ destroyed events' :=
  List.filterMap_append

theorem emitted_map_destroyed (blobs : List ℕ) : emitted (blobs.map .destroyed) = [] := by
  induction blobs with
  | nil => rfl
  | cons _ _ ih => exact ih

theorem destroyed_map_destroyed (blobs : List ℕ) : destroyed (blobs.map .destroyed) = blobs := by
  induction blobs with
  | nil => rfl
  | cons blob _ ih => exact congrArg (blob :: ·) ih

theorem settled_iff (h : (emitted events).Nodup) : Settled events ↔ (destroyed events).Perm (emitted events) := by
  rw [List.perm_iff_count]
  constructor
  · rintro ⟨once, only⟩ blob
    by_cases hb : blob ∈ emitted events
    · rw [once blob hb, List.count_eq_one_of_mem h hb]
    · rw [List.count_eq_zero_of_not_mem hb, List.count_eq_zero_of_not_mem fun hd => hb (only blob hd)]
  · intro same
    refine ⟨fun blob hb => by rw [same, List.count_eq_one_of_mem h hb], fun blob hb => ?_⟩
    have some : 0 < (destroyed events).count blob := List.count_pos_iff.mpr hb
    rw [same] at some
    exact List.count_pos_iff.mp some

theorem calm_append_request : Calm a emitter (events ++ [.request function cg]) ↔ Calm a emitter events ∧ ¬Spills a emitter function cg := by
  constructor
  · intro h
    exact ⟨fun f c hm => h f c (List.mem_append_left _ hm), h function cg (List.mem_append_right _ List.mem_cons_self)⟩
  · rintro ⟨h, hlast⟩ f c hm
    obtain hm | hm := List.mem_append.mp hm
    · exact h f c hm
    · cases List.mem_singleton.mp hm
      exact hlast

/-- Other events change nothing. -/
theorem calm_append {events' : List Event} (h : ∀ function cg, .request function cg ∉ events') :
    Calm a emitter (events ++ events') ↔ Calm a emitter events := by
  constructor
  · exact fun hc f c hm => hc f c (List.mem_append_left _ hm)
  · intro hc f c hm
    obtain hm | hm := List.mem_append.mp hm
    · exact hc f c hm
    · exact absurd hm (h f c)

theorem filter_handles (ns : List ℕ) : (ns.map a.handle).filter (· ≠ 0) = ns.map a.handle := by
  apply List.filter_eq_self.mpr
  intro blob hb
  obtain ⟨n, -, rfl⟩ := List.mem_map.mp hb
  exact decide_eq_true (a.nonnull n)

theorem handles_nodup (n : ℕ) : ((List.range n).map a.handle).Nodup := List.Nodup.map a.distinct List.nodup_range

theorem Held.accounted (h : Held a emitter s) : Accounted a emitter s := by
  have nodup : (emitted s.events).Nodup := h.given.trans h.blobs ▸ handles_nodup _
  refine ⟨nodup, iff_of_true h.calm ?_⟩
  rw [h.kept, h.given, h.blobs, filter_handles]
  exact .refl _

theorem held_start : Held a emitter {} := ⟨rfl, rfl, rfl, fun _ _ h => nomatch h⟩

/-- The handles depend on the number of functions alone. -/
theorem Held.congr {codegen : Codegen} {linked : Linked} (h : Held a emitter s) (hc : codegen.functions.length = s.codegen.functions.length) :
    Held a emitter { s with codegen, linked } :=
  ⟨h.blobs.trans (by rw [hc]), h.given, h.kept, h.calm⟩

/-! ### Generating code -/

/-- A function was asked for that does not spill. -/
theorem Held.request (h : Held a emitter s) (hspill : ¬Spills a emitter function s.codegen) : Held a emitter (s.log (.request function s.codegen)) where
  blobs := h.blobs
  given := by
    show emitted (s.events ++ [_]) = s.blobs
    rw [emitted_append, h.given]
    exact List.append_nil _
  kept := by
    show destroyed (s.events ++ [_]) = []
    rw [destroyed_append, h.kept]
    rfl
  calm := calm_append_request.mpr ⟨h.calm, hspill⟩

/-- A function that gets an entry and no blob: the clean-up destroys what the entry held. -/
theorem Held.spill (h : Held a emitter s) (hv : jitCodegenVisitedFunction s.codegen function = false)
    (hroom : a.functionRoom s.codegen.functions.length = true)
    (hfail : s.codegen.funcToIdx.insert (a.indexRoom s.codegen.functions.length) function s.codegen.functions.length = none ∨
      emitter function = none) (codegen : Codegen) :
    Accounted a emitter { s.log (.request function s.codegen) with codegen, blobs := s.blobs ++ [a.stale s.codegen.functions.length] } := by
  have hemitted : emitted (s.events ++ [.request function s.codegen]) = s.blobs := by
    rw [emitted_append, h.given]
    exact List.append_nil _
  have hdestroyed : destroyed (s.events ++ [.request function s.codegen]) = [] := by
    rw [destroyed_append, h.kept]
    rfl
  have spills : ¬Spills a emitter function s.codegen ↔ a.stale s.codegen.functions.length = 0 := by
    constructor
    · exact fun hs => by_contra fun hne => hs ⟨hv, hroom, hne, hfail⟩
    · exact fun h0 hs => hs.2.2.1 h0
  refine ⟨?_, ?_⟩
  · show (emitted (s.events ++ [_])).Nodup
    rw [hemitted, h.blobs]
    exact handles_nodup _
  · show Calm a emitter (s.events ++ [_]) ↔ (destroyed (s.events ++ [_]) ++ _).Perm (emitted (s.events ++ [_]))
    rw [hemitted, hdestroyed, List.nil_append, calm_append_request, spills, List.filter_append, h.blobs, filter_handles]
    by_cases h0 : a.stale s.codegen.functions.length = 0
    · simp [h0, h.calm]
    · refine iff_of_false (fun hc => h0 hc.2) fun hp => ?_
      have long := hp.length_eq
      simp [h0] at long

/-- The entry gets the handle of its blob. -/
theorem Held.emit (h : Held a emitter s) (hspill : ¬Spills a emitter function s.codegen) {codegen : Codegen}
    (hc : codegen.functions.length = s.codegen.functions.length + 1) :
    Held a emitter { s.log (.request function s.codegen) with
      codegen
      blobs := (s.blobs ++ [a.stale s.codegen.functions.length]).set s.codegen.functions.length (a.handle s.codegen.functions.length)
      events := (s.events ++ [.request function s.codegen]) ++ [.emitted (a.handle s.codegen.functions.length)] } := by
  have asked := h.request hspill
  have hlen : s.blobs.length = s.codegen.functions.length := by rw [h.blobs, List.length_map, List.length_range]
  have blobs : (s.blobs ++ [a.stale s.codegen.functions.length]).set s.codegen.functions.length (a.handle s.codegen.functions.length) =
      s.blobs ++ [a.handle s.codegen.functions.length] := by
    rw [← hlen, List.set_append_right _ _ (Nat.le_refl _), Nat.sub_self, List.set_cons_zero]
  rw [blobs]
  refine ⟨?_, ?_, ?_, ?_⟩
  · show s.blobs ++ [_] = (List.range codegen.functions.length).map a.handle
    rw [hc, List.range_succ, List.map_append, ← h.blobs]
    rfl
  · show emitted (_ ++ [_]) = s.blobs ++ [_]
    rw [emitted_append]
    exact congrArg (· ++ [a.handle s.codegen.functions.length]) asked.given
  · show destroyed (_ ++ [_]) = []
    rw [destroyed_append]
    exact (List.append_nil _).trans asked.kept
  · exact (calm_append fun _ _ hm => by simp at hm).mpr asked.calm

theorem held_queueTarget (h : Held a emitter s) (reloc : Reloc) :
    Keeping.Ends (queueTarget a reloc) (fun _ => Held a emitter) (Accounted a emitter) s := by
  unfold queueTarget
  cases reloc.target with
  | internal id =>
    simp only
    rw [ends_read_bind]
    split_ifs
    · exact h
    · rw [ends_check_bind]
      exact ⟨fun _ => h.congr rfl, fun _ => h.accounted⟩
  | _ => exact h

theorem held_function (h : Held a emitter s) (function : ℕ) :
    Keeping.Ends (jitCodegenFunction a emitter function) (fun _ => Held a emitter) (Accounted a emitter) s := by
  unfold jitCodegenFunction
  rw [ends_read_bind, ends_update_bind]
  cases hv : jitCodegenVisitedFunction s.codegen function with
  | true => exact h.request fun hs => Bool.false_ne_true (hs.1.symm.trans hv)
  | false =>
    rw [if_neg Bool.false_ne_true, ends_check_bind]
    refine ⟨fun hroom => ?_, fun hroom => (h.request fun hs => hroom hs.2.1).accounted⟩
    rw [ends_update_bind, ends_lift_bind]
    refine ⟨fun funcToIdx hinsert => ?_, fun hfull => h.spill hv hroom (.inl hfull) _⟩
    rw [ends_lift_bind]
    refine ⟨fun blob hemit => ?_, fun hnone => h.spill hv hroom (.inr hnone) _⟩
    rw [ends_update_bind, ends_update_bind]
    refine Keeping.Ends.forM (fun reloc t ht => held_queueTarget ht reloc) blob.relocs (h.emit ?_ ?_)
    · rintro ⟨-, -, -, hs | hs⟩
      · exact Option.some_ne_none _ (hinsert.symm.trans hs)
      · exact Option.some_ne_none _ (hemit.symm.trans hs)
    · obtain ⟨f, -, -, -, hplace⟩ := place_sizes { s.codegen with funcToIdx } function blob
      show (Codegen.place { s.codegen with funcToIdx } function blob).functions.length = _
      rw [hplace]
      exact List.length_append

theorem held_try (h : Held a emitter s) (ctx : JitContext) (funcidx : ℕ) :
    Keeping.Ends (jitTryCodegenFunction a emitter ctx funcidx) (fun _ => Held a emitter) (Accounted a emitter) s := by
  unfold jitTryCodegenFunction
  rw [ends_lift_bind]
  refine ⟨fun func _ => ?_, fun _ => h.accounted⟩
  rw [ends_check_bind]
  refine ⟨fun _ => ?_, fun _ => h.accounted⟩
  cases func.hasCfi with
  | true =>
    simp only [if_true]
    split_ifs
    · exact (held_function h func.spidir.id).bind fun _ t ht => held_function ht func.cfiThunk
    · exact held_function h func.cfiThunk
  | false =>
    simp only [Bool.false_eq_true, if_false]
    split_ifs
    · exact (held_function h func.spidir.id).bind fun _ t ht => ht
    · exact h

/-- The imports leave the functions alone. -/
theorem held_imports (h : Held a emitter s) (ctx : JitContext) (i : ℕ) (imports : List Wasm.WasmImport) :
    Keeping.Ends (codegenImports a ctx i imports) (fun _ => Held a emitter) (Accounted a emitter) s := by
  induction imports generalizing i s with
  | nil => exact h
  | cons item imports ih =>
    unfold codegenImports
    split_ifs
    · rw [ends_lift_bind]
      refine ⟨fun func _ => ?_, fun _ => h.accounted⟩
      rw [ends_check_bind]
      refine ⟨fun _ => ?_, fun _ => h.accounted⟩
      rw [ends_check_bind]
      refine ⟨fun _ => ?_, fun _ => h.accounted⟩
      rw [ends_read_bind, ends_lift_bind]
      refine ⟨fun map _ => ?_, fun _ => h.accounted⟩
      rw [ends_update_bind]
      have kept : Held a emitter { s with codegen := { s.codegen with imports := map } } := h.congr rfl
      exact ih kept (i + 1)
    · exact ih h (i + 1)

theorem held_queue (h : Held a emitter s) (fuel : ℕ) :
    Keeping.Ends (codegenQueue a emitter fuel) (fun _ => Held a emitter) (Accounted a emitter) s := by
  induction fuel generalizing s with
  | zero => exact h.accounted
  | succ fuel ih =>
    unfold codegenQueue
    rw [ends_read_bind]
    cases s.codegen.queue with
    | nil => exact h
    | cons function queue =>
      simp only
      rw [ends_update_bind]
      exact (held_function (s := { s with codegen := { s.codegen with queue } }) (h.congr rfl) function).bind fun _ _ ht => ih ht

/-- While code is generated, nothing goes wrong unless a function spills. -/
theorem held_functions (h : Held a emitter s) (ctx : JitContext) (fuel : ℕ) :
    Keeping.Ends (jitCodegenFunctions a emitter ctx fuel) (fun _ => Held a emitter) (Accounted a emitter) s := by
  unfold jitCodegenFunctions
  refine Keeping.Ends.bind (Keeping.Ends.forM (fun e t ht => ?_) ctx.module.exports h) fun _ t ht => ?_
  · split_ifs
    · exact held_try ht ctx e.index
    · exact ht
  refine Keeping.Ends.bind (held_imports ht ctx 0 ctx.module.imports) fun _ t ht => ?_
  refine Keeping.Ends.bind (Keeping.Ends.forM (fun elem t ht => ?_) ctx.module.elems ht) fun _ t ht => ?_
  · exact Keeping.Ends.forM (fun funcidx t ht => held_try ht ctx funcidx) elem.funcs ht
  split_ifs
  · exact (held_try ht ctx _).bind fun _ t ht => held_queue ht fuel
  · exact held_queue ht fuel

theorem held_table (h : Held a emitter s) (i : ℕ) (table : JitTable) :
    Keeping.Ends (codegenTable a i table) (fun _ => Held a emitter) (Accounted a emitter) s := by
  unfold codegenTable
  split_ifs
  · rw [ends_read_bind, ends_update_bind, ends_read_bind, ends_lift_bind]
    have laid : Held a emitter { s with codegen := { s.codegen with
        rodataSize := sizeT (sizeT (alignUp s.codegen.rodataSize 8) + 8 * table.length) } } := h.congr rfl
    exact ⟨fun map _ => h.congr rfl, fun _ => laid.accounted⟩
  · exact h

theorem held_tables (h : Held a emitter s) (ctx : JitContext) (i n : ℕ) :
    Keeping.Ends (codegenTables a ctx i n) (fun _ => Held a emitter) (Accounted a emitter) s := by
  induction n generalizing i s with
  | zero => exact h
  | succ n ih =>
    unfold codegenTables
    rw [ends_lift_bind]
    exact ⟨fun table _ => (held_table h i table).bind fun _ t ht => ih ht (i + 1), fun _ => h.accounted⟩

/-! ### Linking -/

variable {hs : List ℕ} {i : ℕ}

/-- The first `i` handles are destroyed, and their fields are null. -/
structure Linking (a : Allocation) (emitter : Emitter) (hs : List ℕ) (i : ℕ) (s : Run) : Prop where
  blobs : s.blobs = List.replicate i 0 ++ hs.drop i
  given : emitted s.events = hs
  kept : destroyed s.events = hs.take i
  calm : Calm a emitter s.events

theorem Linking.accounted (hnodup : hs.Nodup) (hnonnull : ∀ blob ∈ hs, blob ≠ 0) (h : Linking a emitter hs i s) : Accounted a emitter s := by
  have left : s.blobs.filter (· ≠ 0) = hs.drop i := by
    rw [h.blobs, List.filter_append, List.filter_eq_nil_iff.mpr, List.nil_append, List.filter_eq_self.mpr]
    · exact fun blob hb => decide_eq_true (hnonnull blob (List.mem_of_mem_drop hb))
    · intro blob hb
      rw [List.eq_of_mem_replicate hb]
      decide
  refine ⟨h.given ▸ hnodup, iff_of_true h.calm ?_⟩
  rw [left, h.kept, h.given, List.take_append_drop]

/-- One more function is linked. -/
theorem Linking.next (h : Linking a emitter hs i s) (hi : i < hs.length) :
    Linking a emitter hs (i + 1) { s with blobs := s.blobs.set i 0, events := s.events ++ [.destroyed (s.blobs.getD i 0)] } := by
  have hlen : (List.replicate i 0).length = i := List.length_replicate
  have field : s.blobs.getD i 0 = hs[i] := by
    rw [h.blobs, List.getD_eq_getElem?_getD, List.getElem?_append_right (Nat.le_of_eq hlen), hlen, Nat.sub_self, List.getElem?_drop,
      Nat.add_zero, List.getElem?_eq_getElem hi, Option.getD_some]
  refine ⟨?_, ?_, ?_, ?_⟩
  · show s.blobs.set i 0 = _
    rw [h.blobs, List.set_append_right _ _ (Nat.le_of_eq hlen), hlen, Nat.sub_self, List.drop_eq_getElem_cons hi, List.set_cons_zero,
      List.replicate_succ', List.append_assoc, List.singleton_append]
  · show emitted (_ ++ [_]) = hs
    rw [emitted_append, h.given]
    exact List.append_nil hs
  · show destroyed (_ ++ [_]) = _
    rw [destroyed_append, h.kept, field, List.take_add_one, List.getElem?_eq_getElem hi]
    rfl
  · exact (calm_append fun _ _ hm => by simp at hm).mpr h.calm

theorem linking_link (hnodup : hs.Nodup) (hnonnull : ∀ blob ∈ hs, blob ≠ 0) (l : Linker) {functions : List FunctionCodegen}
    (h : Linking a emitter hs i s) (hlen : i + functions.length = hs.length) :
    Keeping.Ends (jitCodegenLink a l i functions) (fun _ => Linking a emitter hs hs.length) (Accounted a emitter) s := by
  induction functions generalizing i s with
  | nil => exact hlen ▸ h
  | cons func rest ih =>
    unfold jitCodegenLink linkBlob
    rw [List.length_cons] at hlen
    refine Keeping.Ends.bind ?_ fun _ t (ht : Linking a emitter hs (i + 1) t) => ih ht (by omega)
    refine Keeping.Ends.bind (Keeping.Ends.within (fun _ linked _ => ?_) (h.accounted hnodup hnonnull)) fun _ t (ht : Linking a emitter hs i t) => ?_
    · exact ⟨h.blobs, h.given, h.kept, h.calm⟩
    · rw [ends_check_bind]
      exact ⟨fun _ => ht.next (by omega), fun _ => ht.accounted hnodup hnonnull⟩

/-- Wherever the run stops, the handles are accounted for, unless a function spilled. -/
theorem jitCodegenBody_accounted (host : JitHost) (captureDebug : Bool) (fuel : ℕ) (ctx : JitContext) :
    Keeping.Ends (jitCodegenBody host a emitter captureDebug fuel ctx) (fun _ => Accounted a emitter) (Accounted a emitter) {} := by
  unfold jitCodegenBody
  rw [ends_lift_bind]
  refine ⟨fun maps _ => ?_, fun _ => held_start.accounted⟩
  refine Keeping.Ends.bind (held_functions held_start ctx fuel) fun _ s hs => ?_
  refine Keeping.Ends.bind (held_tables hs ctx 0 ctx.module.tables.length) fun _ s hs => ?_
  simp only
  rw [ends_read_bind, ends_lift_bind]
  refine ⟨fun binary _ => ?_, fun _ => hs.accounted⟩
  rw [ends_check_bind]
  refine ⟨fun _ => ?_, fun _ => hs.accounted⟩
  rw [ends_update_bind]
  set handles := (List.range s.codegen.functions.length).map a.handle with hhandles
  have nodup : handles.Nodup := handles_nodup _
  have nonnull : ∀ blob ∈ handles, blob ≠ 0 := by
    intro blob hb
    obtain ⟨n, -, rfl⟩ := List.mem_map.mp hb
    exact a.nonnull n
  refine Keeping.Ends.bind (linking_link nodup nonnull _ (i := 0) ⟨hs.blobs, hs.given.trans hs.blobs, hs.kept, hs.calm⟩ ?_) fun _ s hs => ?_
  · simp [hhandles, Codegen.pages]
  rw [ends_read_bind, ends_check_bind]
  refine ⟨fun _ => ?_, fun _ => hs.accounted nodup nonnull⟩
  have still {s : Run} (hs : Linking a emitter handles handles.length s) (linked : Linked) :
      Linking a emitter handles handles.length { s with linked } := ⟨hs.blobs, hs.given, hs.kept, hs.calm⟩
  refine Keeping.Ends.bind (Q := fun _ => Linking a emitter handles handles.length)
    (Keeping.Ends.within (fun _ linked _ => still hs linked) (hs.accounted nodup nonnull)) fun _ s hs => ?_
  refine Keeping.Ends.bind (Q := fun _ => Linking a emitter handles handles.length)
    (Keeping.Ends.within (fun _ linked _ => still hs linked) (hs.accounted nodup nonnull)) fun _ s hs => ?_
  rw [ends_check_bind]
  exact ⟨fun _ => hs.accounted nodup nonnull, fun _ => hs.accounted nodup nonnull⟩

/-- The clean-up settles what is accounted for, and only that. -/
theorem Accounted.settled_iff (h : Accounted a emitter s) : Settled (destroyBlobs s).events ↔ Calm a emitter (destroyBlobs s).events := by
  have hemitted : emitted (destroyBlobs s).events = emitted s.events := by
    rw [destroyBlobs, emitted_append, emitted_map_destroyed, List.append_nil]
  have hdestroyed : destroyed (destroyBlobs s).events = destroyed s.events ++ s.blobs.filter (· ≠ 0) := by
    rw [destroyBlobs, destroyed_append, destroyed_map_destroyed]
  rw [Blobs.settled_iff (hemitted ▸ h.nodup), hemitted, hdestroyed, ← h.calm]
  exact (calm_append fun _ _ hm => by simp at hm).symm

/-! ### What is generated -/

/-- Memory is there whenever it is asked for. -/
structure Allocation.Grants (a : Allocation) : Prop where
  function : ∀ n, a.functionRoom n = true
  queue : ∀ n, a.queueRoom n = true
  record : ∀ n, a.recordRoom n = true
  index : ∀ n, a.indexRoom n = true
  imports : ∀ n, a.importRoom n = true
  tables : ∀ n, a.tableRoom n = true
  capture : ∀ n, a.captureRoom n = true
  thunk : ∀ n, a.thunkRoom n = true
  layouts : a.layouts = true
  exports : a.exports = true

theorem tracks_queueTargets (h : a.Grants) (relocs : List Reloc) :
    Tracks Run.codegen (relocs.forM (queueTarget a)) (Checked.update (queueTargets relocs)) := by
  induction relocs with
  | nil => exact fun _ => rfl
  | cons reloc relocs ih =>
    intro s
    have step : (queueTarget a reloc).run s = some ((), { s with codegen := queueTargets [reloc] s.codegen }) := by
      unfold queueTarget queueTargets
      rw [List.foldl_cons, List.foldl_nil]
      cases reloc.target with
      | internal id =>
        simp only
        rw [run_bind, run_read, Option.bind_some]
        split_ifs
        · rfl
        · rw [run_bind, run_check, if_pos (h.queue _)]
          rfl
      | _ => rfl
    rw [List.forM_eq_forM, List.forM_cons, run_bind, step, Option.bind_some]
    exact ih _

theorem tracks_function (h : a.Grants) (function : ℕ) :
    Tracks Run.codegen (jitCodegenFunction a emitter function) (Jit.jitCodegenFunction emitter function) := by
  intro s
  unfold jitCodegenFunction Jit.jitCodegenFunction
  rw [run_bind, run_read, Option.bind_some, Checked.get_bind, run_bind, run_update, Option.bind_some]
  cases hv : jitCodegenVisitedFunction s.codegen function with
  | true => rfl
  | false =>
    simp only [Bool.false_eq_true, if_false]
    rw [run_bind, run_check, if_pos (h.function _), Option.bind_some, run_bind, run_update, Option.bind_some, Checked.read_bind, Checked.read_bind]
    rw [run_bind, run_lift, Checked.bind_apply, Checked.lift, h.index]
    cases s.codegen.funcToIdx.insert true function s.codegen.functions.length with
    | none => rfl
    | some funcToIdx =>
      simp only [Option.map_some, Option.bind_some]
      rw [run_bind, run_lift, Checked.bind_apply, Checked.lift]
      cases emitter function with
      | none => rfl
      | some blob => exact tracks_queueTargets h blob.relocs _

theorem tracks_try (h : a.Grants) (ctx : JitContext) (funcidx : ℕ) :
    Tracks Run.codegen (jitTryCodegenFunction a emitter ctx funcidx) (Jit.jitTryCodegenFunction emitter ctx funcidx) := by
  refine .bind (.lift _) fun func => .bind (.check _) fun _ => ?_
  have thunk : Tracks Run.codegen (if func.hasCfi then jitCodegenFunction a emitter func.cfiThunk else pure ())
      (if func.hasCfi then Jit.jitCodegenFunction emitter func.cfiThunk else pure ()) := .ite (tracks_function h _) (.pure ())
  exact .ite (.bind (tracks_function h _) fun _ => thunk) thunk

theorem tracks_queue (h : a.Grants) (fuel : ℕ) : Tracks Run.codegen (codegenQueue a emitter fuel) (Jit.codegenQueue emitter fuel) := by
  induction fuel with
  | zero => exact .fail
  | succ fuel ih =>
    refine Tracks.read (g := Codegen.queue) fun queue => ?_
    cases queue with
    | nil => exact .pure ()
    | cons function queue => exact .bind (.update fun _ => rfl) fun _ => .bind (tracks_function h function) fun _ => ih

theorem tracks_imports (h : a.Grants) (ctx : JitContext) (i : ℕ) (imports : List Wasm.WasmImport) :
    Tracks Run.codegen (codegenImports a ctx i imports) (Jit.codegenImports ctx i imports) := by
  induction imports generalizing i with
  | nil => exact .pure ()
  | cons item imports ih =>
    refine .ite (.bind (.lift _) fun func => .bind (.check _) fun _ => .bind (.check _) fun _ => ?_) (ih (i + 1))
    rw [h.imports]
    exact Tracks.read (g := Codegen.imports) fun map => .bind (.lift _) fun _ => .bind (.update fun _ => rfl) fun _ => ih (i + 1)

theorem tracks_tables (h : a.Grants) (ctx : JitContext) (i n : ℕ) : Tracks Run.codegen (codegenTables a ctx i n)
    (Checked.forFrom (fun i => do Jit.codegenTable (← Checked.lift ctx.tables[i]?)) i n) := by
  induction n generalizing i with
  | zero => exact .pure ()
  | succ n ih =>
    have table (table : JitTable) : Tracks Run.codegen (codegenTable a i table) (Jit.codegenTable table) := by
      intro s
      unfold codegenTable Jit.codegenTable
      rw [h.tables]
      cases table.used with
      | false => rfl
      | true =>
        simp only [if_true]
        rw [run_bind, run_read, Option.bind_some, Checked.read_bind, run_bind, run_update, Option.bind_some, Checked.update_bind]
        rw [run_bind, run_read, Option.bind_some, Checked.read_bind, run_bind, run_lift, Checked.bind_apply, Checked.lift]
        dsimp only
        cases s.codegen.globalOffsets.insert true table.global (sizeT (alignUp s.codegen.rodataSize 8)) with
        | none => rfl
        | some map => rfl
    intro s
    unfold codegenTables
    rw [Checked.forFrom, Checked.bind_apply, Checked.bind_apply, run_bind, run_lift, Checked.lift]
    cases ctx.tables[i]? with
    | none => rfl
    | some t => exact (Tracks.bind (table t) fun _ => ih (i + 1)) s

theorem captureMaps_granted (h : a.Grants) (captureDebug : Bool) (ctx : JitContext) : captureMaps a captureDebug ctx = Jit.captureMaps captureDebug ctx := by
  have one (maps : DebugMaps) (i : ℕ) (func : JitFunction) : prepareDebugMap a maps i func = Jit.prepareDebugMap maps i func := by
    rw [prepareDebugMap, Jit.prepareDebugMap, h.capture, h.thunk]
  have all (maps : DebugMaps) (i : ℕ) (functions : List JitFunction) : prepareDebugMaps a maps i functions = Jit.prepareDebugMaps maps i functions := by
    induction functions generalizing maps i with
    | nil => rfl
    | cons func rest ih => rw [prepareDebugMaps, Jit.prepareDebugMaps, one, funext fun maps => ih maps (i + 1)]
  rw [captureMaps, Jit.captureMaps, jitCodegenPrepareDebugMaps, all]

theorem tracks_functions (h : a.Grants) (ctx : JitContext) (fuel : ℕ) :
    Tracks Run.codegen (jitCodegenFunctions a emitter ctx fuel) (Jit.jitCodegenFunctions emitter ctx fuel) := by
  refine .bind (.forM (fun e : Wasm.WasmExport => .ite (tracks_try h ctx e.index) (.pure ())) _) fun _ => ?_
  refine .bind (tracks_imports h ctx 0 _) fun _ => ?_
  refine .bind (.forM (fun elem : Wasm.ElemSegment => .forM (tracks_try h ctx) elem.funcs) _) fun _ => ?_
  exact .ite (.bind (tracks_try h ctx _) fun _ => tracks_queue h fuel) (tracks_queue h fuel)

theorem tracks_link (h : a.Grants) (l : Linker) (i : ℕ) (functions : List FunctionCodegen) :
    Tracks Run.linked (jitCodegenLink a l i functions) (functions.forM (linkFunction l)) := by
  induction functions generalizing i with
  | nil => exact .pure ()
  | cons func rest ih =>
    intro s
    have linked : Tracks Run.linked (onLinked (linkFunction l func)) (linkFunction l func) := .within (fun _ _ => rfl) _
    rw [List.forM_eq_forM, List.forM_cons, Checked.bind_apply, ← linked s]
    unfold jitCodegenLink linkBlob
    rw [run_bind, run_bind]
    cases (onLinked (linkFunction l func)).run s with
    | none => rfl
    | some r =>
      simp only [Option.bind_some, Option.map_some]
      rw [run_bind, run_check, if_pos fun _ => h.record i]
      exact ih (i + 1) _

/-- Where memory is granted the result is that of the code generation without handles. -/
theorem jitCodegen_result (h : a.Grants) (host : JitHost) (captureDebug : Bool) (fuel : ℕ) (ctx : JitContext) :
    (jitCodegen host a emitter captureDebug fuel ctx).1 = Jit.jitCodegen host emitter captureDebug fuel ctx := by
  have result {α : Type} (m : Keeping Run α) (s : Run) : (m s).1.result = (m.run s).map Prod.fst := by
    rw [run]
    cases (m s).1.result <;> rfl
  rw [jitCodegen, result]
  unfold jitCodegenBody Jit.jitCodegen
  rw [captureMaps_granted h]
  cases Jit.captureMaps captureDebug ctx with
  | none => rfl
  | some maps =>
    rw [run_bind, run_lift, Option.map_some, Option.bind_some, Option.bind_eq_bind, Option.bind_some, codegenAll, Checked.bind_apply,
      ← (tracks_functions h ctx fuel) {}, run_bind]
    cases (jitCodegenFunctions a emitter ctx fuel).run {} with
    | none => rfl
    | some r =>
      have tables : Tracks Run.codegen (jitCodegenTables a ctx) (Jit.jitCodegenTables ctx) := tracks_tables h ctx 0 _
      rw [Option.map_some, Option.bind_some, Option.bind_some, ← tables, run_bind]
      cases (jitCodegenTables a ctx).run r.2 with
      | none => rfl
      | some r =>
        simp only [Option.map_some, Option.bind_some, Option.bind_eq_bind]
        rw [run_bind, run_read, Option.bind_some, run_bind, run_lift]
        cases host.jitAlloc _ _ with
        | none => rfl
        | some binary =>
          simp only [Option.map_some, Option.bind_some]
          rw [run_bind, run_check, if_pos fun _ _ => h.layouts, Option.bind_some, run_bind, run_update, Option.bind_some]
          generalize r.2.codegen.pages host.pageSize = codegen
          have link := tracks_link h { host, ctx, codegen, binary, captureDebug, maps } 0 codegen.functions
            { r.2 with linked := { image := freshImage binary codegen.codeSize codegen.rodataSize } }
          rw [Jit.jitCodegenLink, ← link, run_bind]
          cases Keeping.run (jitCodegenLink a _ 0 codegen.functions) _ with
          | none => rfl
          | some linked =>
            rw [Option.bind_some, run_bind, run_read, Option.bind_some, run_bind, run_check, if_pos h.exports, Option.bind_some, Option.map_some,
              Option.bind_some]
            have fill : Tracks Run.linked (onLinked (jitCodegenFillFunctions { host, ctx, codegen, binary, captureDebug, maps })) _ :=
              .within (fun _ _ => rfl) _
            rw [← fill, run_bind]
            cases (onLinked (jitCodegenFillFunctions _)).run linked.2 with
            | none => rfl
            | some filled =>
              have tables : Tracks Run.linked (onLinked (jitCodegenFillTables { host, ctx, codegen, binary, captureDebug, maps })) _ :=
                .within (fun _ _ => rfl) _
              rw [Option.bind_some, Option.map_some, Option.bind_some, ← tables, run_bind]
              cases (onLinked (jitCodegenFillTables _)).run filled.2 with
              | none => rfl
              | some done =>
                rw [Option.bind_some, run_bind, run_check]
                by_cases hlock : host.jitLock binary (codegen.codeSize / host.pageSize) (codegen.rodataSize / host.pageSize) = true
                · simp [hlock]
                · simp [hlock]

/-! ### Whole runs -/

/-- In any run of `jit_codegen`, wherever it fails, every handle that spidir returned is destroyed
once and nothing else is, if and only if no function that the run asks for spills. -/
theorem jitCodegen_settles (host : JitHost) (a : Allocation) (emitter : Emitter) (captureDebug : Bool) (fuel : ℕ) (ctx : JitContext) :
    Settled (jitCodegen host a emitter captureDebug fuel ctx).2 ↔
      ∀ function cg, .request function cg ∈ (jitCodegen host a emitter captureDebug fuel ctx).2 → ¬Spills a emitter function cg := by
  have stopped : Keeping.Ends (jitCodegenBody host a emitter captureDebug fuel ctx) (fun _ => Accounted a emitter) (Accounted a emitter) {} :=
    jitCodegenBody_accounted host captureDebug fuel ctx
  have accounted : Accounted a emitter ((jitCodegenBody host a emitter captureDebug fuel ctx).final {}) := by
    unfold Keeping.Ends at stopped
    split at stopped
    · exact stopped
    · exact stopped
    · exact stopped.elim
  exact accounted.settled_iff

instance (events : List Event) : Decidable (Settled events) := inferInstanceAs (Decidable (_ ∧ _))

/-- Memory that was in use before. -/
def reused : Allocation where
  functionRoom _ := true
  queueRoom _ := true
  recordRoom _ := true
  indexRoom _ := true
  importRoom _ := true
  tableRoom _ := true
  captureRoom _ := true
  thunkRoom _ := true
  layouts := true
  exports := true
  stale _ := 4096
  handle n := n + 1
  nonnull _ := Nat.succ_ne_zero _
  distinct _ _ h := Nat.succ.inj h

def smallHost : JitHost where
  pageSize := 4096
  jitAlloc _ _ := some 4096
  jitLock _ _ _ := true
  helperAddress _ := 0
  resolveLibcall _ := none

/-- One exported function without code of its own. -/
def exportContext : JitContext :=
  { startContext { types := [⟨[], []⟩], functions := [0], exports := [⟨some [102], .func, 0⟩], code := some [[0x00, 0x0B]] } fun _ _ _ => none with
    functions := [{ spidir := ⟨false, 0, .none, []⟩, inited := true }] }

/-- Where spidir does not emit the function, what the memory held is destroyed. -/
theorem jitCodegen_destroys_stale : ¬Settled (jitCodegen smallHost reused (fun _ => none) false 1 exportContext).2 := by decide +kernel

end SpidirWasm.Jit.Blobs
