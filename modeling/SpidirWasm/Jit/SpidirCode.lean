import SpidirWasm.Jit.CodegenClosure
import SpidirWasm.Jit.Numbering
import SpidirWasm.Util.HmapKeys

/-! What spidir emits for the graphs of a module. The code refers to what the graphs refer to,
and these to what the module provides; so whatever the code generation comes across has the id
of a function with a body or of a thunk. -/

namespace SpidirWasm.Jit

open Checked
open Spidir (Builder Inst Value FuncRef)
open Wasm (WasmModule FuncType Name)

/-- Some graph has the instruction. -/
def SpidirModule.Has (spidir : SpidirModule) (i : Inst) : Prop := ∃ id body n, spidir.bodies id = some body ∧ (body.node n).inst = i

/-- What a relocation can be against: what is spidir's own, and what the graphs refer to. -/
def RelocTarget.In (spidir : SpidirModule) : RelocTarget → Prop
  | .global id => spidir.Has (.globaladdr id)
  | .internal id => ∃ callee args, spidir.Has (.call callee args) ∧ callee.external = false ∧ callee.id = id
  | .external id => ∃ callee args, spidir.Has (.call callee args) ∧ callee.external = true ∧ callee.id = id
  | _ => True

/-- The code for the graphs refers to what they refer to. -/
def Compiles (emitter : Emitter) (spidir : SpidirModule) : Prop :=
  ∀ id body blob, spidir.bodies id = some body → emitter id = some blob → ∀ r ∈ blob.relocs, r.target.In spidir

/-- A context behind the emission: everything that was created was built, nothing is referred to that is not there, and the
roots of the module are prepared. -/
structure JitContext.Complete (ctx : JitContext) : Prop where
  built : ∀ id < ctx.spidir.functions, (ctx.spidir.bodies id).isSome
  provides : ∀ i, ctx.spidir.Has i → ctx.Provides i
  helpers : ∀ kind func, ctx.helpers kind = some func → func.external = true
  numbered : Numbered ctx
  exported : ∀ e ∈ ctx.module.exports, e.kind = .func → ctx.IsPrepared e.index
  listed : ∀ elem ∈ ctx.module.elems, ∀ i ∈ elem.funcs, ctx.Thunked i
  started : 0 ≤ ctx.module.startFunc → ctx.IsPrepared ctx.module.startFunc.toNat
  tableCount : ctx.tables.length = ctx.module.tables.length
  tableIds : ∀ (i : ℕ) (t : JitTable), ctx.tables[i]? = some t → t.global = i
  globalCount : ctx.globals.length = ctx.module.globals.length

/-- The ids of functions with a body, and of thunks. -/
def JitContext.slotIds (ctx : JitContext) : Finset ℕ :=
  (ctx.functions.filterMap JitFunction.internalId ++ ctx.functions.filterMap JitFunction.thunkId).toFinset

variable {emitter : Emitter} {ctx c : JitContext} {cg cg' : Codegen} {f : JitFunction} {function funcidx id : ℕ}

theorem JitContext.mem_slotIds : id ∈ ctx.slotIds ↔ ∃ f ∈ ctx.functions, f.internalId = some id ∨ f.thunkId = some id := by
  simp only [slotIds, List.mem_toFinset, List.mem_append, List.mem_filterMap]
  constructor
  · rintro (⟨f, hf, hid⟩ | ⟨f, hf, hid⟩)
    · exact ⟨f, hf, .inl hid⟩
    · exact ⟨f, hf, .inr hid⟩
  · rintro ⟨f, hf, hid | hid⟩
    · exact .inl ⟨f, hf, hid⟩
    · exact .inr ⟨f, hf, hid⟩

/-- The emission of a module leaves such a context. -/
theorem jitEmitSpidir_complete {m : WasmModule} {resolveImport : Option Name → Option Name → FuncType → Option ℕ}
    {stateSize fuel : ℕ} {built : List ℕ} (hprepare : jitPrepareState (startContext m resolveImport) = some (c, stateSize))
    (hemit : jitEmitSpidir fuel c = some (built, ctx)) : ctx.Complete ∧ ctx.module = m := by
  obtain ⟨hstart, hmodule, -, hnone, hcount⟩ := emission_start hprepare
  obtain ⟨he, hkept, -, hempty, hthunks, hlength, hglobals⟩ := jitEmitSpidir_emission hstart hemit
  obtain ⟨hexports, hstarts⟩ := jitEmitSpidir_isPrepared hemit
  have ids : built.Perm (List.range ctx.spidir.functions) := by
    have := he.ids
    rwa [hempty, List.map_nil, List.append_nil, List.nil_append] at this
  rw [← hkept] at hthunks hexports hstarts
  refine ⟨⟨fun id hid => ?_, fun i ⟨id, body, n, hbody, hn⟩ => ?_, he.helpers, jitEmitSpidir_numbered (numbered_start hprepare) hemit,
    hexports, hthunks, hstarts, by rw [hlength, hcount, hkept, hmodule], fun i t ht => ?_, ?_⟩, hkept.trans hmodule⟩
  · exact (he.bodies id).mpr (ids.mem_iff.mpr (List.mem_range.mpr hid))
  · exact hn ▸ he.refs id body hbody n
  · have := hglobals (by rw [hcount, hmodule]) i t ht
    rwa [hnone, Nat.zero_add] at this
  · simp only [jitPrepareState, Option.bind_eq_bind, Option.pure_def, Option.bind_eq_some_iff, Option.some.injEq, Prod.mk.injEq] at hprepare
    obtain ⟨⟨globals, stop⟩, hlaid, rfl, -⟩ := hprepare
    rw [moduleRun_globals (jitEmitSpidir_run hemit), hkept]
    exact (prepareGlobals_laid hlaid).2.length_eq.symm

/-- A prepared function is known by its id. -/
theorem internalId_eq (hinit : f.inited = true) (hext : f.spidir.external = false) : f.internalId = some f.spidir.id := if_pos ⟨hinit, hext⟩

namespace JitContext.Complete

/-- Functions of slots were built. -/
theorem body (h : ctx.Complete) (hid : id ∈ ctx.slotIds) : ∃ body, ctx.spidir.bodies id = some body := by
  obtain ⟨f, hf, hid⟩ := JitContext.mem_slotIds.mp hid
  obtain ⟨i, hi⟩ := List.mem_iff_getElem?.mp hf
  apply Option.isSome_iff_exists.mp
  apply h.built
  obtain hid | hid := hid
  · exact h.numbered.internal.below i f id hi hid
  · exact h.numbered.thunk.below i f id hi hid

/-- A function that some graph calls. -/
theorem internal (h : ctx.Complete) (htarget : (RelocTarget.internal id).In ctx.spidir) : id ∈ ctx.slotIds := by
  obtain ⟨callee, args, hcall, hext, rfl⟩ := htarget
  obtain ⟨kind, hkind⟩ | ⟨f, hf, hinit, rfl⟩ : ctx.Callable callee := h.provides _ hcall
  · rw [h.helpers kind callee hkind] at hext
    cases hext
  · exact JitContext.mem_slotIds.mpr ⟨f, hf, .inl (internalId_eq hinit hext)⟩

/-- What the code of a slot's function calls. -/
theorem target (h : ctx.Complete) (hcompiles : Compiles emitter ctx.spidir) (hid : function ∈ ctx.slotIds) {blob : Blob}
    (hblob : emitter function = some blob) {r : Reloc} (hr : r ∈ blob.relocs) (htarget : r.target = .internal id) : id ∈ ctx.slotIds := by
  obtain ⟨body, hbody⟩ := h.body hid
  exact h.internal (htarget ▸ hcompiles function body blob hbody hblob r hr)

end JitContext.Complete

/-! ### The code generation -/

/-- All functions that were placed or queued are those of slots. -/
structure OfSlots (ctx : JitContext) (cg : Codegen) : Prop where
  placed : ∀ f ∈ cg.functions, f.function ∈ ctx.slotIds
  queued : ∀ id ∈ cg.queue, id ∈ ctx.slotIds

theorem ofSlots_start (ctx : JitContext) : OfSlots ctx {} := ⟨fun _ hf => absurd hf List.not_mem_nil, fun _ hid => absurd hid List.not_mem_nil⟩

theorem queueTargets_ofSlots {relocs : List Reloc} (h : OfSlots ctx cg)
    (hrelocs : ∀ r ∈ relocs, ∀ id, r.target = .internal id → id ∈ ctx.slotIds) : OfSlots ctx (queueTargets relocs cg) := by
  induction relocs generalizing cg with
  | nil => exact h
  | cons reloc relocs ih =>
    have rest : ∀ r ∈ relocs, ∀ id, r.target = .internal id → id ∈ ctx.slotIds := fun r hr => hrelocs r (List.mem_cons_of_mem _ hr)
    have first := hrelocs reloc List.mem_cons_self
    rw [queueTargets, List.foldl_cons]
    cases htarget : reloc.target with
    | internal id =>
      simp only
      split_ifs
      · exact ih h rest
      · exact ih ⟨h.placed, List.forall_mem_cons.mpr ⟨first id htarget, h.queued⟩⟩ rest
    | _ => exact ih h rest

/-- A function of a slot. -/
theorem jitCodegenFunction_ofSlots (hctx : ctx.Complete) (hcompiles : Compiles emitter ctx.spidir) (hid : function ∈ ctx.slotIds) :
    Ensures (OfSlots ctx) (jitCodegenFunction emitter function) fun _ => OfSlots ctx := by
  intro cg _ cg' h hrun
  obtain ⟨-, rfl⟩ | ⟨-, funcToIdx, blob, -, hemit, rfl⟩ := jitCodegenFunction_eq_some.mp hrun
  · exact h
  · refine queueTargets_ofSlots ?_ fun r hr id htarget => hctx.target hcompiles hid hemit hr htarget
    obtain ⟨f, codeSize, rodataSize, -, hfunction, hplace⟩ := place_eq { cg with funcToIdx } function blob
    rw [hplace]
    refine ⟨fun g hg => ?_, h.queued⟩
    obtain hg | hg := List.mem_append.mp hg
    · exact h.placed g hg
    · rw [List.mem_singleton.mp hg, hfunction]
      exact hid

/-- The functions of a prepared slot. -/
theorem prepared_slotIds (hf : ctx.functions[funcidx]? = some f) (hinit : f.inited = true) :
    (f.spidir.external = false → f.spidir.id ∈ ctx.slotIds) ∧ (f.hasCfi = true → f.cfiThunk ∈ ctx.slotIds) := by
  have hmem := List.mem_of_getElem? hf
  refine ⟨fun hext => JitContext.mem_slotIds.mpr ⟨f, hmem, .inl (internalId_eq hinit hext)⟩, fun hcfi => ?_⟩
  exact JitContext.mem_slotIds.mpr ⟨f, hmem, .inr (if_pos hcfi)⟩

end SpidirWasm.Jit
