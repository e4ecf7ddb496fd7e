import SpidirWasm.Jit.DebugMaps
import SpidirWasm.Jit.LinkProgress

/-! What the linker looks up is there: the functions and thunks because the code generation
emits all that is referred to, the external functions because they are helpers or imports,
the used tables because they are laid out, and the owners of the code because all of it is that
of slots. -/

namespace SpidirWasm.Jit

open Checked
open Util (Hmap)
open Wasm (WasmModule FuncType Name)

variable {emitter : Emitter} {ctx : JitContext} {cg cg' : Codegen} {i fuel id : ℕ} {l : Linker}

/-! ### Imports -/

/-- A program that enters no import. -/
abbrev KeepsImports {α : Type} (m : Checked Codegen α) : Prop := SpidirWasm.Moves (fun _ _ => False) Codegen.imports m

instance (function : ℕ) : KeepsImports (jitCodegenFunction emitter function) := .still fun cg _ cg' h => by
  obtain ⟨-, rfl⟩ | ⟨-, funcToIdx, blob, -, -, rfl⟩ := jitCodegenFunction_eq_some.mp h
  · rfl
  · obtain ⟨f, codeSize, rodataSize, rfl, -, hplace⟩ := place_eq { cg with funcToIdx } function blob
    rw [hplace]
    obtain ⟨queue, hqueue⟩ := queueTargets_eq f.blob.relocs { cg with funcToIdx, functions := cg.functions ++ [f], codeSize, rodataSize }
    rw [hqueue]

instance (funcidx : ℕ) : KeepsImports (jitTryCodegenFunction emitter ctx funcidx) := by
  unfold jitTryCodegenFunction; infer_instance

instance (queue : Codegen → List ℕ) : KeepsImports (update fun cg => { cg with queue := queue cg }) := .still fun _ _ _ h => by
  cases h
  rfl

instance codegenQueue_keepsImports (fuel : ℕ) : KeepsImports (codegenQueue emitter fuel) := by
  induction fuel with
  | zero => unfold codegenQueue; infer_instance
  | succ fuel ih =>
    unfold codegenQueue
    refine .seq inferInstance fun queue => ?_
    cases queue <;> infer_instance

/-- The imports below `i` were prepared, and they are in the map. -/
structure ImportsEntered (ctx : JitContext) (i : ℕ) (cg : Codegen) : Prop where
  wf : cg.imports.Wf
  found : ∀ (j : ℕ) (item : Wasm.WasmImport), j < i → ctx.module.imports[j]? = some item → item.kind = .func →
    ∃ f, ctx.functions[j]? = some f ∧ f.inited = true ∧ (cg.imports.lookup f.spidir.id).isSome

theorem codegenImports_entered {imports : List Wasm.WasmImport} (h : ImportsEntered ctx i cg) (hrest : ctx.module.imports.drop i = imports)
    (hrun : codegenImports ctx i imports cg = some ((), cg')) : ImportsEntered ctx ctx.module.imports.length cg' := by
  induction imports generalizing i cg with
  | nil =>
    obtain ⟨-, rfl⟩ := Prod.mk.inj (Option.some.inj hrun)
    have past : ctx.module.imports.length ≤ i := List.drop_eq_nil_iff.mp hrest
    exact ⟨h.wf, fun j item hj => h.found j item (by omega)⟩
  | cons item imports ih =>
    obtain ⟨hitem, later⟩ := of_drop_eq_cons hrest
    rw [codegenImports] at hrun
    split_ifs at hrun with hkind
    · simp only [lift_bind_eq_some, check_bind_eq_some, read_bind, update_bind] at hrun
      obtain ⟨func, hfunc, hinit, -, map, hinsert, hrun⟩ := hrun
      obtain ⟨wf, found⟩ := Hmap.insert_eq_some h.wf hinsert
      have next : ImportsEntered ctx (i + 1) { cg with imports := map } := by
        refine ⟨wf, fun j item' hj hitem' hkind' => ?_⟩
        obtain hlt | rfl := Nat.lt_succ_iff_lt_or_eq.mp hj
        · obtain ⟨f, hf, hfinit, hold⟩ := h.found j item' hlt hitem' hkind'
          refine ⟨f, hf, hfinit, ?_⟩
          rw [found]
          split_ifs
          · rfl
          · exact hold
        · exact ⟨func, hfunc, hinit, by rw [found, if_pos rfl]; rfl⟩
      exact ih next later hrun
    · have next : ImportsEntered ctx (i + 1) cg := by
        refine ⟨h.wf, fun j item' hj hitem' hkind' => ?_⟩
        obtain hlt | rfl := Nat.lt_succ_iff_lt_or_eq.mp hj
        · exact h.found j item' hlt hitem' hkind'
        · exact absurd (Option.some.inj (hitem.symm.trans hitem') ▸ hkind') hkind
      exact ih next later hrun

/-- Behind the code generation every function import is in the map. -/
theorem jitCodegenFunctions_imports (hrun : jitCodegenFunctions emitter ctx fuel {} = some ((), cg)) :
    ImportsEntered ctx ctx.module.imports.length cg := by
  rw [jitCodegenFunctions] at hrun
  obtain ⟨_, cg₁, hexports, hrun₁⟩ := (bind_eq_some _ _ _ _).mp hrun
  obtain ⟨_, cg₂, himports, hrest⟩ := (bind_eq_some _ _ _ _).mp hrun₁
  have exported : KeepsImports (ctx.module.exports.forM fun e => if e.kind = .func then jitTryCodegenFunction emitter ctx e.index else pure ()) :=
    inferInstance
  have empty : cg₁.imports = {} := exported.same hexports
  have entered := codegenImports_entered ⟨empty ▸ Hmap.empty_wf, fun j _ hj => absurd hj (Nat.not_lt_zero j)⟩ rfl himports
  have rest : cg.imports = cg₂.imports := by
    refine Moves.same ?_ hrest
    infer_instance
  exact ⟨rest ▸ entered.wf, rest ▸ entered.found⟩

/-! ### Functions -/

/-- What the code generation leaves for the linker. -/
structure Codegen.Links (emitter : Emitter) (ctx : JitContext) (cg : Codegen) : Prop where
  blobs : ∀ f ∈ cg.functions, emitter f.function = some f.blob
  index : ∀ id, jitCodegenVisitedFunction cg id = true → ∃ i g, cg.funcToIdx.lookup id = some i ∧ cg.functions[i]? = some g
  visited : ∀ id, cg.LooksUp ctx id → jitCodegenVisitedFunction cg id = true
  imports : ImportsEntered ctx ctx.module.imports.length cg

theorem codegenAll_links (hctx : ctx.Complete) (hrun : codegenAll emitter ctx fuel {} = some ((), cg)) : cg.Links emitter ctx := by
  obtain ⟨_, cg₁, hfunctions, htables⟩ := (bind_eq_some _ _ _ _).mp hrun
  obtain ⟨emitted, -⟩ := jitCodegenFunctions_emitted hfunctions
  have imports := jitCodegenFunctions_imports hfunctions
  obtain ⟨rodataSize, globalOffsets, rfl⟩ := codegenTables_kept htables
  refine ⟨emitted.blobs, fun id hid => ?_, fun id hid => ?_, ⟨imports.wf, imports.found⟩⟩
  · obtain ⟨i, hi⟩ := Option.isSome_iff_exists.mp hid
    obtain ⟨g, hg, -⟩ := Option.map_eq_some_iff.mp ((emitted.index id i).mp hi)
    exact ⟨i, g, hi, hg⟩
  · have before : cg₁.LooksUp ctx id := by
      cases hid with
      | reloc hf hr htarget => exact .reloc hf hr htarget
      | exported he hkind hfunc hinternal => exact .exported he hkind hfunc hinternal
      | start hstart hfunc hinternal => exact .start hstart hfunc hinternal
      | slot helem hi hfunc => exact .slot helem hi hfunc
    have visited := Codegen.LooksUp.visited hfunctions hctx.listed before
    exact visited

/-- The code generation succeeds only where every function import was prepared. -/
theorem Codegen.Links.prepared (h : cg.Links emitter ctx) : ctx.ImportsPrepared := by
  intro i item hitem hkind
  obtain ⟨f, hf, hinit, -⟩ := h.imports.found i item (List.getElem?_eq_some_iff.mp hitem).1 hitem hkind
  exact ⟨f, hf, hinit⟩

/-! ### Helpers -/

theorem HelperKind.mem_all (kind : HelperKind) : kind ∈ HelperKind.all := by
  cases kind with
  | fUnary is64 op => cases is64 <;> cases op <;> decide
  | fBinary is64 op => cases is64 <;> cases op <;> decide
  | truncSat out64 in64 unsigned => cases out64 <;> cases in64 <;> cases unsigned <;> decide
  | atomicLoad w => cases w <;> decide
  | atomicStore w => cases w <;> decide
  | atomicRmw op w => cases op <;> cases w <;> decide
  | _ => decide

/-- Every helper that was declared has an address. -/
theorem jitHelperLookupAddress_isSome {host : JitHost} {kind : HelperKind} {func : Spidir.FuncRef} (h : ctx.helpers kind = some func) :
    (jitHelperLookupAddress host ctx func.id).isSome := by
  rw [jitHelperLookupAddress, Option.isSome_map, List.find?_isSome]
  refine ⟨kind, kind.mem_all, ?_⟩
  rw [h]
  simp

/-! ### Targets -/

/-- What the code can refer to is known, but for the libcalls. -/
theorem Codegen.Links.knows (h : cg.Links emitter ctx) (hctx : ctx.Complete) (htables : TablesLaid ctx ctx.tables.length cg)
    (hl : l.ctx = ctx) {pageSize : ℕ} (hcodegen : l.codegen = cg.pages pageSize) {f : FunctionCodegen} {r : Reloc} (hf : f ∈ cg.functions) (hr : r ∈ f.blob.relocs) (htarget : r.target.In ctx.spidir)
    (hlibcall : ∀ kind, r.target = .libcall kind → (l.host.resolveLibcall kind).isSome) : l.Knows r.target := by
  cases hrt : r.target with
  | constpool => trivial
  | global id =>
    rw [hrt] at htarget
    obtain ⟨t, ht, hused, rfl⟩ : ctx.Addressable id := hctx.provides _ htarget
    obtain ⟨i, hi⟩ := List.mem_iff_getElem?.mp ht
    obtain ⟨hlt, -⟩ := List.getElem?_eq_some_iff.mp hi
    obtain ⟨offset, hoffset, -⟩ := htables.slots i hlt t hi hused
    show (l.codegen.globalOffsets.lookup t.global).isSome
    rw [hcodegen, Codegen.pages, hoffset]
    rfl
  | internal id =>
    show ∃ i g, l.codegen.funcToIdx.lookup id = some i ∧ l.codegen.functions[i]? = some g
    rw [hcodegen]
    exact h.index id (h.visited id (.reloc hf hr hrt))
  | external id =>
    rw [hrt] at htarget
    obtain ⟨callee, args, hcall, hext, rfl⟩ := htarget
    show (jitHelperLookupAddress l.host l.ctx callee.id).isSome ∨ (l.codegen.imports.lookup callee.id).isSome
    rw [hl, hcodegen]
    obtain ⟨kind, hkind⟩ | ⟨g, hg, hinit, rfl⟩ : ctx.Callable callee := hctx.provides _ hcall
    · exact .inl (jitHelperLookupAddress_isSome hkind)
    · obtain ⟨i, hi⟩ := List.mem_iff_getElem?.mp hg
      have imported := hctx.numbered.imported i g hi hinit
      rw [if_pos hext] at imported
      obtain ⟨item, hitem, hkind⟩ := imported
      obtain ⟨g', hg', -, found⟩ := h.imports.found i item (List.getElem?_eq_some_iff.mp hitem).1 hitem hkind
      obtain rfl := Option.some.inj (hi.symm.trans hg')
      exact .inr found
  | libcall kind => exact hlibcall kind hrt

/-! ### Owners -/

/-- The maps of the capture have room. -/
structure MapsWithin (ctx : JitContext) (maps : DebugMaps) : Prop where
  func : maps.funcToFuncidx.Within ctx.slotIds
  external : maps.externToFuncidx.Within ctx.importIds
  cfi : maps.cfiToFuncidx.Within ctx.slotIds

variable {maps : DebugMaps} {f : JitFunction}

theorem prepareDebugMap_within (hfit : ctx.MapsFit) (h : MapsWithin ctx maps) (hf : f ∈ ctx.functions) (i : ℕ) :
    ∃ maps', prepareDebugMap maps i f = some maps' ∧ MapsWithin ctx maps' := by
  obtain ⟨j, hj⟩ := List.mem_iff_getElem?.mp hf
  have thunk {maps₁ : DebugMaps} (h₁ : MapsWithin ctx maps₁) : ∃ maps', (if f.hasCfi then
      (maps₁.cfiToFuncidx.insert true f.cfiThunk i).map fun cfiToFuncidx => { maps₁ with cfiToFuncidx } else some maps₁) = some maps' ∧
      MapsWithin ctx maps' := by
    split_ifs with hcfi
    · have key : f.cfiThunk ∈ ctx.slotIds := JitContext.mem_slotIds.mpr ⟨f, hf, .inr (if_pos hcfi)⟩
      obtain ⟨t, ht, within, -⟩ := h₁.cfi.insert hfit.slots key i
      exact ⟨{ maps₁ with cfiToFuncidx := t }, by rw [ht]; rfl, h₁.func, h₁.external, within⟩
    · exact ⟨maps₁, rfl, h₁⟩
  rw [prepareDebugMap]
  cases hinit : f.inited with
  | false => exact ⟨maps, rfl, h⟩
  | true =>
    rw [Bool.not_true, if_neg Bool.false_ne_true]
    by_cases hext : f.spidir.external = true
    · have key : f.spidir.id ∈ ctx.importIds := List.mem_toFinset.mpr (List.mem_filterMap.mpr ⟨f, hf, if_pos ⟨hinit, hext⟩⟩)
      obtain ⟨t, ht, within, -⟩ := h.external.insert hfit.imports key i
      rw [if_pos hext, ht]
      exact @thunk { maps with externToFuncidx := t } ⟨h.func, within, h.cfi⟩
    · have key := (prepared_slotIds hj hinit).1 (Bool.eq_false_iff.mpr hext)
      obtain ⟨t, ht, within, -⟩ := h.func.insert hfit.slots key i
      rw [if_neg hext, ht]
      exact @thunk { maps with funcToFuncidx := t } ⟨within, h.external, h.cfi⟩

theorem prepareDebugMaps_within (hfit : ctx.MapsFit) {rest : List JitFunction} (h : MapsWithin ctx maps) (hrest : ∀ f ∈ rest, f ∈ ctx.functions)
    (i : ℕ) : ∃ maps', prepareDebugMaps maps i rest = some maps' ∧ MapsWithin ctx maps' := by
  induction rest generalizing maps i with
  | nil => exact ⟨maps, rfl, h⟩
  | cons f rest ih =>
    obtain ⟨hf, hrest⟩ := List.forall_mem_cons.mp hrest
    obtain ⟨maps₁, hfirst, h₁⟩ := prepareDebugMap_within hfit h hf i
    obtain ⟨maps', hlater, h'⟩ := ih h₁ hrest (i + 1)
    exact ⟨maps', Option.bind_eq_some_iff.mpr ⟨maps₁, hfirst, hlater⟩, h'⟩

/-- The maps can be prepared, and they have the owner of every slot's function and thunk. -/
theorem captureMaps_owns (hctx : ctx.Complete) (hfit : ctx.MapsFit) (captureDebug : Bool) : ∃ maps, captureMaps captureDebug ctx = some maps ∧
    ∀ l : Linker, l.captureDebug = captureDebug → l.maps = maps → ∀ id ∈ ctx.slotIds, l.Owns id := by
  cases captureDebug with
  | false => exact ⟨{}, rfl, fun l hcapture _ id _ hdebug => by rw [hcapture] at hdebug; cases hdebug⟩
  | true =>
    have start : MapsWithin ctx {} := ⟨Hmap.empty_within _, Hmap.empty_within _, Hmap.empty_within _⟩
    obtain ⟨maps, hmaps, -⟩ := prepareDebugMaps_within hfit start (fun _ hf => hf) 0
    refine ⟨maps, hmaps, fun l _ hl id hid _ => ?_⟩
    obtain ⟨f, hf, hnum⟩ := JitContext.mem_slotIds.mp hid
    obtain ⟨j, hj⟩ := List.mem_iff_getElem?.mp hf
    obtain ⟨func, -, cfi⟩ := prepareDebugMaps_lookup hctx.numbered hmaps id j
    rw [Linker.owner, hl]
    cases hfunc : maps.funcToFuncidx.lookup id with
    | some funcidx => rfl
    | none =>
      obtain hnum | hnum := hnum
      · rw [func.mpr ⟨f, hj, hnum⟩] at hfunc
        cases hfunc
      · show ((maps.cfiToFuncidx.lookup id).map (·, true)).isSome
        rw [cfi.mpr ⟨f, hj, hnum⟩]
        rfl

end SpidirWasm.Jit
