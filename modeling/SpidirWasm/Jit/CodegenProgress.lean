import SpidirWasm.Jit.CodegenLayout
import SpidirWasm.Jit.SpidirCode
import SpidirWasm.Logic.Achieving

/-! When the code generation gets to the layout. Emission and code generation agree on which
slots are prepared, the maps have room, and the queue runs dry because no function is emitted
twice; what is left are the function imports, each of which has to be prepared. -/

namespace SpidirWasm.Jit

open Checked
open Util (Hmap)

/-- The ids of the imports that were prepared. -/
def JitContext.importIds (ctx : JitContext) : Finset ℕ := (ctx.functions.filterMap JitFunction.externalId).toFinset

/-- The functions and thunks, the imports and the tables are no more than a map holds. -/
structure JitContext.MapsFit (ctx : JitContext) : Prop where
  slots : ctx.slotIds.card ≤ Hmap.maxKeys
  imports : ctx.importIds.card ≤ Hmap.maxKeys
  tables : ctx.tables.length ≤ Hmap.maxKeys

/-- Spidir emits every graph. -/
def EmitsAll (emitter : Emitter) (spidir : SpidirModule) : Prop := ∀ id body, spidir.bodies id = some body → (emitter id).isSome

/-- Every function import was prepared. -/
def JitContext.ImportsPrepared (ctx : JitContext) : Prop := ∀ (i : ℕ) (item : Wasm.WasmImport), ctx.module.imports[i]? = some item →
  item.kind = .func → ctx.IsPrepared i

/-- Nothing stands in the way of going on. -/
structure Ready (ctx : JitContext) (cg : Codegen) : Prop extends OfSlots ctx cg where
  index : cg.funcToIdx.Within ctx.slotIds
  imports : cg.imports.Within ctx.importIds
  offsets : cg.globalOffsets.Within (Finset.range ctx.tables.length)

variable {emitter : Emitter} {ctx : JitContext} {cg cg' : Codegen} {function funcidx : ℕ}

theorem ready_start (ctx : JitContext) : Ready ctx {} := ⟨ofSlots_start ctx, Hmap.empty_within _, Hmap.empty_within _, Hmap.empty_within _⟩

/-! ### The functions -/

/-- The functions of slots that were not emitted yet. -/
def JitContext.unvisited (ctx : JitContext) (cg : Codegen) : Finset ℕ :=
  ctx.slotIds.filter fun id => jitCodegenVisitedFunction cg id = false

/-- A function that is emitted is no longer among them. -/
theorem unvisited_ssubset (hwf : cg.funcToIdx.Wf) (hid : function ∈ ctx.slotIds) (hv : jitCodegenVisitedFunction cg function = false)
    (hrun : jitCodegenFunction emitter function cg = some ((), cg')) : ctx.unvisited cg' ⊂ ctx.unvisited cg := by
  have visited := jitCodegenFunction_visited hwf hrun
  rw [Finset.ssubset_iff_of_subset]
  · refine ⟨function, Finset.mem_filter.mpr ⟨hid, hv⟩, fun hmem => ?_⟩
    have seen := (visited function).mpr (.inl rfl)
    rw [(Finset.mem_filter.mp hmem).2] at seen
    cases seen
  · intro id hmem
    obtain ⟨hslot, hunseen⟩ := Finset.mem_filter.mp hmem
    refine Finset.mem_filter.mpr ⟨hslot, Bool.eq_false_iff.mpr fun hseen => ?_⟩
    rw [(visited id).mpr (.inr hseen)] at hunseen
    cases hunseen

section Functions

variable (hctx : ctx.Complete) (hcompiles : Compiles emitter ctx.spidir) (hemits : EmitsAll emitter ctx.spidir) (hfit : ctx.MapsFit)

include hctx hcompiles hemits hfit

/-- A function of a slot is emitted. -/
theorem jitCodegenFunction_ready (hid : function ∈ ctx.slotIds) :
    Achieves (Ready ctx) (jitCodegenFunction emitter function) fun _ => Ready ctx := by
  intro cg h
  cases hv : jitCodegenVisitedFunction cg function with
  | true => exact ⟨(), cg, jitCodegenFunction_eq_some.mpr (.inl ⟨hv, rfl⟩), h⟩
  | false =>
    obtain ⟨funcToIdx, hinsert, within, -⟩ := h.index.insert hfit.slots hid cg.functions.length
    obtain ⟨body, hbody⟩ := hctx.body hid
    obtain ⟨blob, hblob⟩ := Option.isSome_iff_exists.mp (hemits function body hbody)
    have run := jitCodegenFunction_eq_some.mpr (.inr ⟨hv, funcToIdx, blob, hinsert, hblob, rfl⟩)
    have slots := jitCodegenFunction_ofSlots hctx hcompiles hid cg () _ h.toOfSlots run
    obtain ⟨f, codeSize, rodataSize, rfl, -, hplace⟩ := place_eq { cg with funcToIdx } function blob
    rw [hplace] at run slots
    obtain ⟨queue, hqueue⟩ := queueTargets_eq f.blob.relocs { cg with funcToIdx, functions := cg.functions ++ [f], codeSize, rodataSize }
    rw [hqueue] at run slots
    exact ⟨(), _, run, slots, within, h.imports, h.offsets⟩

theorem jitTryCodegenFunction_ready (hprepared : ctx.IsPrepared funcidx) :
    Achieves (Ready ctx) (jitTryCodegenFunction emitter ctx funcidx) fun _ => Ready ctx := by
  obtain ⟨f, hf, hinit⟩ := hprepared
  obtain ⟨self, thunk⟩ := prepared_slotIds hf hinit
  rw [jitTryCodegenFunction_eq]
  refine .liftBind hf (.checkBind hinit (.bind (Q := fun _ => Ready ctx) ?_ fun _ => ?_))
  · exact .ite (fun hext => jitCodegenFunction_ready hctx hcompiles hemits hfit (self hext)) fun _ => .pure fun _ h => h
  · exact .ite (fun hcfi => jitCodegenFunction_ready hctx hcompiles hemits hfit (thunk hcfi)) fun _ => .pure fun _ h => h

/-- The queue runs dry: a function of it that is emitted leaves fewer functions to emit, and else the queue is shorter. -/
theorem codegenQueue_ready (h : Ready ctx cg) : ∃ n, ∀ fuel, n ≤ fuel → ∃ cg', codegenQueue emitter fuel cg = some ((), cg') ∧ Ready ctx cg' := by
  generalize hmeasure : (ctx.unvisited cg).card = u
  generalize hlength : cg.queue.length = q
  induction u using Nat.strong_induction_on generalizing cg q with
  | _ u outer =>
    induction q generalizing cg with
    | zero =>
      refine ⟨1, fun fuel hfuel => ⟨cg, ?_, h⟩⟩
      obtain ⟨fuel, rfl⟩ : ∃ k, fuel = k + 1 := ⟨fuel - 1, by omega⟩
      rw [codegenQueue, read_bind, List.length_eq_zero_iff.mp hlength]
      rfl
    | succ q inner =>
      obtain ⟨function, queue, hqueue⟩ := List.exists_cons_of_length_eq_add_one hlength
      obtain ⟨first, rest⟩ := List.forall_mem_cons.mp (hqueue ▸ h.queued)
      have popped : Ready ctx { cg with queue } := ⟨⟨h.placed, rest⟩, h.index, h.imports, h.offsets⟩
      obtain ⟨_, cg₁, hrun, ready⟩ := jitCodegenFunction_ready hctx hcompiles hemits hfit first _ popped
      have more : ∃ n, ∀ fuel, n ≤ fuel → ∃ cg', codegenQueue emitter fuel cg₁ = some ((), cg') ∧ Ready ctx cg' := by
        obtain ⟨-, rfl⟩ | ⟨hv, -⟩ := jitCodegenFunction_eq_some.mp hrun
        · rw [hqueue] at hlength
          exact inner popped hmeasure (Nat.succ.inj hlength)
        · have fewer := unvisited_ssubset popped.index.toWf first hv hrun
          exact outer _ (hmeasure ▸ Finset.card_lt_card fewer) ready rfl _ rfl
      obtain ⟨n, hn⟩ := more
      refine ⟨n + 1, fun fuel hfuel => ?_⟩
      obtain ⟨fuel, rfl⟩ : ∃ k, fuel = k + 1 := ⟨fuel - 1, by omega⟩
      obtain ⟨cg', hrest, hready⟩ := hn fuel (by omega)
      refine ⟨cg', ?_, hready⟩
      rw [codegenQueue, read_bind, hqueue]
      simp only [update_bind]
      exact (bind_eq_some _ _ _ _).mpr ⟨(), cg₁, hrun, hrest⟩

end Functions

/-! ### The imports -/

/-- An import that was prepared is entered, under the id of an external function. -/
theorem codegenImports_ready (hctx : ctx.Complete) (hfit : ctx.MapsFit) (hprepared : ctx.ImportsPrepared) {i : ℕ} {imports : List Wasm.WasmImport}
    (hrest : ctx.module.imports.drop i = imports) : Achieves (Ready ctx) (codegenImports ctx i imports) fun _ => Ready ctx := by
  induction imports generalizing i with
  | nil => exact .pure fun _ h => h
  | cons item imports ih =>
    obtain ⟨hitem, later⟩ := of_drop_eq_cons hrest
    rw [codegenImports]
    by_cases hkind : item.kind = .func
    · obtain ⟨f, hf, hinit⟩ := hprepared i item hitem hkind
      have hext : f.spidir.external = true := by
        have kind := hctx.numbered.imported i f hf hinit
        split_ifs at kind with hext
        · exact hext
        · exact absurd (List.getElem?_eq_some_iff.mp hitem).1 (Nat.not_lt.mpr kind)
      have known : f.spidir.id ∈ ctx.importIds :=
        List.mem_toFinset.mpr (List.mem_filterMap.mpr ⟨f, List.mem_of_getElem? hf, if_pos ⟨hinit, hext⟩⟩)
      rw [if_pos hkind]
      refine .liftBind hf (.checkBind hinit (.checkBind hext fun cg h => ?_))
      obtain ⟨map, hinsert, within, -⟩ := h.imports.insert hfit.imports known f.address
      obtain ⟨_, cg', hrun, ready⟩ := ih later { cg with imports := map } ⟨⟨h.placed, h.queued⟩, h.index, within, h.offsets⟩
      refine ⟨(), cg', ?_, ready⟩
      simp only [read_bind, lift_bind_eq_some, update_bind]
      exact ⟨map, hinsert, hrun⟩
    · rw [if_neg hkind]
      exact ih later

/-! ### The tables -/

theorem codegenTable_ready {table : JitTable} (hfit : ctx.MapsFit) (hglobal : table.global < ctx.tables.length) :
    Achieves (Ready ctx) (codegenTable table) fun _ => Ready ctx := by
  intro cg h
  have room : (Finset.range ctx.tables.length).card ≤ Hmap.maxKeys := (Finset.card_range _).trans_le hfit.tables
  obtain ⟨map, hinsert, within, -⟩ := h.offsets.insert room (Finset.mem_range.mpr hglobal) (sizeT (alignUp cg.rodataSize 8))
  by_cases hused : table.used = true
  · refine ⟨(), { cg with
      rodataSize := sizeT (sizeT (alignUp cg.rodataSize 8) + 8 * table.length)
      globalOffsets := map }, ?_, ⟨h.placed, h.queued⟩, h.index, h.imports, within⟩
    rw [codegenTable, if_pos hused]
    simp only [read_bind, update_bind, lift_bind_eq_some]
    exact ⟨map, hinsert, rfl⟩
  · refine ⟨(), cg, ?_, h⟩
    rw [codegenTable, if_neg hused]
    rfl

theorem jitCodegenTables_ready (hctx : ctx.Complete) (hfit : ctx.MapsFit) : Achieves (Ready ctx) (jitCodegenTables ctx) fun _ => Ready ctx := by
  refine .forFrom fun i _ hi => ?_
  have hlt : i < ctx.tables.length := by
    rw [hctx.tableCount]
    omega
  refine .liftBind (List.getElem?_eq_getElem hlt) (codegenTable_ready hfit ?_)
  rw [hctx.tableIds i _ (List.getElem?_eq_getElem hlt)]
  exact hlt

/-! ### The code generation -/

/-- With every function import prepared, the code generation gets to the layout. -/
theorem codegenAll_ready (hctx : ctx.Complete) (hcompiles : Compiles emitter ctx.spidir) (hemits : EmitsAll emitter ctx.spidir)
    (hfit : ctx.MapsFit) (hprepared : ctx.ImportsPrepared) :
    ∃ n, ∀ fuel, n ≤ fuel → ∃ cg, codegenAll emitter ctx fuel {} = some ((), cg) ∧ Ready ctx cg := by
  have function {i : ℕ} (hi : ctx.IsPrepared i) := jitTryCodegenFunction_ready hctx hcompiles hemits hfit hi
  have exports : Achieves (Ready ctx) (ctx.module.exports.forM fun e => if e.kind = .func then jitTryCodegenFunction emitter ctx e.index else pure ())
      fun _ => Ready ctx := .forMem fun e he => .ite (fun hkind => function (hctx.exported e he hkind)) fun _ => .pure fun _ h => h
  have imports : Achieves (Ready ctx) (codegenImports ctx 0 ctx.module.imports) fun _ => Ready ctx := codegenImports_ready hctx hfit hprepared rfl
  have elems : Achieves (Ready ctx) (ctx.module.elems.forM fun elem => elem.funcs.forM fun i => jitTryCodegenFunction emitter ctx i)
      fun _ => Ready ctx := .forMem fun elem helem => .forMem fun i hi => function (by
    obtain ⟨f, hf, hcfi⟩ := hctx.listed elem helem i hi
    exact ⟨f, hf, hctx.numbered.prepared i f hf hcfi⟩)
  obtain ⟨_, cg₁, hexports, h₁⟩ := exports {} (ready_start ctx)
  obtain ⟨_, cg₂, himports, h₂⟩ := imports cg₁ h₁
  obtain ⟨_, cg₃, helems, h₃⟩ := elems cg₂ h₂
  have roots : ∃ cg₄, Ready ctx cg₄ ∧ ∀ fuel, jitCodegenFunctions emitter ctx fuel {} = codegenQueue emitter fuel cg₄ := by
    have first (fuel : ℕ) : jitCodegenFunctions emitter ctx fuel {} = (if 0 ≤ ctx.module.startFunc then
        jitTryCodegenFunction emitter ctx ctx.module.startFunc.toNat >>= fun _ => codegenQueue emitter fuel
      else codegenQueue emitter fuel) cg₃ := by
      rw [jitCodegenFunctions, bind_apply, hexports, Option.bind_some, bind_apply, himports, Option.bind_some, bind_apply, helems]
      rfl
    by_cases hstart : 0 ≤ ctx.module.startFunc
    · obtain ⟨_, cg₄, hrun, h₄⟩ := function (hctx.started hstart) cg₃ h₃
      refine ⟨cg₄, h₄, fun fuel => ?_⟩
      rw [first, if_pos hstart, bind_apply, hrun]
      rfl
    · refine ⟨cg₃, h₃, fun fuel => ?_⟩
      rw [first, if_neg hstart]
  obtain ⟨cg₄, h₄, hqueue⟩ := roots
  obtain ⟨n, hn⟩ := codegenQueue_ready hctx hcompiles hemits hfit h₄
  refine ⟨n, fun fuel hfuel => ?_⟩
  obtain ⟨cg₅, hrun, h₅⟩ := hn fuel hfuel
  obtain ⟨_, cg, htables, h⟩ := jitCodegenTables_ready hctx hfit cg₅ h₅
  exact ⟨cg, (bind_eq_some _ _ _ _).mpr ⟨(), cg₅, (hqueue fuel).trans hrun, htables⟩, h⟩

end SpidirWasm.Jit
