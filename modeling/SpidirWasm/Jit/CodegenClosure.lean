import SpidirWasm.Jit.Codegen
import SpidirWasm.Jit.EmitClosure

/-! Which functions the code generation emits. A function is entered in the index map before
its blob is known, and what the blob refers to is entered or queued; when the queue is empty,
everything that the linker looks up is in the map. -/

namespace SpidirWasm.Jit

open Checked
open Util (Hmap)
open Wasm (WasmModule FuncType Name)

/-- The function at an index. -/
def Codegen.functionAt (cg : Codegen) (i : ℕ) : Option ℕ := cg.functions[i]?.map FunctionCodegen.function

/-- Between two calls: the map finds the functions of the list, at their indices, and what
their blobs refer to is in the map, queued, or `pending`. -/
structure Emitted (emitter : Emitter) (pending : List ℕ) (cg : Codegen) : Prop where
  wf : cg.funcToIdx.Wf
  index : ∀ id i, cg.funcToIdx.lookup id = some i ↔ cg.functionAt i = some id
  blobs : ∀ f ∈ cg.functions, emitter f.function = some f.blob
  closed : ∀ f ∈ cg.functions, ∀ r ∈ f.blob.relocs, ∀ id, r.target = .internal id →
    jitCodegenVisitedFunction cg id = true ∨ id ∈ pending ++ cg.queue

/-- What the code generation does not take back. -/
structure Codegen.Grows (cg cg' : Codegen) : Prop where
  visited : ∀ id, jitCodegenVisitedFunction cg id = true → jitCodegenVisitedFunction cg' id = true

theorem Codegen.Grows.refl (cg : Codegen) : cg.Grows cg := ⟨fun _ => id⟩

theorem Codegen.Grows.trans {cg cg' cg'' : Codegen} (h : cg.Grows cg') (h' : cg'.Grows cg'') : cg.Grows cg'' :=
  ⟨fun id hid => h'.visited id (h.visited id hid)⟩

variable {emitter : Emitter} {pending : List ℕ} {cg cg' : Codegen} {ctx : JitContext} {function funcidx : ℕ}

/-- No function is listed twice. -/
theorem Emitted.nodup (h : Emitted emitter pending cg) : (cg.functions.map FunctionCodegen.function).Nodup := by
  rw [List.Nodup, List.pairwise_iff_getElem]
  intro i j hi hj hij hsame
  have found (k : ℕ) (hk : k < (cg.functions.map FunctionCodegen.function).length) :
      cg.funcToIdx.lookup (cg.functions.map FunctionCodegen.function)[k] = some k := by
    rw [h.index, Codegen.functionAt, ← List.getElem?_map, List.getElem?_eq_getElem hk]
  have same := found i hi
  rw [hsame, found j hj] at same
  exact hij.ne' (Option.some.inj same)

theorem emitted_start : Emitted emitter [] {} where
  wf := Hmap.empty_wf
  index id i := by simp [Codegen.functionAt, Hmap.lookup, Hmap.findSlot]
  blobs f hf := by cases hf
  closed f hf := by cases hf

/-- Queueing keeps the queue, and it queues every target that was not visited. -/
theorem queueTargets_closed (relocs : List Reloc) (cg : Codegen) : (∀ id ∈ cg.queue, id ∈ (queueTargets relocs cg).queue) ∧
    ∀ r ∈ relocs, ∀ id, r.target = .internal id →
      jitCodegenVisitedFunction cg id = true ∨ id ∈ (queueTargets relocs cg).queue := by
  induction relocs generalizing cg with
  | nil => exact ⟨fun _ h => h, fun r hr => by cases hr⟩
  | cons reloc relocs ih =>
    set first : Codegen := queueTargets [reloc] cg with hfirst
    obtain ⟨hkept, hqueued⟩ : (∀ id ∈ first.queue, id ∈ (queueTargets (reloc :: relocs) cg).queue) ∧
        ∀ r ∈ relocs, ∀ id, r.target = .internal id →
          jitCodegenVisitedFunction first id = true ∨ id ∈ (queueTargets (reloc :: relocs) cg).queue := ih first
    have same : first.funcToIdx = cg.funcToIdx ∧ (∀ id ∈ cg.queue, id ∈ first.queue) ∧
        ∀ id, reloc.target = .internal id → jitCodegenVisitedFunction cg id = true ∨ id ∈ first.queue := by
      rw [hfirst, queueTargets, List.foldl_cons, List.foldl_nil]
      cases reloc.target with
      | internal id =>
        by_cases hv : jitCodegenVisitedFunction cg id = true
        · simp [hv]
        · simp only [hv, Bool.false_eq_true, if_false, RelocTarget.internal.injEq, true_and]
          exact ⟨fun _ h => List.mem_cons_of_mem _ h, fun id' he => .inr (he ▸ List.mem_cons_self)⟩
      | _ => simp
    obtain ⟨hmap, hqueue, htarget⟩ := same
    refine ⟨fun id hid => hkept id (hqueue id hid), fun r hr id hid => ?_⟩
    obtain rfl | hr := List.mem_cons.mp hr
    · exact (htarget id hid).imp_right (hkept id)
    · have := hqueued r hr id hid
      rwa [jitCodegenVisitedFunction, hmap] at this

/-- Placing a blob adds an entry for it at the end. -/
theorem place_eq (cg : Codegen) (function : ℕ) (blob : Blob) : ∃ f codeSize rodataSize, f.blob = blob ∧ f.function = function ∧
    cg.place function blob = { cg with functions := cg.functions ++ [f], codeSize, rodataSize } := by
  by_cases h : blob.constpool.length = 0
  · refine ⟨⟨blob, function, uint32 (placeCode cg.codeSize blob).1, 2 ^ 32 - 1⟩, (placeCode cg.codeSize blob).2, cg.rodataSize, rfl, rfl, ?_⟩
    simp [Codegen.place, h]
  · refine ⟨⟨blob, function, uint32 (placeCode cg.codeSize blob).1, uint32 (placePool cg.rodataSize blob).1⟩,
      (placeCode cg.codeSize blob).2, (placePool cg.rodataSize blob).2, rfl, rfl, ?_⟩
    simp [Codegen.place, h]

/-- A call leaves its function visited, and what was. -/
theorem jitCodegenFunction_visited (hwf : cg.funcToIdx.Wf) (hs : jitCodegenFunction emitter function cg = some ((), cg')) (id : ℕ) :
    jitCodegenVisitedFunction cg' id = true ↔ id = function ∨ jitCodegenVisitedFunction cg id = true := by
  obtain ⟨hv, rfl⟩ | ⟨-, funcToIdx, blob, hinsert, -, rfl⟩ := jitCodegenFunction_eq_some.mp hs
  · constructor
    · exact .inr
    · rintro (rfl | h)
      · exact hv
      · exact h
  · obtain ⟨f, codeSize, rodataSize, rfl, -, hplace⟩ := place_eq { cg with funcToIdx } function blob
    rw [hplace]
    obtain ⟨queue, hqueue⟩ := queueTargets_eq f.blob.relocs { cg with funcToIdx, functions := cg.functions ++ [f], codeSize, rodataSize }
    rw [hqueue]
    show (funcToIdx.lookup id).isSome = true ↔ _
    rw [(Hmap.insert_eq_some hwf hinsert).2, jitCodegenVisitedFunction]
    split_ifs with hid <;> simp [hid]

/-- A call enters its function. -/
theorem jitCodegenFunction_emitted (h : Emitted emitter (function :: pending) cg)
    (hs : jitCodegenFunction emitter function cg = some ((), cg')) :
    Emitted emitter pending cg' ∧ cg.Grows cg' ∧ jitCodegenVisitedFunction cg' function = true := by
  obtain ⟨hv, rfl⟩ | ⟨hv, funcToIdx, blob, hinsert, hemit, rfl⟩ := jitCodegenFunction_eq_some.mp hs
  · refine ⟨⟨h.wf, h.index, h.blobs, fun f hf r hr id hid => ?_⟩, .refl cg', hv⟩
    obtain hvisited | hid := h.closed f hf r hr id hid
    · exact .inl hvisited
    · obtain rfl | hid := List.mem_cons.mp hid
      · exact .inl hv
      · exact .inr hid
  · have visited := jitCodegenFunction_visited h.wf hs
    obtain ⟨f, codeSize, rodataSize, rfl, hfunction, hplace⟩ := place_eq { cg with funcToIdx } function blob
    rw [hplace] at visited ⊢
    set cg₁ : Codegen := { cg with funcToIdx, functions := cg.functions ++ [f], codeSize, rodataSize }
    obtain ⟨hkept, hqueued⟩ := queueTargets_closed f.blob.relocs cg₁
    obtain ⟨queue, hqueue⟩ := queueTargets_eq f.blob.relocs cg₁
    rw [hqueue] at hkept hqueued visited ⊢
    obtain ⟨wf, found⟩ := Hmap.insert_eq_some h.wf hinsert
    have absent : cg.funcToIdx.lookup function = none := by
      rwa [jitCodegenVisitedFunction, Option.isSome_eq_false_iff, Option.isNone_iff_eq_none] at hv
    refine ⟨⟨wf, fun id i => ?_, fun g hg => ?_, fun g hg r hr id hid => ?_⟩, ⟨fun id hid => (visited id).mpr (.inr hid)⟩,
      (visited function).mpr (.inl rfl)⟩
    · show funcToIdx.lookup id = some i ↔ (cg.functions ++ [f])[i]?.map FunctionCodegen.function = some id
      rw [found, List.getElem?_append]
      have before := h.index id i
      rw [Codegen.functionAt] at before
      split_ifs with hid hi hi
      · subst hid
        rw [← before, absent]
        simp [hi.ne']
      · subst hid
        rw [List.getElem?_singleton, hfunction.symm]
        split_ifs with he
        · simp [show cg.functions.length = i by omega]
        · simp [show cg.functions.length ≠ i by omega]
      · exact before
      · rw [before, List.getElem?_eq_none (not_lt.mp hi), List.getElem?_singleton]
        split_ifs
        · simp [hfunction, Ne.symm hid]
        · rfl
    · rcases List.mem_append.mp hg with hg | hg
      · exact h.blobs g hg
      · rw [List.mem_singleton.mp hg, hfunction, hemit]
    · rw [visited]
      rcases List.mem_append.mp hg with hg | hg
      · obtain hv | hid := h.closed g hg r hr id hid
        · exact .inl (.inr hv)
        · rw [List.cons_append, List.mem_cons, List.mem_append] at hid
          obtain rfl | hid | hid := hid
          · exact .inl (.inl rfl)
          · exact .inr (List.mem_append_left _ hid)
          · exact .inr (List.mem_append_right _ (hkept id hid))
      · obtain rfl := List.mem_singleton.mp hg
        refine (hqueued r hr id hid).imp (fun hv => ?_) fun hq => List.mem_append_right _ hq
        exact (visited id).mp hv

theorem Emitted.withPending (h : Emitted emitter [] cg) (ids : List ℕ) : Emitted emitter ids cg :=
  ⟨h.wf, h.index, h.blobs, fun f hf r hr id hid => (h.closed f hf r hr id hid).imp_right (List.mem_append_right ids)⟩

/-! ### Roots -/

/-- The function is prepared, and what is emitted for it is in the map: itself unless it is
an import, and its thunk. -/
def Codegen.Entered (ctx : JitContext) (funcidx : ℕ) (cg : Codegen) : Prop :=
  ∃ func, ctx.functions[funcidx]? = some func ∧ func.inited = true ∧
    (func.spidir.external = false → jitCodegenVisitedFunction cg func.spidir.id = true) ∧
    (func.hasCfi = true → jitCodegenVisitedFunction cg func.cfiThunk = true)

theorem Codegen.Entered.mono (h : cg.Entered ctx funcidx) (hgrows : cg.Grows cg') : cg'.Entered ctx funcidx := by
  obtain ⟨func, hfunc, hinit, hself, hthunk⟩ := h
  exact ⟨func, hfunc, hinit, fun he => hgrows.visited _ (hself he), fun ht => hgrows.visited _ (hthunk ht)⟩

/-- Emitting under a condition enters the function where the condition holds. -/
theorem codegenIf_emitted {p : Prop} [Decidable p] (h : Emitted emitter [] cg)
    (hs : (if p then jitCodegenFunction emitter function else pure ()) cg = some ((), cg')) :
    Emitted emitter [] cg' ∧ cg.Grows cg' ∧ (p → jitCodegenVisitedFunction cg' function = true) := by
  split_ifs at hs with hp
  · obtain ⟨he, hgrows, hv⟩ := jitCodegenFunction_emitted (h.withPending [function]) hs
    exact ⟨he, hgrows, fun _ => hv⟩
  · obtain ⟨-, rfl⟩ := Prod.mk.inj (Option.some.inj hs)
    exact ⟨h, .refl _, fun hp' => absurd hp' hp⟩

theorem jitTryCodegenFunction_eq (emitter : Emitter) (ctx : JitContext) (funcidx : ℕ) :
    jitTryCodegenFunction emitter ctx funcidx = lift ctx.functions[funcidx]? >>= fun func => check (func.inited = true) >>= fun _ =>
      (if func.spidir.external = false then jitCodegenFunction emitter func.spidir.id else pure ()) >>= fun _ =>
      if func.hasCfi = true then jitCodegenFunction emitter func.cfiThunk else pure () := by
  rw [jitTryCodegenFunction]
  congr
  funext func
  congr
  funext _
  split_ifs <;> rfl

theorem jitTryCodegenFunction_emitted (h : Emitted emitter [] cg) (hs : jitTryCodegenFunction emitter ctx funcidx cg = some ((), cg')) :
    Emitted emitter [] cg' ∧ cg.Grows cg' ∧ cg'.Entered ctx funcidx := by
  rw [jitTryCodegenFunction_eq] at hs
  simp only [lift_bind_eq_some, check_bind_eq_some] at hs
  obtain ⟨func, hfunc, hinit, hs₁⟩ := hs
  obtain ⟨_, cg₁, hself, hthunk⟩ := (bind_eq_some _ _ _ _).mp hs₁
  obtain ⟨he₁, hgrows₁, hv₁⟩ := codegenIf_emitted h hself
  obtain ⟨he₂, hgrows₂, hv₂⟩ := codegenIf_emitted he₁ hthunk
  exact ⟨he₂, hgrows₁.trans hgrows₂, func, hfunc, hinit, fun hext => hgrows₂.visited _ (hv₁ hext), hv₂⟩

/-- A loop enters what its steps enter. -/
theorem forM_emitted {ι : Type} {f : ι → Checked Codegen Unit} {Q : ι → Codegen → Prop}
    (hf : ∀ i cg cg', Emitted emitter [] cg → f i cg = some ((), cg') → Emitted emitter [] cg' ∧ cg.Grows cg' ∧ Q i cg')
    (hQ : ∀ i cg cg', cg.Grows cg' → Q i cg → Q i cg') (l : List ι) (h : Emitted emitter [] cg)
    (hrun : l.forM f cg = some ((), cg')) : Emitted emitter [] cg' ∧ cg.Grows cg' ∧ ∀ i ∈ l, Q i cg' := by
  induction l generalizing cg with
  | nil =>
    obtain ⟨-, rfl⟩ := Prod.mk.inj (Option.some.inj hrun)
    exact ⟨h, .refl _, by simp⟩
  | cons i l ih =>
    rw [List.forM_eq_forM, List.forM_cons] at hrun
    obtain ⟨_, cg₁, hi, hrest⟩ := (bind_eq_some _ _ _ _).mp hrun
    obtain ⟨he₁, hgrows₁, hQ₁⟩ := hf i cg cg₁ h hi
    obtain ⟨he₂, hgrows₂, hQ₂⟩ := ih he₁ hrest
    exact ⟨he₂, hgrows₁.trans hgrows₂, List.forall_mem_cons.mpr ⟨hQ i cg₁ cg' hgrows₂ hQ₁, hQ₂⟩⟩

theorem codegenImports_emitted {i : ℕ} {imports : List Wasm.WasmImport} (h : Emitted emitter [] cg)
    (hrun : codegenImports ctx i imports cg = some ((), cg')) : Emitted emitter [] cg' ∧ cg.Grows cg' := by
  induction imports generalizing i cg with
  | nil =>
    obtain ⟨-, rfl⟩ := Prod.mk.inj (Option.some.inj hrun)
    exact ⟨h, .refl _⟩
  | cons item imports ih =>
    rw [codegenImports] at hrun
    split_ifs at hrun
    · simp only [lift_bind_eq_some, check_bind_eq_some, read_bind, update_bind] at hrun
      obtain ⟨func, -, -, -, map, -, hrest⟩ := hrun
      obtain ⟨he, hgrows⟩ := ih (⟨h.wf, h.index, h.blobs, h.closed⟩ : Emitted emitter [] { cg with imports := map }) hrest
      exact ⟨he, ⟨hgrows.visited⟩⟩
    · exact ih h hrun

theorem codegenQueue_emitted {fuel : ℕ} (h : Emitted emitter [] cg) (hrun : codegenQueue emitter fuel cg = some ((), cg')) :
    Emitted emitter [] cg' ∧ cg.Grows cg' ∧ cg'.queue = [] := by
  induction fuel generalizing cg with
  | zero => cases hrun
  | succ fuel ih =>
    rw [codegenQueue, read_bind] at hrun
    cases hqueue : cg.queue with
    | nil =>
      rw [hqueue] at hrun
      obtain ⟨-, rfl⟩ := Prod.mk.inj (Option.some.inj hrun)
      exact ⟨h, .refl _, hqueue⟩
    | cons function queue =>
      simp only [hqueue, update_bind] at hrun
      obtain ⟨_, cg₁, hfirst, hrest⟩ := (bind_eq_some _ _ _ _).mp hrun
      have popped : Emitted emitter [function] { cg with queue } := by
        refine ⟨h.wf, h.index, h.blobs, fun f hf r hr id hid => ?_⟩
        have := h.closed f hf r hr id hid
        rwa [hqueue] at this
      obtain ⟨he₁, hgrows₁, -⟩ := jitCodegenFunction_emitted popped hfirst
      obtain ⟨he₂, hgrows₂, hempty⟩ := ih he₁ hrest
      exact ⟨he₂, ⟨fun id hid => hgrows₂.visited id (hgrows₁.visited id hid)⟩, hempty⟩

/-- The code generation enters its roots, and with them all that is referred to. -/
theorem jitCodegenFunctions_emitted {fuel : ℕ} (hrun : jitCodegenFunctions emitter ctx fuel {} = some ((), cg)) :
    Emitted emitter [] cg ∧ cg.queue = [] ∧ (∀ e ∈ ctx.module.exports, e.kind = .func → cg.Entered ctx e.index) ∧
    (∀ elem ∈ ctx.module.elems, ∀ i ∈ elem.funcs, cg.Entered ctx i) ∧
    (0 ≤ ctx.module.startFunc → cg.Entered ctx ctx.module.startFunc.toNat) := by
  rw [jitCodegenFunctions] at hrun
  obtain ⟨_, cg₁, hexports, hrun₁⟩ := (bind_eq_some _ _ _ _).mp hrun
  obtain ⟨_, cg₂, himports, hrun₂⟩ := (bind_eq_some _ _ _ _).mp hrun₁
  obtain ⟨_, cg₃, helems, hrun₃⟩ := (bind_eq_some _ _ _ _).mp hrun₂
  obtain ⟨he₁, -, hQ₁⟩ := @forM_emitted emitter {} cg₁ _ _ (fun (e : Wasm.WasmExport) cg => e.kind = .func → cg.Entered ctx e.index)
    (fun e cg cg' he hstep => by
      split_ifs at hstep with hkind
      · obtain ⟨he', hgrows, hin⟩ := jitTryCodegenFunction_emitted he hstep
        exact ⟨he', hgrows, fun _ => hin⟩
      · obtain ⟨-, rfl⟩ := Prod.mk.inj (Option.some.inj hstep)
        exact ⟨he, .refl _, fun hk => absurd hk hkind⟩)
    (fun e cg cg' hgrows hin hk => (hin hk).mono hgrows) _ emitted_start hexports
  obtain ⟨he₂, hgrows₂⟩ := codegenImports_emitted he₁ himports
  have elemStep (elem : Wasm.ElemSegment) (cg cg' : Codegen) (he : Emitted emitter [] cg)
      (hstep : (elem.funcs.forM fun i => jitTryCodegenFunction emitter ctx i) cg = some ((), cg')) :
      Emitted emitter [] cg' ∧ cg.Grows cg' ∧ ∀ i ∈ elem.funcs, cg'.Entered ctx i :=
    @forM_emitted emitter cg cg' _ _ (fun i cg => cg.Entered ctx i) (fun i cg cg' he hi => jitTryCodegenFunction_emitted he hi)
      (fun i cg cg' hgrows hin => hin.mono hgrows) _ he hstep
  obtain ⟨he₃, hgrows₃, hQ₃⟩ := forM_emitted elemStep (fun elem cg cg' hgrows hin i hi => (hin i hi).mono hgrows) _ he₂ helems
  obtain ⟨cg₄, he₄, hgrows₄, hstart, hqueue⟩ : ∃ cg₄, Emitted emitter [] cg₄ ∧ cg₃.Grows cg₄ ∧
      (0 ≤ ctx.module.startFunc → cg₄.Entered ctx ctx.module.startFunc.toNat) ∧ codegenQueue emitter fuel cg₄ = some ((), cg) := by
    split_ifs at hrun₃ with hs
    · obtain ⟨_, cg₄, hstart, hqueue⟩ := (bind_eq_some _ _ _ _).mp hrun₃
      obtain ⟨he, hgrows, hin⟩ := jitTryCodegenFunction_emitted he₃ hstart
      exact ⟨cg₄, he, hgrows, fun _ => hin, hqueue⟩
    · exact ⟨cg₃, he₃, .refl _, fun h => absurd h hs, hrun₃⟩
  obtain ⟨he₅, hgrows₅, hempty⟩ := codegenQueue_emitted he₄ hqueue
  have late := hgrows₄.trans hgrows₅
  exact ⟨he₅, hempty, fun e he hk => (hQ₁ e he hk).mono ((hgrows₂.trans hgrows₃).trans late),
    fun elem helem i hi => (hQ₃ elem helem i hi).mono late, fun h => (hstart h).mono hgrows₅⟩

/-! ### Lookups -/

/-- The functions that the linker and the steps behind it look up in the map: targets of
relocations, the functions behind exports and the start function unless they are imports,
and the thunks of the entries of element segments. -/
inductive Codegen.LooksUp (ctx : JitContext) (cg : Codegen) : ℕ → Prop
  | reloc {f : FunctionCodegen} {r : Reloc} {id : ℕ} (hf : f ∈ cg.functions) (hr : r ∈ f.blob.relocs) (htarget : r.target = .internal id) :
      LooksUp ctx cg id
  | exported {e : Wasm.WasmExport} {func : JitFunction} (he : e ∈ ctx.module.exports) (hkind : e.kind = .func)
      (hfunc : ctx.functions[e.index]? = some func) (hinternal : func.spidir.external = false) : LooksUp ctx cg func.spidir.id
  | start {func : JitFunction} (hstart : 0 ≤ ctx.module.startFunc) (hfunc : ctx.functions[ctx.module.startFunc.toNat]? = some func)
      (hinternal : func.spidir.external = false) : LooksUp ctx cg func.spidir.id
  | slot {elem : Wasm.ElemSegment} {funcidx : ℕ} {func : JitFunction} (helem : elem ∈ ctx.module.elems) (hi : funcidx ∈ elem.funcs)
      (hfunc : ctx.functions[funcidx]? = some func) : LooksUp ctx cg func.cfiThunk

/-- What is looked up was entered. -/
theorem Codegen.LooksUp.visited {fuel id : ℕ} (hrun : jitCodegenFunctions emitter ctx fuel {} = some ((), cg))
    (hthunks : ∀ elem ∈ ctx.module.elems, ∀ i ∈ elem.funcs, ctx.Thunked i) (h : cg.LooksUp ctx id) :
    jitCodegenVisitedFunction cg id = true := by
  obtain ⟨he, hempty, hexports, helems, hstart⟩ := jitCodegenFunctions_emitted hrun
  cases h with
  | reloc hf hr htarget =>
    have := he.closed _ hf _ hr id htarget
    rw [hempty] at this
    exact this.resolve_right List.not_mem_nil
  | exported hexport hkind hfunc hinternal =>
    obtain ⟨func, hfunc', -, hself, -⟩ := hexports _ hexport hkind
    obtain rfl := Option.some.inj (hfunc'.symm.trans hfunc)
    exact hself hinternal
  | start h hfunc hinternal =>
    obtain ⟨func, hfunc', -, hself, -⟩ := hstart h
    obtain rfl := Option.some.inj (hfunc'.symm.trans hfunc)
    exact hself hinternal
  | slot helem hi hfunc =>
    obtain ⟨func, hfunc', -, -, hthunk⟩ := helems _ helem _ hi
    obtain ⟨func', hfunc'', hcfi⟩ := hthunks _ helem _ hi
    obtain rfl := Option.some.inj (hfunc'.symm.trans hfunc)
    obtain rfl := Option.some.inj (hfunc'.symm.trans hfunc'')
    exact hthunk hcfi

/-- Every function that the emission of a module creates has its body built once. Where the
code generation then succeeds, it lists no function twice; exported functions, the start
function and element entries are prepared, the last with a thunk, and every function that is
looked up afterwards is found, at its place in the list. -/
theorem functions_emitted_once {m : WasmModule} {resolveImport : Option Name → Option Name → FuncType → Option ℕ} {c ctx : JitContext}
    {stateSize fuel : ℕ} {built : List ℕ} (hprepare : jitPrepareState (startContext m resolveImport) = some (c, stateSize))
    (hemit : jitEmitSpidir fuel c = some (built, ctx)) :
    (built.Nodup ∧ (∀ id, id ∈ built ↔ id < ctx.spidir.functions) ∧ ∀ id, (ctx.spidir.bodies id).isSome ↔ id < ctx.spidir.functions) ∧
    ∀ emitter fuel' cg, jitCodegenFunctions emitter ctx fuel' {} = some ((), cg) →
      (cg.functions.map FunctionCodegen.function).Nodup ∧
      (∀ e ∈ m.exports, e.kind = .func → ∃ func, ctx.functions[e.index]? = some func ∧ func.inited = true) ∧
      (0 ≤ m.startFunc → ∃ func, ctx.functions[m.startFunc.toNat]? = some func ∧ func.inited = true) ∧
      (∀ elem ∈ m.elems, ∀ i ∈ elem.funcs, ∃ func, ctx.functions[i]? = some func ∧ func.inited = true ∧ func.hasCfi = true) ∧
      ∀ id, cg.LooksUp ctx id → ∃ i, cg.funcToIdx.lookup id = some i ∧ cg.functionAt i = some id := by
  obtain ⟨hstart, hmodule, -⟩ := emission_start hprepare
  obtain ⟨he, hkept, -, hempty, hthunks, -⟩ := jitEmitSpidir_emission hstart hemit
  have same : ctx.module = m := hkept.trans hmodule
  have ids : built.Perm (List.range ctx.spidir.functions) := by
    have := he.ids
    rwa [hempty, List.map_nil, List.append_nil, List.nil_append] at this
  have created (id : ℕ) : id ∈ built ↔ id < ctx.spidir.functions := ids.mem_iff.trans List.mem_range
  refine ⟨⟨ids.nodup_iff.mpr List.nodup_range, created, fun id => (he.bodies id).trans (created id)⟩, fun emitter fuel' cg hrun => ?_⟩
  obtain ⟨hemitted, -, hexports, helems, hstarts⟩ := jitCodegenFunctions_emitted hrun
  rw [hmodule] at hthunks
  rw [same] at hexports helems hstarts
  refine ⟨hemitted.nodup, fun e hexport hkind => ?_, fun h => ?_, fun elem helem i hi => ?_, fun id hid => ?_⟩
  · obtain ⟨func, hfunc, hinit, -⟩ := hexports e hexport hkind
    exact ⟨func, hfunc, hinit⟩
  · obtain ⟨func, hfunc, hinit, -⟩ := hstarts h
    exact ⟨func, hfunc, hinit⟩
  · obtain ⟨func, hfunc, hinit, -⟩ := helems elem helem i hi
    obtain ⟨func', hfunc', hcfi⟩ := hthunks elem helem i hi
    exact ⟨func, hfunc, hinit, Option.some.inj (hfunc'.symm.trans hfunc) ▸ hcfi⟩
  · obtain ⟨i, hi⟩ := Option.isSome_iff_exists.mp (hid.visited hrun (same ▸ hthunks))
    exact ⟨i, hi, (hemitted.index id i).mp hi⟩

/-- A function that calls itself, exported, started, and twice in a table. -/
def recursiveModule : WasmModule where
  types := [{}]
  functions := [0]
  exports := [{ kind := .func, index := 0 }]
  tables := [{ min := 2, max := 2 }]
  elems := [{ funcs := [0, 0] }]
  code := some [[0, 0x10, 0, 0x0B]]
  startFunc := 0

/-- Each function refers to the one before. -/
def chained : Emitter := fun id => some { relocs := [{ target := .internal (id - 1) }] }

/-- The thunk that the table needs is listed behind the function, and what it refers to behind it. -/
theorem functions_emitted_once_recursive : ∃ ctx cg, jitEmitSpidir 2 (startContext recursiveModule fun _ _ _ => none) = some ([1, 2, 0], ctx) ∧
    ctx.spidir.functions = 3 ∧ jitCodegenFunctions chained ctx 4 {} = some ((), cg) ∧
    cg.functions.map FunctionCodegen.function = [0, 2, 1] ∧ (cg.functions.map FunctionCodegen.function).Nodup ∧
    ∃ i, cg.funcToIdx.lookup 1 = some i ∧ cg.functionAt i = some 1 := by
  have run : (jitEmitSpidir 2 (startContext recursiveModule fun _ _ _ => none)).map (fun r => (r.1, r.2.spidir.functions,
      (jitCodegenFunctions chained r.2 4 {}).map fun p => (p.2.functions.map FunctionCodegen.function, p.2.functions[1]?.map FunctionCodegen.blob))) =
      some ([1, 2, 0], 3, some ([0, 2, 1], chained 2)) := by decide +kernel
  obtain ⟨⟨ids, ctx⟩, hrun, he⟩ := Option.map_eq_some_iff.mp run
  simp only [Prod.mk.injEq] at he
  obtain ⟨rfl, hcount, he⟩ := he
  obtain ⟨⟨_, cg⟩, hcodegen, he⟩ := Option.map_eq_some_iff.mp he
  obtain ⟨hlist, hthunk⟩ := Prod.mk.inj he
  obtain ⟨f, hf, hblob⟩ := Option.map_eq_some_iff.mp hthunk
  have prepared : jitPrepareState (startContext recursiveModule fun _ _ _ => none) =
      some (startContext recursiveModule fun _ _ _ => none, 0) := rfl
  obtain ⟨nodup, -, -, -, found⟩ := (functions_emitted_once prepared hrun).2 chained 4 cg hcodegen
  have needed : cg.LooksUp ctx 1 := .reloc (r := { target := .internal 1 }) (List.mem_of_getElem? hf) (by simp [hblob]) rfl
  exact ⟨ctx, cg, hrun, hcount, hcodegen, hlist, nodup, found 1 needed⟩

end SpidirWasm.Jit
