import SpidirWasm.Jit.EmitClosure
import SpidirWasm.Jit.Run

/-! The emission of a module as a chain of steps, each of which prepares a function or a
table, makes a thunk, or translates the next function of the queue. No step takes back what
an earlier one prepared, so that wherever a function is called, it is by the same reference. -/

namespace SpidirWasm.Jit

open Checked
open Spidir (Builder Inst ValueType FuncRef)
open Wasm (WasmModule FuncType Name)
open Relation (ReflTransGen)

/-- One step of the emission. A thunk is made for a function that was just prepared. -/
inductive ModuleStep : JitContext → JitContext → Prop
  | prepare {c c' : JitContext} {funcidx : ℕ} (h : jitPrepareFunction funcidx c = some ((), c')) : ModuleStep c c'
  | table {c c' : JitContext} {i : ℕ} (h : jitPrepareTable i c = some ((), c')) : ModuleStep c c'
  | thunk {c c₁ c' : JitContext} {funcidx id : ℕ} (hprepare : jitPrepareFunction funcidx c = some ((), c₁))
      (h : jitCreateCfiThunk funcidx c₁ = some (id, c')) : ModuleStep c c'
  | function {c c' : JitContext} {funcidx : ℕ} {queue : List ℕ} (hqueue : c.queue = funcidx :: queue)
      (h : jitFunction funcidx { c with queue } = some ((), c')) : ModuleStep c c'

/-- The module stays, and a prepared function keeps its reference. -/
structure JitContext.Keeps (c c' : JitContext) : Prop where
  module : c'.module = c.module
  prepared : ∀ (i : ℕ) (f : JitFunction), c.functions[i]? = some f → f.inited = true →
    ∃ f', c'.functions[i]? = some f' ∧ f'.inited = true ∧ f'.spidir = f.spidir

variable {c c' c'' : JitContext} {funcidx : ℕ}

theorem JitContext.Keeps.refl (c : JitContext) : c.Keeps c := ⟨rfl, fun _ f hf hinit => ⟨f, hf, hinit, rfl⟩⟩

theorem JitContext.Keeps.trans (h : c.Keeps c') (h' : c'.Keeps c'') : c.Keeps c'' where
  module := h'.module.trans h.module
  prepared i f hf hinit := by
    obtain ⟨f', hf', hinit', hspidir⟩ := h.prepared i f hf hinit
    obtain ⟨f'', hf'', hinit'', hspidir'⟩ := h'.prepared i f' hf' hinit'
    exact ⟨f'', hf'', hinit'', hspidir'.trans hspidir⟩

/-- A change of a slot that leaves what was prepared. -/
theorem Keeps.modify {g : JitFunction → JitFunction} (hg : ∀ f, (g f).spidir = f.spidir ∧ (g f).inited = f.inited)
    (hmodule : c'.module = c.module) (hc : c'.functions = c.functions.modify funcidx g) : c.Keeps c' := by
  refine ⟨hmodule, fun i f hf hinit => ?_⟩
  rw [hc, List.getElem?_modify, hf]
  by_cases hi : funcidx = i
  · exact ⟨g f, by simp [hi], (hg f).2.trans hinit, (hg f).1⟩
  · exact ⟨f, by simp [hi], hinit, rfl⟩

/-- The slots do not change. -/
theorem Keeps.of_eq (hmodule : c'.module = c.module) (hc : c'.functions = c.functions) : c.Keeps c' :=
  ⟨hmodule, fun _ f hf hinit => ⟨f, hc ▸ hf, hinit, rfl⟩⟩

/-! ### A function's translation -/

theorem ContextStep.keeps (hs : ContextStep c c') : c.Keeps c' := by
  cases hs with
  | @prepare _ funcidx hp =>
    obtain ⟨f, hf, ⟨-, rfl⟩ | ⟨hinit, g, -, -, -, hfunctions, hmodule, -⟩⟩ := jitPrepareFunction_cases hp
    · exact .refl _
    refine ⟨hmodule, fun i f' hf' hinit' => ?_⟩
    have other : funcidx ≠ i := by
      rintro rfl
      rw [Option.some.inj (hf.symm.trans hf'), hinit'] at hinit
      cases hinit
    exact ⟨f', by rw [hfunctions, List.getElem?_set_ne other, hf'], hinit', rfl⟩
  | helper hh =>
    obtain ⟨-, ⟨-, rfl⟩ | ⟨-, -, -, rfl⟩⟩ := jitGetHelper_cases hh
    · exact .refl _
    · exact Keeps.of_eq rfl rfl
  | useTable tableidx => exact Keeps.of_eq rfl rfl

theorem ContextStep.ok (hs : ContextStep c c') (h : c.Ok) : c'.Ok := by
  cases hs with
  | prepare hp => exact (jitPrepareFunction_ok hp h).1
  | helper hh => exact (jitGetHelper_ok hh h).1
  | useTable tableidx => exact ⟨h.function, h.helper⟩

/-! ### The steps of a module -/

/-- The ways in which a context changes under the emission: as under a handler, with a slot for a
new thunk, or in what no function is prepared with. -/
inductive ContextChange : JitContext → JitContext → Prop
  | context {c c' : JitContext} (h : ContextStep c c') : ContextChange c c'
  | thunk {c : JitContext} {funcidx : ℕ} {f : JitFunction} (hf : c.functions[funcidx]? = some f) (hinit : f.inited = true) :
    ContextChange c { c with
      functions := c.functions.modify funcidx fun f => { f with hasCfi := true, cfiThunk := c.spidir.functions }
      spidir := { c.spidir with functions := c.spidir.functions + 1 } }
  | rest {c c' : JitContext} (module : c'.module = c.module) (functions : c'.functions = c.functions) (helpers : c'.helpers = c.helpers)
      (created : c'.spidir.functions = c.spidir.functions) (externs : c'.spidir.externFunctions = c.spidir.externFunctions)
      (globals : c'.globals = c.globals) : ContextChange c c'

theorem ContextChange.prepared (h : ContextChange c c') : c.Keeps c' ∧ (c.Ok → c'.Ok) := by
  cases h with
  | context h => exact ⟨h.keeps, h.ok⟩
  | thunk hf hinit =>
    refine ⟨Keeps.modify (g := fun f => { f with hasCfi := true, cfiThunk := c.spidir.functions }) (fun _ => ⟨rfl, rfl⟩) rfl rfl, fun hc => ⟨fun i f hf hinit => ?_, hc.helper⟩⟩
    rw [List.getElem?_modify] at hf
    obtain ⟨f₁, hf₁, rfl⟩ := Option.map_eq_some_iff.mp hf
    split_ifs at hinit ⊢
    · exact hc.function i f₁ hf₁ hinit
    · exact hc.function i f₁ hf₁ hinit
  | rest hmodule hfunctions hhelpers _ _ _ =>
    refine ⟨Keeps.of_eq hmodule hfunctions, fun hc => ⟨?_, ?_⟩⟩
    · rw [hmodule, hfunctions]
      exact hc.function
    · rw [hhelpers]
      exact hc.helper

/-- Nothing changes the layout of the globals. -/
theorem ContextStep.globals (h : ContextStep c c') : c'.globals = c.globals := by
  cases h with
  | prepare h =>
    simp only [jitPrepareFunction, read_bind, check_bind_eq_some, lift_bind_eq_some] at h
    obtain ⟨-, f, -, h⟩ := h
    split_ifs at h
    · rw [(Prod.mk.inj (Option.some.inj h)).2]
    · simp only [lift_bind_eq_some, check_bind_eq_some, read_bind, createExternFunction_bind, update_eq_some, Prod.mk.injEq, true_and] at h
      obtain ⟨_, -, _, -, _, -, _, -, -, _, -, rfl⟩ := h
      rfl
    · simp only [lift_bind_eq_some, createFunction_bind, update_eq_some, Prod.mk.injEq, true_and] at h
      obtain ⟨_, -, _, -, _, -, rfl⟩ := h
      rfl
  | helper h => obtain ⟨-, ⟨-, rfl⟩ | ⟨-, -, -, rfl⟩⟩ := jitGetHelper_cases h <;> rfl
  | useTable tableidx => rfl

theorem ContextChange.globals (h : ContextChange c c') : c'.globals = c.globals := by
  cases h with
  | context h => exact h.globals
  | thunk => rfl
  | rest _ _ _ _ _ hglobals => exact hglobals

theorem changes_prepared (h : ReflTransGen ContextChange c c') : c.Keeps c' ∧ (c.Ok → c'.Ok) := by
  induction h with
  | refl => exact ⟨.refl _, id⟩
  | tail _ hchange ih =>
    obtain ⟨hkeeps, hok⟩ := hchange.prepared
    exact ⟨ih.1.trans hkeeps, fun hc => hok (ih.2 hc)⟩

/-- A run on a graph. -/
theorem emitRun_changes {p q : JitContext × Builder} (hrun : ReflTransGen EmitStep p q) : ReflTransGen ContextChange p.1 q.1 := by
  induction hrun with
  | refl => exact .refl
  | tail _ hstep ih =>
    cases hstep with
    | context hs b => exact ih.tail (.context hs)
    | graph c hcalls => exact ih
    | build b hi => exact ih

/-- Between two opcodes of a function all that was prepared before it is still there. -/
theorem Between.keeps_prepared {P : Instr → EmitState → Prop} {s : JitState} (h : Between P c funcidx s) : c.Keeps s.ctx := by
  induction h with
  | @enter type code params s hf hp h =>
    have moves : Handler.Moves (jitEnterFunction type) := inferInstance
    exact (changes_prepared (emitRun_changes (moves.moves _ _ _ h))).1
  | step hs hcode hlabels hP h ih =>
    have moves : Handler.Moves jitWasmOpcode := inferInstance
    exact ih.trans (changes_prepared (emitRun_changes (moves.moves _ _ _ h))).1

/-- A finished graph is entered. -/
theorem setBody_change (c : JitContext) (id : ℕ) (body : Builder) :
    ContextChange c { c with spidir := { c.spidir with bodies := Function.update c.spidir.bodies id (some body) } } :=
  .rest rfl rfl rfl rfl rfl rfl

/-- A thunk is made of the reference that its function was prepared with. -/
theorem jitCreateCfiThunk_cases {id : ℕ} {f : JitFunction} (hf : c.functions[funcidx]? = some f)
    (h : jitCreateCfiThunk funcidx c = some (id, c')) (hinit : f.inited = true) :
    ReflTransGen ContextChange c c' ∧ ∃ type typeId ts c₀ t, c.module.getFunc funcidx = some type ∧
      funcTypeIndex c.module funcidx = some typeId ∧ jitArgTypes type = some ts ∧
      jitBuildCfiThunk typeId type.argTypes.length f.spidir { ctx := c₀, builder := { params := .ptr :: .ptr :: .i64 :: ts } } = some ((), t) ∧
      c'.spidir.bodies id = some t.builder := by
  simp only [jitCreateCfiThunk, read_bind, lift_bind_eq_some, createFunction_bind, update_bind, hf, Option.some.injEq] at h
  obtain ⟨type, htype, typeId, htypeId, retType, -, ts, hts, _, rfl, h⟩ := h
  obtain ⟨body, c₁, hbuild, h⟩ := (bind_eq_some _ _ _ _).mp h
  obtain ⟨t, ht, rfl, rfl⟩ := buildGraph_eq_some hbuild
  obtain ⟨rfl, rfl⟩ := Prod.mk.inj (Option.some.inj h)
  set g : JitFunction → JitFunction := fun f => { f with hasCfi := true, cfiThunk := c.spidir.functions }
  set c₀ : JitContext := { c with
    functions := c.functions.modify funcidx g
    spidir := { c.spidir with functions := c.spidir.functions + 1 } }
  have slot : c₀.functions[funcidx]? = some (g f) := by
    simp [c₀, hf]
  have callable : c₀.Provides (.call f.spidir []) := .inr ⟨g f, List.mem_of_getElem? slot, hinit, rfl⟩
  have built := emitRun_changes (jitBuildCfiThunk_moves _ _ _ _ _ _ callable ht)
  refine ⟨(ReflTransGen.head (.thunk hf hinit) built).tail (setBody_change t.ctx c.spidir.functions t.builder), type, typeId, ts, c₀, t,
    htype, htypeId, hts, ht, ?_⟩
  exact Function.update_self ..

theorem jitFunction_changes (h : jitFunction funcidx c = some ((), c')) : ReflTransGen ContextChange c c' := by
  simp only [jitFunction, read_bind, lift_bind_eq_some, check_bind_eq_some] at h
  obtain ⟨f, -, -, -, h⟩ := h
  obtain ⟨body, c₁, hbuild, h⟩ := (bind_eq_some _ _ _ _).mp h
  obtain ⟨-, rfl⟩ := Prod.mk.inj (Option.some.inj h)
  exact (emitRun_changes (jitBuildFunction_run hbuild)).tail (setBody_change c₁ f.spidir.id body)

/-- One step of the emission. -/
theorem ModuleStep.changes (h : ModuleStep c c') : ReflTransGen ContextChange c c' := by
  cases h with
  | prepare h => exact .single (.context (.prepare h))
  | table h =>
    simp only [jitPrepareTable, createExternGlobal, read_bind, lift_bind_eq_some, bind_assoc, update_bind, pure_bind, update_eq_some,
      Prod.mk.injEq, true_and] at h
    obtain ⟨table, -, rfl⟩ := h
    exact .single (.rest rfl rfl rfl rfl rfl rfl)
  | @thunk c₁ _ funcidx id hprepare h =>
    have prepare : ContextStep c c₁ := .prepare hprepare
    obtain ⟨f, hf, -⟩ := jitPrepareFunction_cases hprepare
    obtain ⟨hlt, -⟩ := List.getElem?_eq_some_iff.mp hf
    have slot := List.getElem?_eq_getElem (prepare.grows.functions ▸ hlt)
    exact .head (.context prepare) (jitCreateCfiThunk_cases slot h (prepared_inited hprepare slot)).1
  | @function _ funcidx queue hqueue h =>
    have popped : ContextChange c { c with queue } := .rest rfl rfl rfl rfl rfl rfl
    exact .head popped (jitFunction_changes h)

theorem moduleRun_changes (h : ReflTransGen ModuleStep c c') : ReflTransGen ContextChange c c' := by
  induction h with
  | refl => exact .refl
  | tail _ hstep ih => exact ih.trans hstep.changes

/-- What any number of them keep. -/
theorem moduleRun_prepared (h : ReflTransGen ModuleStep c c') : c.Keeps c' ∧ (c.Ok → c'.Ok) := changes_prepared (moduleRun_changes h)

theorem moduleRun_globals (h : ReflTransGen ModuleStep c c') : c'.globals = c.globals := by
  have changes := moduleRun_changes h
  clear h
  induction changes with
  | refl => rfl
  | tail _ hchange ih => exact hchange.globals.trans ih

/-! ### The emission -/

theorem emitElems_run {l ids : List ℕ} (h : emitElems l c = some (ids, c')) : ReflTransGen ModuleStep c c' := by
  induction l generalizing c ids with
  | nil =>
    obtain ⟨-, rfl⟩ := Prod.mk.inj (Option.some.inj h)
    exact .refl
  | cons funcidx l ih =>
    obtain ⟨_, c₁, hprepare, h₁⟩ := (bind_eq_some _ _ _ _).mp h
    obtain ⟨id, c₂, hthunk, h₂⟩ := (bind_eq_some _ _ _ _).mp h₁
    obtain ⟨rest, c₃, hrest, h₃⟩ := (bind_eq_some _ _ _ _).mp h₂
    obtain ⟨-, rfl⟩ := Prod.mk.inj (Option.some.inj h₃)
    exact .head (.thunk hprepare hthunk) (ih hrest)

theorem emitQueue_run {fuel : ℕ} {ids : List ℕ} (h : emitQueue fuel c = some (ids, c')) : ReflTransGen ModuleStep c c' := by
  induction fuel generalizing c ids with
  | zero => cases h
  | succ fuel ih =>
    rw [emitQueue, read_bind] at h
    cases hqueue : c.queue with
    | nil =>
      rw [hqueue] at h
      obtain ⟨-, rfl⟩ := Prod.mk.inj (Option.some.inj h)
      exact .refl
    | cons funcidx queue =>
      simp only [hqueue, update_bind, read_bind, lift_bind_eq_some] at h
      obtain ⟨f, -, h₁⟩ := h
      obtain ⟨_, c₁, hfunction, h₂⟩ := (bind_eq_some _ _ _ _).mp h₁
      obtain ⟨rest, c₂, hrest, h₃⟩ := (bind_eq_some _ _ _ _).mp h₂
      obtain ⟨-, rfl⟩ := Prod.mk.inj (Option.some.inj h₃)
      exact .head (.function hqueue hfunction) (ih hrest)

instance (funcidx : ℕ) : Moves ModuleStep id (jitPrepareFunction funcidx) := .single fun _ _ _ h => .prepare h

instance (i : ℕ) : Moves ModuleStep id (jitPrepareTable i) := .single fun _ _ _ h => .table h

instance (l : List ℕ) : Moves ModuleStep id (emitElems l) := ⟨fun _ _ _ h => emitElems_run h⟩

instance (fuel : ℕ) : Moves ModuleStep id (emitQueue fuel) := ⟨fun _ _ _ h => emitQueue_run h⟩

instance (fuel : ℕ) : Moves ModuleStep id (jitEmitSpidir fuel) := by unfold jitEmitSpidir; infer_instance

/-- The emission of a module is a chain of steps. -/
theorem jitEmitSpidir_run {fuel : ℕ} {ids : List ℕ} (h : jitEmitSpidir fuel c = some (ids, c')) : ReflTransGen ModuleStep c c' := by
  have moves : Moves ModuleStep id (jitEmitSpidir fuel) := inferInstance
  exact moves.moves c ids c' h

/-- The slot is prepared. -/
def JitContext.IsPrepared (c : JitContext) (funcidx : ℕ) : Prop := ∃ f, c.functions[funcidx]? = some f ∧ f.inited = true

theorem JitContext.Keeps.isPrepared (h : c.Keeps c') (hp : c.IsPrepared funcidx) : c'.IsPrepared funcidx := by
  obtain ⟨f, hf, hinit⟩ := hp
  obtain ⟨f', hf', hinit', -⟩ := h.prepared funcidx f hf hinit
  exact ⟨f', hf', hinit'⟩

theorem jitPrepareFunction_isPrepared (h : jitPrepareFunction funcidx c = some ((), c')) : c'.IsPrepared funcidx := by
  have step : ContextStep c c' := .prepare h
  obtain ⟨f, hf, -⟩ := jitPrepareFunction_cases h
  obtain ⟨hlt, -⟩ := List.getElem?_eq_some_iff.mp hf
  have slot := List.getElem?_eq_getElem (step.grows.functions ▸ hlt)
  exact ⟨_, slot, prepared_inited h slot⟩

/-- Exported functions are prepared. -/
theorem emitExports_isPrepared {exports : List Wasm.WasmExport}
    (h : (exports.forM fun e => if e.kind = .func then jitPrepareFunction e.index else pure ()) c = some ((), c')) :
    ∀ e ∈ exports, e.kind = .func → c'.IsPrepared e.index := by
  induction exports generalizing c with
  | nil => exact fun e he => absurd he List.not_mem_nil
  | cons e exports ih =>
    rw [List.forM_eq_forM, List.forM_cons] at h
    obtain ⟨_, c₁, hfirst, hrest⟩ := (bind_eq_some _ _ _ _).mp h
    refine List.forall_mem_cons.mpr ⟨fun hkind => ?_, ih hrest⟩
    rw [if_pos hkind] at hfirst
    have moves : Moves ModuleStep id (exports.forM fun e => if e.kind = .func then jitPrepareFunction e.index else pure ()) := inferInstance
    exact (moduleRun_prepared (moves.moves _ _ _ hrest)).1.isPrepared (jitPrepareFunction_isPrepared hfirst)

/-- The roots of a module are prepared behind its emission. -/
theorem jitEmitSpidir_isPrepared {fuel : ℕ} {ids : List ℕ} (h : jitEmitSpidir fuel c = some (ids, c')) :
    (∀ e ∈ c.module.exports, e.kind = .func → c'.IsPrepared e.index) ∧ (0 ≤ c.module.startFunc → c'.IsPrepared c.module.startFunc.toNat) := by
  rw [jitEmitSpidir, read_bind] at h
  obtain ⟨_, c₁, hexports, h₁⟩ := (bind_eq_some _ _ _ _).mp h
  obtain ⟨_, c₂, htables, h₂⟩ := (bind_eq_some _ _ _ _).mp h₁
  obtain ⟨thunks, c₃, helems, h₃⟩ := (bind_eq_some _ _ _ _).mp h₂
  have tables : Moves ModuleStep id (forFrom jitPrepareTable 0 c.module.tables.length) := inferInstance
  have early : c₁.Keeps c₃ := (moduleRun_prepared ((tables.moves _ _ _ htables).trans (emitElems_run helems))).1
  have exported := emitExports_isPrepared hexports
  split_ifs at h₃ with hstart
  · obtain ⟨_, c₄, hprepare, h₄⟩ := (bind_eq_some _ _ _ _).mp h₃
    obtain ⟨functions, c₅, hqueue, h₅⟩ := (bind_eq_some _ _ _ _).mp h₄
    obtain ⟨-, rfl⟩ := Prod.mk.inj (Option.some.inj h₅)
    have queue := (moduleRun_prepared (emitQueue_run hqueue)).1
    have start : c₃.Keeps c₄ := (moduleRun_prepared (.single (.prepare hprepare))).1
    exact ⟨fun e he hkind => ((early.trans start).trans queue).isPrepared (exported e he hkind),
      fun _ => queue.isPrepared (jitPrepareFunction_isPrepared hprepare)⟩
  · obtain ⟨functions, c₄, hqueue, h₄⟩ := (bind_eq_some _ _ _ _).mp h₃
    obtain ⟨-, rfl⟩ := Prod.mk.inj (Option.some.inj h₄)
    have queue := (moduleRun_prepared (emitQueue_run hqueue)).1
    exact ⟨fun e he hkind => (early.trans queue).isPrepared (exported e he hkind), fun hs => absurd hs hstart⟩

end SpidirWasm.Jit
