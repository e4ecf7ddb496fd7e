import SpidirWasm.Jit.Shape

/-! The states of one translation in their order. A body determines the states between its
opcodes, so any two of them are an earlier and a later one, and the graph only grows from one
to the other. -/

namespace SpidirWasm.Jit

open Checked
open Relation (ReflTransGen)
open Spidir (Builder Inst Value ValueType Block)
open Wasm (FuncType)

variable {J : Branching} {w w' : Work} {s t u : EmitState}

/-- Every primitive step makes the graph larger. -/
theorem Prim.grows (h : Prim J w s w' t) (hs : Shaped w s) : s.builder.Extends t.builder := by
  cases h with
  | forget | abandon | context | pop | peek | push | discard | getLocal | setLocal | mark | skip | endLoop | leave => exact .refl _
  | node | effect => exact Builder.extends_build _ _
  | block | openBlock => exact Builder.extends_createBlock _
  | enter | join | deadJoin => exact Builder.extends_setBlock _ _
  | term => exact Builder.extends_terminate _ _
  | @arrive index target v _ hl hi =>
    obtain ⟨pre, post, hpre, -⟩ := scopes_arrive (v := v) hl hi
    have merges := Merges.bare.mp (hs.merges target.bare (by simp [hpre]))
    exact (arrive_phisOnly (fun ms hms => (merges.length ms hms).symm) fun p hp =>
      ⟨(merges.phis p hp).1, (merges.phis p hp).2.1⟩).1.ext
  | loop =>
    have opened := ((Builder.extends_createBlock s.builder).trans (Builder.extends_terminate _ (.branch s.builder.nextBlock))).trans
      (Builder.extends_setBlock _ s.builder.nextBlock)
    exact opened.trans (loopPhis_phisOnly s.func.locals (k := s.builder.nextBlock) rfl).1.ext

/-- So does any number of them. -/
theorem Prims.grows (h : Prims J w s w' t) (hs : Shaped w s) : Shaped w' t ∧ s.builder.Extends t.builder :=
  h.keeps (I := fun w' t => Shaped w' t ∧ s.builder.Extends t.builder) (fun step ⟨hs, hg⟩ => ⟨step.shaped hs, hg.trans (step.grows hs)⟩)
    ⟨hs, .refl _⟩

/-! ### One opcode after the other -/

/-- One opcode of a body. -/
def Proceeds (s t : JitState) : Prop := s.code.data ≠ [] ∧ s.func.labels ≠ [] ∧ jitWasmOpcode s = some ((), t)

/-- Nothing was decided. -/
theorem Proceeds.unique {s t t' : JitState} (h : Proceeds s t) (h' : Proceeds s t') : t = t' :=
  (Prod.mk.inj (Option.some.inj (h.2.2.symm.trans h'.2.2))).2

variable {ctx : JitContext} {funcidx : ℕ}

/-- A state of the translation of the body `funcidx`, between two of its opcodes. -/
abbrev Reached (ctx : JitContext) (funcidx : ℕ) (s : JitState) : Prop := Between (fun _ _ => True) ctx funcidx s

namespace Reached

variable {s t : JitState}

theorem proceed (h : Reached ctx funcidx s) (hst : Proceeds s t) : Reached ctx funcidx t :=
  .step h hst.1 hst.2.1 (fun _ _ _ _ => trivial) hst.2.2

theorem run (h : Reached ctx funcidx s) (hst : ReflTransGen Proceeds s t) : Reached ctx funcidx t := by
  induction hst with
  | refl => exact h
  | tail _ step ih => exact ih.proceed step

/-- The states come from one first state. -/
theorem start (h : Reached ctx funcidx s) : ∃ type code params first, internalFunction ctx.module funcidx = some (type, code) ∧
    jitParams type = some params ∧ jitEnterFunction type (functionState ctx params code) = some ((), first) ∧
    ReflTransGen Proceeds first s := by
  induction h with
  | enter hf hp h => exact ⟨_, _, _, _, hf, hp, h, .refl⟩
  | step _ hcode hlabels _ h ih =>
    obtain ⟨type, code, params, first, hf, hp, hfirst, hrun⟩ := ih
    exact ⟨type, code, params, first, hf, hp, hfirst, hrun.tail ⟨hcode, hlabels, h⟩⟩

/-- Of two states one is the later. -/
theorem total (h : Reached ctx funcidx s) (h' : Reached ctx funcidx t) : ReflTransGen Proceeds s t ∨ ReflTransGen Proceeds t s := by
  obtain ⟨type, code, params, first, hf, hp, hfirst, hrun⟩ := h.start
  obtain ⟨type', code', params', first', hf', hp', hfirst', hrun'⟩ := h'.start
  obtain ⟨rfl, rfl⟩ := Prod.mk.inj (Option.some.inj (hf.symm.trans hf'))
  obtain rfl := Option.some.inj (hp.symm.trans hp')
  obtain rfl := (Prod.mk.inj (Option.some.inj (hfirst.symm.trans hfirst'))).2
  exact ReflTransGen.total_of_right_unique (fun _ _ _ => Proceeds.unique) hrun hrun'

/-- A state with code left is earlier than one without. -/
theorem earlier (h : Reached ctx funcidx s) (h' : Reached ctx funcidx t) (hs : s.code.data ≠ []) (ht : t.code.data = []) :
    ∃ u, Proceeds s u ∧ ReflTransGen Proceeds u t := by
  have hrun : ReflTransGen Proceeds s t := by
    rcases h.total h' with hrun | hrun
    · exact hrun
    · rcases hrun.cases_head with rfl | ⟨u, hu, -⟩
      · exact absurd ht hs
      · exact absurd ht hu.1
  rcases hrun.cases_head with rfl | hrun
  · exact absurd ht hs
  · exact hrun

/-- One opcode as a chain of primitive steps. -/
theorem prims (hctx : ctx.Ok) (h : Reached ctx funcidx s) (hst : Proceeds s t) :
    ∃ i, Act i s.toEmitState t.toEmitState ∧ (s.live = true → ∃ code, fetch s.code = some (i, code)) ∧
      (s.live = false → i = .data ∨ i = .fin) ∧ Prims (i.branching s.toEmitState) s.idle s.toEmitState t.idle t.toEmitState := by
  obtain ⟨hc, htidy⟩ := h.ready hctx
  obtain ⟨i, act, hlive, hdead⟩ := jitWasmOpcode_act hc hst.2.2
  exact ⟨i, act, hlive, hdead, (act.prims htidy hc).2⟩

/-- The graph of a later state is larger. -/
theorem grows (hctx : ctx.Ok) (h : Reached ctx funcidx s) (hst : ReflTransGen Proceeds s t) : s.builder.Extends t.builder := by
  induction hst with
  | refl => exact .refl _
  | @tail u v hrun step ih =>
    obtain ⟨i, -, -, -, steps⟩ := (h.run hrun).prims hctx step
    exact ih.trans (steps.grows ((h.run hrun).shaped hctx)).2

end Reached

/-- Every live instruction of a body is one that `P` allows, in the state in front of it. -/
def EachLive (P : Instr → EmitState → Prop) (ctx : JitContext) (funcidx : ℕ) : Prop :=
  ∀ s, Reached ctx funcidx s → s.code.data ≠ [] → s.live = true → ∀ i code, fetch s.code = some (i, code) → P i s.toEmitState

/-- A property that holds on entry and that every primitive step of an allowed instruction
keeps holds between any two opcodes of a body with allowed instructions. -/
theorem EachLive.keeps {P : Instr → EmitState → Prop} {I : Work → EmitState → Prop} {s : JitState} (hP : EachLive P ctx funcidx)
    (hctx : ctx.Ok)
    (start : ∀ type code params ret s, internalFunction ctx.module funcidx = some (type, code) → jitParams type = some params →
      jitRetType type = some ret → Entered ctx params ret s → I {} s)
    (step : ∀ i s, (s.live = true → P i s) → (s.live = false → i = .data ∨ i = .fin) →
      ∀ {w u w' v}, Prim (i.branching s) w u w' v → Shaped w u → I w u → I w' v)
    (h : Reached ctx funcidx s) : I s.idle s.toEmitState := by
  obtain ⟨type, code, params, first, hf, hp, hfirst, hrun⟩ := h.start
  obtain ⟨ret, hret⟩ := jitEnterFunction_retType hfirst
  have entered := jitEnterFunction_entered hp hret hfirst
  have live : first.live = true := by simp [EmitState.live, entered.labels]
  have reached : Reached ctx funcidx first := .enter hf hp hfirst
  clear h
  induction hrun with
  | refl => exact idle_of_live live ▸ start type code params ret _ hf hp hret entered
  | @tail u v hrun hstep ih =>
    have hu := reached.run hrun
    obtain ⟨i, -, hlive, hdead, steps⟩ := hu.prims hctx hstep
    have allowed : u.live = true → P i u.toEmitState := fun hl => by
      obtain ⟨code, hcode⟩ := hlive hl
      exact hP u hu hstep.1 hl i code hcode
    exact (steps.keeps (I := fun w t => Shaped w t ∧ I w t) (fun hprim h => ⟨hprim.shaped h.1, step i _ allowed hdead hprim h.1 h.2⟩)
      ⟨hu.shaped hctx, ih⟩).2

/-- Whether the live instructions ahead, fewer than `fuel`, are all ones that `P` allows. -/
def allows (P : Instr → EmitState → Prop) [∀ i s, Decidable (P i s)] : (fuel : ℕ) → JitState → Bool
  | 0, _ => false
  | fuel + 1, s => (!s.live || (fetch s.code).all fun p => decide (P p.1 s.toEmitState)) &&
      (jitWasmOpcode s).all fun p => allows P fuel p.2

/-- Whether that is so for a whole body. -/
def replay (P : Instr → EmitState → Prop) [∀ i s, Decidable (P i s)] (ctx : JitContext) (funcidx : ℕ) : Bool :=
  (internalFunction ctx.module funcidx).all fun f => (jitParams f.1).all fun params =>
    (jitEnterFunction f.1 (functionState ctx params f.2)).all fun p => allows P (f.2.length + 1) p.2

/-- A body can be gone through once. -/
theorem EachLive.of_replay {P : Instr → EmitState → Prop} [∀ i s, Decidable (P i s)] (h : replay P ctx funcidx = true) :
    EachLive P ctx funcidx := by
  intro s hs hcode hlive i code' hi
  obtain ⟨type, code, params, first, hf, hp, hfirst, hrun⟩ := hs.start
  have start : allows P (code.length + 1) first = true := by simpa [replay, hf, hp, hfirst] using h
  have ahead : ∃ fuel, allows P fuel s = true := by
    clear hs hlive hi hcode
    induction hrun with
    | refl => exact ⟨_, start⟩
    | @tail u v _ hstep ih =>
      obtain ⟨_ | fuel, hu⟩ := ih
      · cases hu
      · exact ⟨fuel, by simpa [hstep.2.2] using (Bool.and_eq_true_iff.mp hu).2⟩
  obtain ⟨_ | fuel, hs⟩ := ahead
  · cases hs
  · simpa [hlive, hi] using (Bool.and_eq_true_iff.mp hs).1

/-! ### Translations -/

/-- A body that was translated, in a context that is in order and on a builder with the
parameters of its type. -/
structure Translation where
  ctx : JitContext
  funcidx : ℕ
  params : List ValueType
  graph : Builder
  after : JitContext
  ok : ctx.Ok
  signature : ∀ type code, internalFunction ctx.module funcidx = some (type, code) → jitParams type = some params
  built : jitBuildFunction params funcidx ctx = some (graph, after)

namespace Translation

/-- The graph is that of a last state, behind all the code. -/
theorem last (T : Translation) :
    ∃ s, Reached T.ctx T.funcidx s ∧ s.func.labels = [] ∧ s.code.data = [] ∧ s.builder = T.graph ∧ s.ctx = T.after :=
  jitBuildFunction_between T.signature T.built

/-- Nothing is under way in the last state. -/
theorem idle_last {s : JitState} (h : s.func.labels = []) : s.idle = { mode := .dead } ∧ s.scopes = [] := by
  simp [EmitState.idle, EmitState.live, EmitState.scopes, h]

end Translation

/-- `block (result i32) local.get 0 local.get 0 br_if 0 drop i32.const 7 end`, for a function from and to `i32`. -/
def blockResult : JitContext :=
  let type : FuncType := { argTypes := [.i32], resultTypes := [.i32] }
  { module := { types := [type], functions := [0], code := some [[0x00, 0x02, 0x7F, 0x20, 0x00, 0x20, 0x00, 0x0D, 0x00, 0x1A, 0x41, 0x07, 0x0B, 0x0B]] } }

theorem blockResult_accepted : (jitBuildFunction [.ptr, .ptr, .i32] 0 blockResult).isSome = true := by decide +kernel

/-- Its translation. -/
def Translation.blockResult : Translation where
  ctx := Jit.blockResult
  funcidx := 0
  params := [.ptr, .ptr, .i32]
  graph := ((jitBuildFunction [.ptr, .ptr, .i32] 0 Jit.blockResult).get blockResult_accepted).1
  after := ((jitBuildFunction [.ptr, .ptr, .i32] 0 Jit.blockResult).get blockResult_accepted).2
  ok := ⟨fun i f h => by simp [Jit.blockResult] at h, fun k f h => by simp [Jit.blockResult] at h⟩
  signature type code h := by
    obtain ⟨rfl, -⟩ := Prod.mk.inj (Option.some.inj (h : some (⟨[.i32], [.i32]⟩, _) = some (type, code)))
    rfl
  built := by rw [Prod.eta, Option.some_get]

end SpidirWasm.Jit
