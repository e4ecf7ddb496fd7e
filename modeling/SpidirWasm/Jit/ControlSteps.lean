import SpidirWasm.Jit.DataSteps

/-! Every control instruction is a chain of primitive steps from nothing under way to
nothing under way. What its branches carry is read off the operand stack before it. -/

namespace SpidirWasm.Jit

open Checked
open Spidir (Builder Inst Term Value ValueType Block)

/-- An instruction as far as the control flow of the graph goes. -/
inductive Instr where
  | data
  | unreachable
  | block (type : ValueType)
  | loop (type : ValueType)
  | br (index : ℕ)
  | brIf (index : ℕ)
  | brTable (table : List ℕ) (default : ℕ)
  | ret
  | fin
  deriving DecidableEq, Repr

/-- What every preparation of a branch leaves alone in a label. -/
def JitLabel.kind (l : JitLabel) : Block × Bool × ValueType := (l.block, l.loop, l.resultType)

namespace EmitState

/-- The `n`-th operand from the top of the innermost stack. -/
def operand (s : EmitState) (n : ℕ) : Option JitValue := s.func.labels.head?.bind fun l => l.stack[n]?

/-- The type of the value a branch to `index` carries, the return type for the function body. -/
def targetType (s : EmitState) (index : ℕ) : ValueType :=
  match s.func.labels[index]? with
  | some target => branchOperandType s.func target index
  | none => .none

/-- The block a branch to `index` goes to, unless it is a return. -/
def targetBlock (s : EmitState) (index : ℕ) : List Block :=
  match s.func.labels[index]? with
  | some target => if isFuncbodyLabel s.func index then [] else [target.block]
  | none => []

/-- What decides where branches go and what they carry. -/
def targets (s : EmitState) : List (Block × Bool × ValueType) × ValueType :=
  (s.func.labels.map JitLabel.kind, s.func.retType)

end EmitState

namespace Instr

/-- The operand an instruction's branches carry; below the condition or the index. -/
def operand (s : EmitState) : Instr → Value
  | brIf _ | brTable _ _ => (s.operand 1).elim none JitValue.value
  | _ => (s.operand 0).elim none JitValue.value

/-- All targets of a `br_table` carry a value, or none does. -/
def Uniform (s : EmitState) : Instr → Prop
  | brTable table default => ∀ i ∈ table, s.targetType i = .none ↔ s.targetType default = .none
  | _ => True

/-- The operand that `br_if` peeks at has the type of its target, and so has the one that
`br_table` pops for its default. -/
def Strict (s : EmitState) : Instr → Prop
  | brIf index => s.targetType index ≠ .none → (s.operand 1).map JitValue.type = some (s.targetType index)
  | brTable table default => ∀ i ∈ table, s.targetType i = s.targetType default ∨
      s.targetType i = .none ∧ ¬isFuncbodyLabel s.func i
  | _ => True

def branching (s : EmitState) (i : Instr) : Branching where
  locals := s.func.locals
  operand := i.operand s
  uniform := i.Uniform s
  strict := i.Strict s
  leaks := ∃ default, i = .brTable [] default

end Instr

/-! ### Frames -/

variable {J : Branching} {w : Work} {s t : EmitState} {index : ℕ} {v : Value}

theorem targets_getElem? (h : t.targets = s.targets) (i : ℕ) :
    (t.func.labels[i]?).map JitLabel.kind = (s.func.labels[i]?).map JitLabel.kind := by
  rw [← List.getElem?_map, ← List.getElem?_map, (Prod.mk.inj h).1]

theorem targets_length (h : t.targets = s.targets) : t.func.labels.length = s.func.labels.length := by
  simpa using congrArg List.length (Prod.mk.inj h).1

theorem isFuncbodyLabel_congr (h : t.targets = s.targets) (index : ℕ) : isFuncbodyLabel t.func index ↔ isFuncbodyLabel s.func index := by
  unfold isFuncbodyLabel
  rw [targets_length h]

theorem mergeResult_congr {l l' : JitLabel} (h : l.kind = l'.kind) : l.mergeResult ↔ l'.mergeResult := by
  simp only [JitLabel.kind, Prod.mk.injEq] at h
  simp [JitLabel.mergeResult, h]

theorem targetType_congr (h : t.targets = s.targets) : t.targetType index = s.targetType index := by
  have hk := targets_getElem? h index
  have hf := isFuncbodyLabel_congr h index
  have hr := (Prod.mk.inj h).2
  unfold EmitState.targetType branchOperandType JitLabel.branchType
  rcases ht : t.func.labels[index]? with _ | a <;> rcases hs : s.func.labels[index]? with _ | b <;> simp [ht, hs] at hk ⊢
  simp only [JitLabel.kind, Prod.mk.injEq] at hk
  simp only [hf, hr, hk.2.1, hk.2.2]

theorem targetBlock_congr (h : t.targets = s.targets) : t.targetBlock = s.targetBlock := by
  funext index
  have hk := targets_getElem? h index
  have hf := isFuncbodyLabel_congr h index
  unfold EmitState.targetBlock
  rcases ht : t.func.labels[index]? with _ | a <;> rcases hs : s.func.labels[index]? with _ | b <;> simp [ht, hs] at hk ⊢
  simp only [JitLabel.kind, Prod.mk.injEq] at hk
  simp only [hf, hk.1]

theorem arrive_targets (target : JitLabel) (hl : s.func.labels[index]? = some target) :
    (s.arrive index target v).targets = s.targets := by
  simp only [EmitState.targets, arrive_map hl (f := JitLabel.kind) (by simp [JitLabel.kind])]
  rfl

/-- Only the innermost stack changes when operands are popped. -/
theorem withStack_targets {l : JitLabel} {ls : List JitLabel} (hl : s.func.labels = l :: ls) (stack : List JitValue) :
    (s.withLabels ({ l with stack } :: ls)).targets = s.targets := by
  simp [EmitState.targets, hl, JitLabel.kind]

/-! ### The parts of the handlers -/

/-- A pop that may be none. -/
theorem jitPopIf_eq_some (type : ValueType) (s : EmitState) (r : Value × EmitState) :
    jitPopIf type s = some r ↔ (type = .none ∧ r = (none, s)) ∨ (type ≠ .none ∧ ∃ l ls rest, s.func.labels = l :: ls ∧
      l.stack = ⟨r.1, type⟩ :: rest ∧ r.2 = s.withLabels ({ l with stack := rest } :: ls)) := by
  unfold jitPopIf
  split_ifs with h
  · simp [h]
  · simp [h]

theorem jitPeekIf_eq_some (type : ValueType) (s : EmitState) (r : Value × EmitState) :
    jitPeekIf type s = some r ↔ (type = .none ∧ r = (none, s)) ∨ (type ≠ .none ∧ ∃ l ls a rest, s.func.labels = l :: ls ∧
      l.stack = a :: rest ∧ r = (a.value, s)) := by
  unfold jitPeekIf
  split_ifs with h
  · simp [h]
  · rcases hl : s.func.labels with _ | ⟨l, ls⟩
    · simp [h, hl]
    · rcases hv : l.stack with _ | ⟨a, rest⟩ <;> simp [h, hl, hv]

theorem jitWasmPrepareBranch_eq_some (index : ℕ) (v : Value) (s : EmitState) (r : Unit × EmitState) :
    jitWasmPrepareBranch index v s = some r ↔ ∃ target, s.func.labels[index]? = some target ∧
      (target.locals ≠ none → s.builder.cur ≠ none) ∧ r = ((), s.arrive index target v) := by
  simp only [jitWasmPrepareBranch, labelAt_bind_eq_some, get_bind, check_bind_eq_some, set_bind, modifyLabel_eq_some]
  rfl

/-- What stays the same up to where the branches are built. -/
structure Frame (s t : EmitState) : Prop where
  targets : t.targets = s.targets
  ctx : t.ctx = s.ctx
  locals : t.func.locals = s.func.locals

theorem Frame.refl (s : EmitState) : Frame s s := ⟨rfl, rfl, rfl⟩

theorem Frame.trans {u : EmitState} (h : Frame s t) (h' : Frame t u) : Frame s u :=
  ⟨h'.targets.trans h.targets, h'.ctx.trans h.ctx, h'.locals.trans h.locals⟩

theorem Frame.builder (s : EmitState) (b : Builder) : Frame s (s.withBuilder b) := ⟨rfl, rfl, rfl⟩

theorem popIf_prims {type : ValueType} (ho : w.owed = []) (h : jitPopIf type s = some (v, t)) :
    ∃ Γ, w.hand ⊆ Γ ∧ Prims J w s { w with hand := Γ } t ∧ (type = .none → v = none) ∧
      (type ≠ .none → ⟨v, type⟩ ∈ Γ ∧ s.operand 0 = some ⟨v, type⟩) ∧ Frame s t := by
  rcases (jitPopIf_eq_some type s _).mp h with ⟨rfl, he⟩ | ⟨hne, l, ls, rest, hl, hv, rfl⟩
  · obtain ⟨rfl, rfl⟩ := Prod.mk.inj he
    exact ⟨w.hand, subset_rfl, .refl, by simp, by simp, .refl _⟩
  · refine ⟨_, Set.subset_insert _ _, (Prim.pop ho hl hv).prims, by simp [hne], fun _ => ⟨by simp, ?_⟩,
      withStack_targets hl rest, rfl, rfl⟩
    simp [EmitState.operand, hl, hv]

theorem mergeResult_targetType {target : JitLabel} (hl : s.func.labels[index]? = some target)
    (hf : ¬isFuncbodyLabel s.func index) (hm : target.mergeResult) :
    s.targetType index = target.resultType ∧ target.resultType ≠ .none := by
  simp [EmitState.targetType, branchOperandType, JitLabel.branchType, hl, hf, hm.1, hm.2]

/-- One preparation of a branch to a block. -/
theorem arrive_prims (h : jitWasmPrepareBranch index v s = some ((), t)) (hm : w.mode = .live)
    (hf : ¬isFuncbodyLabel s.func index) (hlocals : s.func.locals = J.locals)
    (hv : s.targetType index ≠ .none → (J.uniform → v = J.operand ∧ ∃ ty, ⟨v, ty⟩ ∈ w.hand) ∧
      (J.strict → ⟨v, s.targetType index⟩ ∈ w.hand)) :
    Prims J w s { w with due := s.targetBlock index ++ w.due } t ∧ Frame s t := by
  obtain ⟨target, hl, -, he⟩ := (jitWasmPrepareBranch_eq_some index v s _).mp h
  obtain ⟨-, rfl⟩ := Prod.mk.inj he
  have hi := (List.getElem?_eq_some_iff.mp hl).1
  have due : s.targetBlock index = [target.block] := by simp [EmitState.targetBlock, hl, hf]
  refine ⟨due ▸ (Prim.arrive hm hl (by unfold isFuncbodyLabel at hf; omega) hlocals fun hmerge => ?_).prims,
    arrive_targets target hl, rfl, rfl⟩
  obtain ⟨htype, hne⟩ := mergeResult_targetType hl hf hmerge
  exact htype ▸ hv (htype ▸ hne)

/-! ### Straight to one target -/

/-- From nothing under way to nothing under way. -/
def Settled (J : Branching) (s t : EmitState) : Prop :=
  ∃ w, Prims J s.idle s w t ∧ w.owed = [] ∧ w.due = [] ∧ w.mode ≠ .sealed

theorem idle_of_live (hs : s.live = true) : s.idle = {} := by simp [EmitState.idle, hs]

theorem Settled.of_live (hs : s.live = true) (h : Prims J {} s w t) (ho : w.owed = []) (hd : w.due = []) (hm : w.mode ≠ .sealed) :
    Settled J s t := ⟨w, idle_of_live hs ▸ h, ho, hd, hm⟩

theorem live_labels (hs : s.live = true) : ∃ l ls, s.func.labels = l :: ls ∧ l.terminated = false := by
  unfold EmitState.live at hs
  rcases hl : s.func.labels with _ | ⟨l, ls⟩
  · simp [hl] at hs
  · exact ⟨l, ls, rfl, by simpa [hl] using hs⟩

theorem setTerminated_eq_some (s : EmitState) (r : Unit × EmitState) :
    setTerminated s = some r ↔ r = ((), s.withLabels (s.func.labels.modify 0 fun l => { l with terminated := true })) :=
  modifyLabel_eq_some _ _ s r

/-- Marking the label closes the handler. -/
theorem Settled.mark {u : EmitState} (hs : s.live = true) (h : Prims J {} s w t) (hm : w.mode = .sealed) (ho : w.owed = []) (hd : w.due = [])
    (ht : t.func.labels ≠ []) (hu : setTerminated t = some ((), u)) : Settled J s u := by
  obtain ⟨-, rfl⟩ := Prod.mk.inj ((setTerminated_eq_some t _).mp hu)
  rcases hl : t.func.labels with _ | ⟨l, ls⟩
  · exact absurd hl ht
  · exact .of_live hs (h.step (.mark hm hl)) ho hd (by simp)

theorem labels_ne_nil (h : t.targets = s.targets) (hs : s.func.labels ≠ []) : t.func.labels ≠ [] := by
  have := targets_length h
  intro ht
  rw [ht] at this
  exact hs (List.length_eq_zero_iff.mp this.symm)

theorem emitUnreachable_settled (hs : s.live = true) (hc : s.ctx.Ok) (h : emitUnreachable s = some ((), t)) :
    t.ctx.Ok ∧ Settled J s t := by
  obtain ⟨l, ls, hl, -⟩ := live_labels hs
  simp only [emitUnreachable, jitEmitTrap, bind_assoc, context_bind_eq_some, build_bind, terminate_bind] at h
  obtain ⟨trap, c, htrap, h⟩ := h
  obtain ⟨hok, hk⟩ := jitGetHelper_ok htrap hc
  obtain ⟨hret, hargs⟩ := Prod.mk.inj (Option.some.inj hk)
  have call : (Inst.call trap []).HasType (fun v t => (⟨v, t⟩ : JitValue) ∈ (∅ : Hand)) .none := hret ▸ .call (hargs ▸ .nil)
  have steps := (((Prim.context (J := J) (w := {}) (s := s) c).prims.step
    (.effect rfl call (by simp [Inst.hasOutput, ← hret]))).step (.term (t := .unreachable) rfl (fun _ => .unreachable) (.nil _)))
  have settled := Settled.mark hs steps rfl rfl rfl (by simp [hl]) h
  obtain ⟨-, rfl⟩ := Prod.mk.inj ((setTerminated_eq_some _ _).mp h)
  exact ⟨hok, settled⟩

theorem openBlock_settled {type : ValueType} (hs : s.live = true) (h : openBlock type s = some ((), t)) :
    t.ctx = s.ctx ∧ Settled J s t := by
  obtain ⟨l, ls, hl, -⟩ := live_labels hs
  simp only [openBlock, createBlock_bind, pushLabel, update_eq_some, Prod.mk.injEq, true_and] at h
  subst h
  exact ⟨rfl, .of_live hs (Prim.openBlock rfl rfl (by simp [hl])).prims rfl rfl (by simp)⟩

theorem openLoop_settled {type : ValueType} (hs : s.live = true) (hlocals : s.func.locals = J.locals)
    (h : openLoop type s = some ((), t)) : t.ctx = s.ctx ∧ Settled J s t := by
  obtain ⟨l, ls, hl, -⟩ := live_labels hs
  simp only [openLoop, createBlock_bind, terminate_bind, setBlock_bind, get_bind, set_bind, pushLabel, update_eq_some,
    Prod.mk.injEq, true_and] at h
  subst h
  exact ⟨rfl, .of_live hs (Prim.loop rfl rfl rfl (by simp [hl]) hlocals).prims rfl rfl (by simp)⟩

theorem targetType_of_label {target : JitLabel} (hl : s.func.labels[index]? = some target)
    (hf : ¬isFuncbodyLabel s.func index) : s.targetType index = target.branchType := by
  simp [EmitState.targetType, branchOperandType, hl, hf]

theorem targetBlock_of_label {target : JitLabel} (hl : s.func.labels[index]? = some target)
    (hf : ¬isFuncbodyLabel s.func index) : s.targetBlock index = [target.block] := by
  simp [EmitState.targetBlock, hl, hf]

theorem ret_wellTyped {Γ : Hand} {type : ValueType} (h : type = .none → v = none) (h' : type ≠ .none → ⟨v, type⟩ ∈ Γ) :
    (Term.ret v).WellTyped (fun v ty => ⟨v, ty⟩ ∈ Γ) type := by
  by_cases ht : type = .none
  · rw [h ht]; exact .retNone ht
  · exact .retSome ht (h' ht)

/-- The branch of `br`, which leaves the block sealed. -/
theorem brTarget_prims (hJ : J = (Instr.br index).branching s) (h : brTarget index s = some ((), t)) :
    ∃ w, Prims J {} s w t ∧ w.owed = [] ∧ w.due = [] ∧ w.mode = .sealed ∧ Frame s t := by
  simp only [brTarget, labelAt_bind_eq_some, read_bind] at h
  obtain ⟨target, hl, h⟩ := h
  split_ifs at h with hf
  · obtain ⟨v, u, hp, h⟩ := (bind_eq_some _ _ _ _).mp h
    obtain ⟨Γ, -, pops, hnone, hsome, frame⟩ := popIf_prims (J := J) (w := {}) rfl hp
    obtain ⟨-, rfl⟩ := Prod.mk.inj ((terminate_eq_some _ _ _).mp h)
    have hret : u.func.retType = s.func.retType := (Prod.mk.inj frame.targets).2
    exact ⟨_, pops.step (.term (t := .ret v) rfl (fun _ => ret_wellTyped (hret ▸ hnone) (hret ▸ fun hne => (hsome hne).1)) (.nil _)),
      rfl, rfl, rfl, frame.trans (.builder _ _)⟩
  · obtain ⟨v, u, hp, h⟩ := (bind_eq_some _ _ _ _).mp h
    obtain ⟨Γ, -, pops, -, hsome, frame⟩ := popIf_prims (J := J) (w := {}) rfl hp
    obtain ⟨_, r, hr, h⟩ := (bind_eq_some _ _ _ _).mp h
    obtain ⟨-, rfl⟩ := Prod.mk.inj ((terminate_eq_some _ _ _).mp h)
    have htype : u.targetType index = target.branchType := (targetType_congr frame.targets).trans (targetType_of_label hl hf)
    have hblock : u.targetBlock index = [target.block] := (congrFun (targetBlock_congr frame.targets) index).trans (targetBlock_of_label hl hf)
    obtain ⟨arrives, frame'⟩ := arrive_prims (J := J) (w := { hand := Γ }) hr rfl
      (fun hf' => hf ((isFuncbodyLabel_congr frame.targets _).mp hf')) (by rw [frame.locals, hJ]; rfl) (by
        rw [htype]
        intro hne
        obtain ⟨hmem, htop⟩ := hsome hne
        exact ⟨fun _ => ⟨by simp [hJ, Instr.branching, Instr.operand, htop], _, hmem⟩, fun _ => hmem⟩)
    rw [hblock] at arrives
    exact ⟨_, (pops.trans arrives).step (.term (t := .branch target.block) rfl (fun _ => .branch _) (.label (.refl _) (.nil _))),
      rfl, rfl, rfl, (frame.trans frame').trans (.builder _ _)⟩

theorem emitBr_settled (hs : s.live = true) (h : emitBr index s = some ((), t)) :
    t.ctx = s.ctx ∧ Settled ((Instr.br index).branching s) s t := by
  obtain ⟨l, ls, hl, -⟩ := live_labels hs
  obtain ⟨_, u, hb, h⟩ := (bind_eq_some _ _ _ _).mp h
  obtain ⟨w, steps, ho, hd, hm, frame⟩ := brTarget_prims rfl hb
  have settled := Settled.mark hs steps hm ho hd (labels_ne_nil frame.targets (by simp [hl])) h
  obtain ⟨-, rfl⟩ := Prod.mk.inj ((setTerminated_eq_some _ _).mp h)
  exact ⟨frame.ctx, settled⟩

theorem emitReturn_settled (hs : s.live = true) (h : emitReturn s = some ((), t)) : t.ctx = s.ctx ∧ Settled J s t := by
  simp only [emitReturn, read_bind] at h
  obtain ⟨v, u, hp, h⟩ := (bind_eq_some _ _ _ _).mp h
  obtain ⟨Γ, -, pops, hnone, hsome, frame⟩ := popIf_prims (J := J) (w := {}) rfl hp
  simp only [modifyLabel_bind, terminate_bind] at h
  obtain ⟨l, ls, hl, -⟩ := live_labels hs
  have hne : u.func.labels ≠ [] := labels_ne_nil frame.targets (by simp [hl])
  rcases hu : u.func.labels with _ | ⟨l', ls'⟩
  · exact absurd hu hne
  simp only [hu, List.modify_zero_cons] at h
  have hret : u.func.retType = s.func.retType := (Prod.mk.inj frame.targets).2
  have steps := (pops.step (.discard rfl hu)).step (.term (t := .ret v) rfl
    (fun _ => ret_wellTyped (hret ▸ hnone) (hret ▸ fun hne => (hsome hne).1)) (.nil _))
  have settled := Settled.mark hs steps rfl rfl rfl (by simp) h
  obtain ⟨-, rfl⟩ := Prod.mk.inj ((setTerminated_eq_some _ _).mp h)
  exact ⟨frame.ctx, settled⟩

/-! ### A condition -/

/-- A peek that may be none; whatever the operand's own type, it is at hand with it. -/
theorem peekIf_prims {type : ValueType} (h : jitPeekIf type s = some (v, t)) : t = s ∧ ∃ Γ, w.hand ⊆ Γ ∧
    Prims J w s { w with hand := Γ } s ∧ (type = .none → v = none) ∧
    (type ≠ .none → ∃ a, s.operand 0 = some a ∧ a.value = v ∧ a ∈ Γ) := by
  rcases (jitPeekIf_eq_some type s _).mp h with ⟨rfl, he⟩ | ⟨hne, l, ls, a, rest, hl, hv, he⟩
  · obtain ⟨rfl, rfl⟩ := Prod.mk.inj he
    exact ⟨rfl, w.hand, subset_rfl, .refl, by simp, by simp⟩
  · obtain ⟨rfl, rfl⟩ := Prod.mk.inj he
    exact ⟨rfl, _, Set.subset_insert _ _, (Prim.peek hl hv).prims, by simp [hne],
      fun _ => ⟨a, by simp [EmitState.operand, hl, hv], rfl, by simp⟩⟩

/-- The operand that was peeked at, as the branch needs it. -/
theorem peeked_mem {Γ : Hand} {type : ValueType} {a : JitValue} (ha : a.value = v) (hmem : a ∈ Γ) (htype : a.type = type) :
    ⟨v, type⟩ ∈ Γ := by
  subst ha htype
  exact hmem

/-- The conditional branch, with the continuation still to be entered. -/
theorem brIfTarget_prims {c : Value} {continuation : Block} {H : Hand} (h : brIfTarget index c continuation s = some ((), t))
    (hc : ⟨c, .i32⟩ ∈ H) (hlocals : s.func.locals = J.locals)
    (hop : J.operand = (s.operand 0).elim none JitValue.value)
    (hstrict : J.strict → s.targetType index ≠ .none → (s.operand 0).map JitValue.type = some (s.targetType index)) :
    ∃ w, Prims J { hand := H, owed := [(continuation, ∅)] } s w t ∧ w.owed = [(continuation, ∅)] ∧ w.due = [] ∧
      w.mode = .sealed ∧ Frame s t := by
  simp only [brIfTarget, labelAt_bind_eq_some, read_bind] at h
  obtain ⟨target, hl, h⟩ := h
  -- what is peeked at has the type of the target where the instruction is strict
  have typed : ∀ {v : Value} {Γ : Hand}, (s.targetType index ≠ .none → ∃ a, s.operand 0 = some a ∧ a.value = v ∧ a ∈ Γ) →
      J.strict → s.targetType index ≠ .none → ⟨v, s.targetType index⟩ ∈ Γ := by
    intro v Γ hsome hs hne
    obtain ⟨a, ha, hav, hmem⟩ := hsome hne
    exact peeked_mem hav hmem (by simpa [ha] using hstrict hs hne)
  split_ifs at h with hf
  · obtain ⟨v, u, hp, hu⟩ := (bind_eq_some _ _ _ _).mp h
    obtain ⟨rfl, Γ, hsub, peeks, hnone, hsome⟩ := peekIf_prims (J := J) (w := { hand := H, owed := [(continuation, ∅)] }) hp
    simp only [createBlock_bind, terminate_bind, setBlock_bind, terminate_eq_some, Prod.mk.injEq, true_and] at hu
    subst hu
    have htype : u.targetType index = u.func.retType := by simp [EmitState.targetType, branchOperandType, hl, hf]
    have branch := (peeks.step (.block (subset_refl Γ))).step (.term (t := .brcond c u.builder.nextBlock continuation) rfl
      (fun _ => .brcond (hsub hc)) (.fresh (.head _) (.fresh (.tail _ (.head _)) (.nil _))))
    have enters := branch.step (.enter (Γ := Γ) rfl (.refl _) (by simp))
    refine ⟨_, enters.step (.term (t := .ret v) rfl (fun hs => ret_wellTyped hnone fun hne => ?_) (.nil _)), rfl, rfl, rfl,
      (Frame.builder _ _)⟩
    exact htype ▸ typed (htype ▸ hsome) hs (htype ▸ hne)
  · obtain ⟨v, u, hp, hu⟩ := (bind_eq_some _ _ _ _).mp h
    obtain ⟨rfl, Γ, hsub, peeks, hnone, hsome⟩ := peekIf_prims (J := J) (w := { hand := H, owed := [(continuation, ∅)] }) hp
    obtain ⟨_, r, hr, ht⟩ := (bind_eq_some _ _ _ _).mp hu
    obtain ⟨-, rfl⟩ := Prod.mk.inj ((terminate_eq_some _ _ _).mp ht)
    have htype : u.targetType index = target.branchType := targetType_of_label hl hf
    obtain ⟨arrives, frame⟩ := arrive_prims (J := J) (w := { hand := Γ, owed := [(continuation, ∅)] }) hr rfl hf hlocals (by
      intro hne
      obtain ⟨a, ha, hav, hmem⟩ := hsome (htype ▸ hne)
      exact ⟨fun _ => ⟨by simp [hop, ha, hav], a.type, peeked_mem hav hmem rfl⟩,
        fun hs => typed (htype ▸ hsome) hs hne⟩)
    rw [targetBlock_of_label hl hf] at arrives
    exact ⟨_, (peeks.trans arrives).step (.term (t := .brcond c target.block continuation) rfl (fun _ => .brcond (hsub hc))
      (.label (.refl _) (.fresh (.head _) (.nil _)))), rfl, rfl, rfl, frame.trans (.builder _ _)⟩

theorem emitBrIf_settled (hs : s.live = true) (h : emitBrIf index s = some ((), t)) :
    t.ctx = s.ctx ∧ Settled ((Instr.brIf index).branching s) s t := by
  simp only [emitBrIf, labelAt_bind_eq_some, jitPop_bind_eq_some, createBlock_bind] at h
  obtain ⟨target, htarget, c, l, ls, rest, hl, hv, h⟩ := h
  obtain ⟨_, r, hr, h⟩ := (bind_eq_some _ _ _ _).mp h
  obtain ⟨-, rfl⟩ := Prod.mk.inj ((setBlock_eq_some _ _ _).mp h)
  have htop : s.operand 1 = (s.withLabels ({ l with stack := rest } :: ls)).operand 0 := by simp [EmitState.operand, hl, hv]
  have htype : (s.withLabels ({ l with stack := rest } :: ls)).targetType index = s.targetType index :=
    targetType_congr (withStack_targets hl rest)
  have pop := (Prim.pop (J := (Instr.brIf index).branching s) (w := {}) rfl hl hv).prims.step (.block (Set.empty_subset _))
  obtain ⟨w, branch, ho, hd, hm, frame⟩ := brIfTarget_prims (J := (Instr.brIf index).branching s)
    (H := {⟨c, .i32⟩}) hr rfl rfl (congrArg (Option.elim · none JitValue.value) htop)
    (fun hs hne => (congrArg (Option.map JitValue.type) htop).symm.trans ((hs (htype ▸ hne)).trans (congrArg some htype.symm)))
  rw [insert_empty_eq] at pop
  exact ⟨frame.ctx, .of_live hs ((pop.trans branch).step (.enter hm (by rw [ho]) (by simp))) rfl hd (by simp)⟩

/-! ### A table -/

/-- What a value has to be for a target that takes one. -/
def Carries (J : Branching) (Γ : Hand) (v : Value) (type : ValueType) : Prop :=
  type ≠ .none → (J.uniform → v = J.operand ∧ ∃ ty, ⟨v, ty⟩ ∈ Γ) ∧ (J.strict → ⟨v, type⟩ ∈ Γ)

theorem prepareTarget_prims (h : prepareTarget v index s = some ((), t)) (hm : w.mode = .live)
    (hlocals : s.func.locals = J.locals) (hv : ¬isFuncbodyLabel s.func index → Carries J w.hand v (s.targetType index)) :
    Prims J w s { w with due := s.targetBlock index ++ w.due } t ∧ Frame s t := by
  simp only [prepareTarget, read_bind] at h
  split_ifs at h with hf
  · obtain ⟨-, rfl⟩ := Prod.mk.inj ((pure_eq_some _ _ _).mp h)
    have nothing : t.targetBlock index = [] := by
      unfold EmitState.targetBlock
      split <;> simp [hf]
    rw [nothing]
    exact ⟨.refl, .refl t⟩
  · obtain ⟨target, hl, h⟩ := (labelAt_bind_eq_some _ _ _ _).mp h
    have htype := targetType_of_label hl hf
    refine arrive_prims h hm hf hlocals fun hne => ?_
    by_cases hloop : target.loop
    · exact absurd (by simp [htype, JitLabel.branchType, hloop]) hne
    · simpa [hloop] using hv hf hne

theorem prepareTargets_prims {table : List ℕ} (h : prepareTargets v table s = some ((), t)) (hm : w.mode = .live)
    (hlocals : s.func.locals = J.locals)
    (hv : ∀ i ∈ table, ¬isFuncbodyLabel s.func i → Carries J w.hand v (s.targetType i)) :
    ∃ due, due.Perm (table.flatMap s.targetBlock ++ w.due) ∧ Prims J w s { w with due } t ∧ Frame s t := by
  induction table generalizing s w with
  | nil =>
    obtain ⟨-, rfl⟩ := Prod.mk.inj ((pure_eq_some _ _ _).mp h)
    exact ⟨w.due, by simp, .refl, .refl _⟩
  | cons index rest ih =>
    obtain ⟨_, u, hu, h⟩ := (bind_eq_some _ _ _ _).mp h
    obtain ⟨first, frame⟩ := prepareTarget_prims (J := J) hu hm hlocals (hv index (by simp))
    obtain ⟨due, hdue, others, frame'⟩ := ih (w := { w with due := s.targetBlock index ++ w.due }) h hm
      (frame.locals.trans hlocals) (fun i hi hf => by
        rw [targetType_congr frame.targets]
        exact hv i (by simp [hi]) fun hf' => hf ((isFuncbodyLabel_congr frame.targets _).mpr hf'))
    refine ⟨due, hdue.trans ?_, first.trans others, frame.trans frame'⟩
    rw [targetBlock_congr frame.targets, List.flatMap_cons, ← List.append_assoc]
    exact List.perm_append_comm.append_right _

/-- The shared return block as a block still to be entered. -/
def owedReturn (Γ : Hand) (retBlock : Option Block) : List (Block × Hand) := retBlock.toList.map (·, Γ)

/-- A resolved target is the shared return block or the block that was prepared. -/
theorem resolveTarget_prims {Γ : Hand} {rb rb' : Option Block} {b : Block} (others : List (Block × Hand))
    (h : resolveTarget rb index s = some ((b, rb'), t)) (hΓ : Γ ⊆ w.hand) (ho : w.owed.Perm (owedReturn Γ rb ++ others)) :
    ∃ owed, owed.Perm (owedReturn Γ rb' ++ others) ∧ Prims J w s { w with owed } t ∧ Frame s t ∧
      (∀ {due rest}, due.Perm (s.targetBlock index ++ rest) → ∃ due', due'.Perm rest ∧ Settles owed due [b] due') ∧
      (rb' ≠ none → rb ≠ none ∨ isFuncbodyLabel s.func index) := by
  simp only [resolveTarget, read_bind] at h
  split_ifs at h with hf
  · have nothing : s.targetBlock index = [] := by
      unfold EmitState.targetBlock
      split <;> simp [hf]
    -- the return block is owed, whether it is new or not
    have settles : ∀ {owed : List (Block × Hand)}, (b, Γ) ∈ owed → ∀ {due rest : List Block},
        due.Perm (s.targetBlock index ++ rest) → ∃ due', due'.Perm rest ∧ Settles owed due [b] due' := by
      intro owed hb due rest hd
      exact ⟨due, by simpa [nothing] using hd, .fresh hb (.nil _)⟩
    rcases rb with _ | b₀
    · simp only [createBlock_bind, pure_eq_some, Prod.mk.injEq] at h
      obtain ⟨⟨rfl, rfl⟩, rfl⟩ := h
      exact ⟨_, by simpa [owedReturn] using ho, (Prim.block hΓ).prims, .builder _ _, settles (by simp), fun _ => .inr hf⟩
    · simp only [pure_eq_some, Prod.mk.injEq] at h
      obtain ⟨⟨rfl, rfl⟩, rfl⟩ := h
      exact ⟨w.owed, ho, .refl, .refl _, settles (ho.mem_iff.mpr (by simp [owedReturn])), fun _ => .inr hf⟩
  · simp only [labelAt_bind_eq_some, pure_eq_some, Prod.mk.injEq] at h
    obtain ⟨target, hl, ⟨rfl, rfl⟩, rfl⟩ := h
    refine ⟨w.owed, ho, .refl, .refl _, fun {due rest} hd => ⟨rest, .refl _, ?_⟩, fun hne => .inl hne⟩
    rw [targetBlock_of_label hl hf] at hd
    exact .label hd (.nil _)

/-- The chain of cases enters its blocks one after the other and builds every edge that
was prepared. -/
theorem emitCases_prims {Γ : Hand} {idx : Value} (hidx : ⟨idx, .i32⟩ ∈ Γ) {cases : List ℕ} {i : ℕ} {next : Block}
    {rb rb' : Option Block} (h : emitCases idx i cases next rb s = some (rb', t)) (hne : cases ≠ []) (hm : w.mode = .sealed)
    (ho : w.owed.Perm ((next, Γ) :: owedReturn Γ rb)) (hd : w.due.Perm (cases.flatMap s.targetBlock)) :
    ∃ w', Prims J w s w' t ∧ w'.mode = .sealed ∧ w'.owed.Perm (owedReturn Γ rb') ∧ w'.due = [] ∧ Frame s t ∧
      (rb' ≠ none → rb ≠ none ∨ ∃ i ∈ cases, isFuncbodyLabel s.func i) := by
  induction cases generalizing s w i next rb with
  | nil => exact absurd rfl hne
  | cons case rest ih =>
    simp only [emitCases, setBlock_bind] at h
    obtain ⟨⟨target, rb₁⟩, u, hu, ht⟩ := (bind_eq_some _ _ _ _).mp h
    have enters := (Prim.enter (J := J) (s := s) hm ho (by
      intro p hp
      obtain ⟨b, -, rfl⟩ := List.mem_map.mp hp
      exact subset_rfl)).prims
    obtain ⟨owed, howed, resolves, frame, settles, hret⟩ := resolveTarget_prims (J := J) (Γ := Γ)
      (w := { w with hand := Γ, owed := owedReturn Γ rb, mode := .live }) [] hu subset_rfl (by simp)
    rw [List.append_nil] at howed
    have frame' : Frame s u := (Frame.builder s _).trans frame
    obtain ⟨due, hdue, hsettle⟩ := settles (show w.due.Perm (s.targetBlock case ++ rest.flatMap s.targetBlock) from hd)
    have here : rb₁ ≠ none → rb ≠ none ∨ ∃ i ∈ case :: rest, isFuncbodyLabel s.func i :=
      fun hne => (hret hne).imp_right fun hf => ⟨case, by simp, hf⟩
    by_cases hrest : rest = []
    · simp only [hrest, if_true, terminate_bind, pure_eq_some, Prod.mk.injEq] at ht
      obtain ⟨rfl, rfl⟩ := ht
      exact ⟨_, (enters.trans resolves).step (.term (t := .branch target) rfl (fun _ => .branch _) hsettle), rfl,
        howed, by simpa [hrest] using hdue, frame'.trans (.builder _ _), here⟩
    · simp only [hrest, if_false, createBlock_bind, build_bind, terminate_bind] at ht
      have consts := ((((enters.trans resolves).step (.block (Γ := Γ) subset_rfl)).step
        (.node rfl (.iconst .i32 (.inl isInt_i32) (BitVec.ofNat 64 i)) rfl)).step
        (.node rfl (.icmp (k := .eq) (t := .i32) (u := .i32) (a := idx) (b := some u.builder.nextValue) isInt_i32 isInt_i32
          (by simp [hidx]) (Set.mem_insert _ _)) rfl))
      obtain ⟨w₁, branch, hm₁, ho₁, hd₁⟩ : ∃ w₁, Prims J w s w₁ _ ∧ w₁.mode = .sealed ∧
          w₁.owed = (u.builder.nextBlock, Γ) :: owed ∧ w₁.due = due :=
        ⟨_, consts.step (.term (t := .brcond (some (u.builder.nextValue + 1)) target u.builder.nextBlock) rfl
          (fun _ => .brcond (Set.mem_insert _ _)) (by
            cases hsettle with
            | fresh hd hs => cases hs; exact .fresh (.tail _ hd) (.fresh (.head _) (.nil _))
            | label hd hs => cases hs; exact .label hd (.fresh (.head _) (.nil _)))), rfl, rfl, rfl⟩
      obtain ⟨w', chain, hm', ho', hd', frame'', hret'⟩ := ih (w := w₁) ht hrest hm₁ (ho₁ ▸ howed.cons _) (by
        change w₁.due.Perm (rest.flatMap u.targetBlock)
        rw [hd₁, targetBlock_congr frame'.targets]
        exact hdue)
      refine ⟨w', branch.trans chain, hm', ho', hd', (frame'.trans (.builder _ _)).trans frame'', fun hne => ?_⟩
      rcases hret' hne with hne | ⟨i, hi, hf⟩
      · exact here hne
      · exact .inr ⟨i, by simp [hi], (isFuncbodyLabel_congr (frame'.trans (.builder _ _)).targets _).mp hf⟩

theorem emitReturnBlock_prims {Γ : Hand} {rb : Option Block} (h : emitReturnBlock v rb s = some ((), t)) (hm : w.mode = .sealed)
    (ho : w.owed.Perm (owedReturn Γ rb)) (hd : w.due = [])
    (hv : rb ≠ none → J.strict → (Term.ret v).WellTyped (fun v ty => ⟨v, ty⟩ ∈ Γ) s.func.retType) :
    ∃ w', Prims J w s w' t ∧ w'.owed = [] ∧ w'.due = [] ∧ w'.mode = .sealed ∧ Frame s t := by
  rcases rb with _ | b
  · obtain ⟨-, rfl⟩ := Prod.mk.inj ((pure_eq_some _ _ _).mp h)
    exact ⟨w, .refl, ho.eq_nil, hd, hm, .refl _⟩
  · simp only [emitReturnBlock, setBlock_bind, terminate_eq_some, Prod.mk.injEq, true_and] at h
    subst h
    exact ⟨_, (Prim.enter hm ho (by simp)).prims.step (.term (t := .ret v) rfl (hv (by simp)) (.nil _)), rfl, hd, rfl, .builder _ _⟩

theorem brTableTargets_prims {table : List ℕ} {default : ℕ} (hJ : J = (Instr.brTable table default).branching s)
    (h : brTableTargets table default s = some ((), t)) :
    ∃ w, Prims J {} s w t ∧ w.owed = [] ∧ w.due = [] ∧ w.mode = .sealed ∧ Frame s t := by
  simp only [brTableTargets, labelAt_bind_eq_some, read_bind, jitPop_bind_eq_some] at h
  obtain ⟨defaultLabel, hdefault, idx, l, ls, rest, hl, hv, h⟩ := h
  have pop := (Prim.pop (J := J) (w := {}) rfl hl hv).prims
  have htop : s.operand 1 = (s.withLabels ({ l with stack := rest } :: ls)).operand 0 := by simp [EmitState.operand, hl, hv]
  have frame : Frame s (s.withLabels ({ l with stack := rest } :: ls)) := ⟨withStack_targets hl rest, rfl, rfl⟩
  have htype : branchOperandType s.func defaultLabel default = s.targetType default := by
    simp [EmitState.targetType, hdefault]
  rw [htype] at h
  obtain ⟨v, u₁, hp, h⟩ := (bind_eq_some _ _ _ _).mp h
  obtain ⟨Γ, hsub, popIf, hnone, hsome, frame₁⟩ := popIf_prims (J := J) (w := { hand := insert ⟨idx, .i32⟩ ∅ }) rfl hp
  replace frame₁ := frame.trans frame₁
  have hidx : ⟨idx, .i32⟩ ∈ Γ := hsub (Set.mem_insert _ _)
  have uniform : J.uniform → Instr.Uniform s (.brTable table default) := fun hu => by rwa [hJ] at hu
  have strict : J.strict → Instr.Strict s (.brTable table default) := fun hs => by rwa [hJ] at hs
  -- what was popped for the default target suits every other one
  have carries : ∀ {u : EmitState}, Frame s u → ∀ i ∈ default :: table, ¬isFuncbodyLabel u.func i → Carries J Γ v (u.targetType i) := by
    intro u hu i hi _ hne
    rw [targetType_congr hu.targets] at hne ⊢
    have hop : s.targetType default ≠ .none → v = J.operand := by
      intro hd
      simp [hJ, Instr.branching, Instr.operand, htop, (hsome hd).2]
    rcases List.mem_cons.mp hi with rfl | hi
    · exact ⟨fun _ => ⟨hop hne, _, (hsome hne).1⟩, fun _ => (hsome hne).1⟩
    · refine ⟨fun hu => ?_, fun hs => ?_⟩
      · have hd : s.targetType default ≠ .none := fun hd => hne ((uniform hu i hi).mpr hd)
        exact ⟨hop hd, _, (hsome hd).1⟩
      · rcases strict hs i hi with he | ⟨he, -⟩
        · exact he ▸ (hsome (he ▸ hne)).1
        · exact absurd he hne
  obtain ⟨_, u₂, hu₂, h⟩ := (bind_eq_some _ _ _ _).mp h
  obtain ⟨due, hdue, prepares, frame₂⟩ := prepareTargets_prims (J := J) (w := { hand := Γ }) hu₂ rfl
    (frame₁.locals.trans (by rw [hJ]; rfl)) fun i hi => carries frame₁ i (by simp [hi])
  replace frame₂ := frame₁.trans frame₂
  obtain ⟨_, u₃, hu₃, h⟩ := (bind_eq_some _ _ _ _).mp h
  obtain ⟨prepare, frame₃⟩ := prepareTarget_prims (J := J) (w := { hand := Γ, due }) hu₃ rfl
    (frame₂.locals.trans (by rw [hJ]; rfl)) (carries frame₂ default (by simp))
  replace frame₃ := frame₂.trans frame₃
  simp only [createBlock_bind, build_bind] at h
  obtain ⟨⟨target, rb⟩, u₄, hu₄, h⟩ := (bind_eq_some _ _ _ _).mp h
  obtain ⟨w₀, compare, hm₀, hΓ₀, hc₀, ho₀, hd₀⟩ : ∃ w₀, Prims J {} s w₀ _ ∧ w₀.mode = .live ∧ Γ ⊆ w₀.hand ∧
      ⟨some (u₃.builder.nextValue + 1), .i32⟩ ∈ w₀.hand ∧ w₀.owed = [(u₃.builder.nextBlock, Γ)] ∧
      w₀.due = u₂.targetBlock default ++ due :=
    ⟨_, (((((pop.trans popIf).trans prepares).trans prepare).step (.block (Γ := Γ) subset_rfl)).step
      (.node rfl (.iconst .i32 (.inl isInt_i32) (BitVec.ofNat 64 table.length)) rfl)).step
      (.node rfl (.icmp (k := .ult) (t := .i32) (u := .i32) (a := idx) (b := some u₃.builder.nextValue) isInt_i32 isInt_i32
        (by simp [hidx]) (Set.mem_insert _ _)) rfl), rfl,
      (Set.subset_insert _ _).trans (Set.subset_insert _ _), Set.mem_insert _ _, rfl, rfl⟩
  obtain ⟨owed, howed, resolves, frame₄, settles, hret⟩ := resolveTarget_prims (J := J) (w := w₀) (Γ := Γ)
    [(u₃.builder.nextBlock, Γ)] hu₄ hΓ₀ (by simp [ho₀, owedReturn])
  replace frame₄ : Frame s u₄ := frame₃.trans ((Frame.builder u₃ _).trans frame₄)
  obtain ⟨due', hdue', hsettle⟩ := @settles w₀.due due (by
    rw [hd₀, targetBlock_congr frame₂.targets]
    exact (congrFun (targetBlock_congr frame₃.targets) default).symm ▸ .refl _)
  have first : (u₃.builder.nextBlock, Γ) ∈ owed := howed.mem_iff.mpr (by simp)
  simp only [terminate_bind] at h
  obtain ⟨w₁, branch, hm₁, ho₁, hd₁⟩ : ∃ w₁, Prims J {} s w₁ _ ∧ w₁.mode = .sealed ∧ w₁.owed = owed ∧ w₁.due = due' :=
    ⟨_, (compare.trans resolves).step (.term (t := .brcond (some (u₃.builder.nextValue + 1))
      u₃.builder.nextBlock target) hm₀ (fun _ => .brcond hc₀) (.fresh first hsettle)), rfl, rfl, rfl⟩
  obtain ⟨rb', u₅, hu₅, h⟩ := (bind_eq_some _ _ _ _).mp h
  -- the return block is wanted only when some target is the function body
  have returns : ∀ {i}, i ∈ default :: table → isFuncbodyLabel s.func i → J.strict →
      (Term.ret v).WellTyped (fun v ty => ⟨v, ty⟩ ∈ Γ) s.func.retType := by
    intro i hi hf hs
    have hi' : s.targetType i = s.targetType default := by
      rcases List.mem_cons.mp hi with rfl | hi
      · rfl
      · exact (strict hs i hi).resolve_right fun h => h.2 hf
    have hlt : i < s.func.labels.length := by unfold isFuncbodyLabel at hf; omega
    have hret' : s.targetType i = s.func.retType := by
      simp [EmitState.targetType, branchOperandType, hf, List.getElem?_eq_getElem hlt]
    rw [← hret', hi']
    exact ret_wellTyped hnone fun hne => (hsome hne).1
  have isFuncbody : rb ≠ none → isFuncbodyLabel s.func default := fun hne =>
    (isFuncbodyLabel_congr frame₃.targets _).mp ((hret hne).resolve_left (by simp))
  obtain ⟨w₂, chain, hm₂, ho₂, hd₂, frame₅, hret₂⟩ : ∃ w₂, Prims J w₁ _ w₂ u₅ ∧ w₂.mode = .sealed ∧
      w₂.owed.Perm (owedReturn Γ rb') ∧ w₂.due = [] ∧ Frame s u₅ ∧ (rb' ≠ none → ∃ i ∈ default :: table, isFuncbodyLabel s.func i) := by
    by_cases htable : table = []
    · subst htable
      obtain ⟨rfl, rfl⟩ := Prod.mk.inj ((pure_eq_some _ _ _).mp hu₅)
      have orphan : w₁.owed.Perm ((u₃.builder.nextBlock, Γ) :: owedReturn Γ rb') := ho₁ ▸ howed.trans List.perm_append_comm
      refine ⟨_, (Prim.abandon (hJ ▸ ⟨default, rfl⟩) orphan).prims, hm₁, .refl _, ?_, frame₄.trans (.builder _ _),
        fun hne => ⟨default, by simp, isFuncbody hne⟩⟩
      exact List.Perm.eq_nil ((hd₁ ▸ hdue').trans hdue)
    · obtain ⟨w₂, chain, hm₂, ho₂, hd₂, frame₅, hret₂⟩ := emitCases_prims (J := J) (w := w₁) hidx hu₅ htable hm₁
        (ho₁ ▸ howed.trans List.perm_append_comm) (by
          change w₁.due.Perm (table.flatMap u₄.targetBlock)
          rw [hd₁, targetBlock_congr frame₄.targets]
          exact hdue'.trans (by simpa [targetBlock_congr frame₁.targets] using hdue))
      refine ⟨w₂, chain, hm₂, ho₂, hd₂, (frame₄.trans (.builder _ _)).trans frame₅, fun hne => ?_⟩
      rcases hret₂ hne with hne | ⟨i, hi, hf⟩
      · exact ⟨default, by simp, isFuncbody hne⟩
      · exact ⟨i, by simp [hi], (isFuncbodyLabel_congr (frame₄.trans (.builder _ _)).targets _).mp hf⟩
  obtain ⟨w₃, returns', ho₃, hd₃, hm₃, frame₆⟩ := emitReturnBlock_prims (J := J) (w := w₂) h hm₂ ho₂ hd₂ fun hne hs => by
    obtain ⟨i, hi, hf⟩ := hret₂ hne
    exact (Prod.mk.inj frame₅.targets).2 ▸ returns hi hf hs
  exact ⟨w₃, (branch.trans chain).trans returns', ho₃, hd₃, hm₃, frame₅.trans frame₆⟩

theorem emitBrTable_settled {table : List ℕ} {default : ℕ} (hs : s.live = true) (h : emitBrTable table default s = some ((), t)) :
    t.ctx = s.ctx ∧ Settled ((Instr.brTable table default).branching s) s t := by
  obtain ⟨l, ls, hl, -⟩ := live_labels hs
  obtain ⟨_, u, hb, h⟩ := (bind_eq_some _ _ _ _).mp h
  obtain ⟨w, steps, ho, hd, hm, frame⟩ := brTableTargets_prims rfl hb
  have settled := Settled.mark hs steps hm ho hd (labels_ne_nil frame.targets (by simp [hl])) h
  obtain ⟨-, rfl⟩ := Prod.mk.inj ((setTerminated_eq_some _ _).mp h)
  exact ⟨frame.ctx, settled⟩

/-! ### End -/

/-- The enclosing label gets the result, if there is one. -/
theorem closeLabel_result {l p : JitLabel} {ls : List JitLabel} {type : ValueType}
    (h : closeLabel (closingResult type v) s = some ((), t)) (hl : s.func.labels = l :: p :: ls) :
    t = s.withLabels ((if type = .none then p else { p with stack := ⟨v, type⟩ :: p.stack }) :: ls) := by
  by_cases ht : type = .none
  · simpa [closeLabel, closingResult, handResult, ht, hl] using h
  · simpa [closeLabel, closingResult, handResult, ht, hl, jitPush] using h

/-- Or it is terminated as well. -/
theorem closeLabel_terminated {l p : JitLabel} {ls : List JitLabel} (h : closeLabel { terminated := true } s = some ((), t))
    (hl : s.func.labels = l :: p :: ls) :
    t = s.withLabels ({ p with terminated := true } :: ls) := by
  simpa [closeLabel, handResult, hl, setTerminated_eq_some] using h

/-- The end of a loop, whose operand stack has to be empty unless it was terminated. -/
theorem endLoop_settled {l p : JitLabel} {ls : List JitLabel} {u : EmitState} {c : Closing} (hmode : l.terminated = !s.live)
    (hl : s.func.labels = l :: p :: ls) (hloop : l.loop = true) (hu : endLoop l s = some (c, u)) (h : closeLabel c u = some ((), t)) :
    t.ctx = s.ctx ∧ Settled J s t := by
  by_cases hs : s.live = true
  · simp only [endLoop, createBlock_bind, hmode, hs, Bool.not_true, Bool.false_eq_true, if_false] at hu
    obtain ⟨v, r, hr, hu⟩ := (bind_eq_some _ _ _ _).mp hu
    simp only [terminate_bind, setBlock_bind, pure_eq_some, Prod.mk.injEq] at hu
    obtain ⟨rfl, rfl⟩ := hu
    -- the result is popped before its block is created
    obtain ⟨Γ, l', hΓ, hlabels, hloop', steps, hctx⟩ : ∃ Γ l', (l.resultType ≠ .none → ⟨v, l.resultType⟩ ∈ Γ) ∧
        r.func.labels = l' :: p :: ls ∧ l'.loop = true ∧
        Prims J {} s { hand := Γ, owed := [(s.builder.nextBlock, Γ)] } r ∧ r.ctx = s.ctx := by
      rcases (jitPopIf_eq_some _ _ _).mp hr with ⟨hnone, he⟩ | ⟨hne, a, as, rest, ha, hv, he⟩
      · obtain ⟨rfl, rfl⟩ := Prod.mk.inj he
        exact ⟨∅, l, fun hne => absurd hnone hne, hl, hloop, (Prim.block (Set.empty_subset _)).prims, rfl⟩
      · obtain ⟨rfl, rfl⟩ := List.cons.inj (hl.symm.trans ha)
        simp only at he
        subst he
        exact ⟨_, _, fun _ => Set.mem_insert _ _, rfl, hloop, (Prim.pop rfl hl hv).prims.step (.block subset_rfl), rfl⟩
    have closed := ((steps.step (.term (t := .branch s.builder.nextBlock) rfl (fun _ => .branch _) (.fresh (.head _) (.nil _)))).step
      (.enter rfl (.refl _) (by simp))).step (.endLoop (by simp) rfl rfl hlabels hloop')
    obtain rfl := closeLabel_result h hlabels
    refine ⟨hctx, ?_⟩
    by_cases hnone : l.resultType = .none
    · rw [if_pos hnone]
      exact .of_live hs closed rfl rfl (by simp)
    · rw [if_neg hnone]
      exact .of_live hs (closed.step (.push rfl rfl rfl (hΓ hnone))) rfl rfl (by simp)
  · have hs : s.live = false := by simpa using hs
    simp only [endLoop, createBlock_bind, hmode, hs, Bool.not_false, if_true, setBlock_bind, terminate_bind, pure_eq_some,
      Prod.mk.injEq] at hu
    obtain ⟨rfl, rfl⟩ := hu
    obtain rfl := closeLabel_terminated h hl
    have dead : s.idle = { mode := .dead } := by simp [EmitState.idle, hs]
    have steps := ((((Prim.endLoop (J := J) (w := { mode := .dead }) (by simp) rfl rfl hl hloop).prims.step
      (.block (Γ := ∅) (by simp))).step (.enter (k := s.builder.nextBlock) (by simp) (.refl _) (by simp))).step
      (.term (t := .unreachable) rfl (fun _ => .unreachable) (.nil _))).step (.mark rfl rfl)
    exact ⟨rfl, _, dead ▸ steps, rfl, rfl, by simp [dead]⟩

/-- What is built at the end of a block that is still live. -/
theorem blockFallthrough_prims {l p : JitLabel} {ls : List JitLabel} {u : EmitState} (hmode : l.terminated = !s.live)
    (hJ : J = Instr.fin.branching s) (hl : s.func.labels = l :: p :: ls) (hloop : l.loop = false)
    (h : unlessTerminated l (do
      let result ← jitPopIf l.resultType
      jitWasmPrepareBranch 0 result
      terminate (.branch l.block)) s = some ((), u)) :
    ∃ w, Prims J s.idle s w u ∧ w.owed = [] ∧ w.due = [] ∧ w.mode ≠ .live ∧ Frame s u := by
  by_cases hs : s.live = true
  · simp only [unlessTerminated, hmode, hs, Bool.not_true, Bool.false_eq_true, if_false] at h
    have htarget : s.func.labels[0]? = some l := by simp [hl]
    have hf : ¬isFuncbodyLabel s.func 0 := by simp [isFuncbodyLabel, hl]
    have htype : s.targetType 0 = l.resultType := by
      rw [targetType_of_label htarget hf]; simp [JitLabel.branchType, hloop]
    obtain ⟨v, r, hr, h⟩ := (bind_eq_some _ _ _ _).mp h
    obtain ⟨Γ, -, pops, -, hsome, frame⟩ := popIf_prims (J := J) (w := {}) rfl hr
    obtain ⟨_, r', hr', h⟩ := (bind_eq_some _ _ _ _).mp h
    obtain ⟨-, rfl⟩ := Prod.mk.inj ((terminate_eq_some _ _ _).mp h)
    obtain ⟨arrives, frame'⟩ := arrive_prims (J := J) (w := { hand := Γ }) hr' rfl
      (fun hf' => hf ((isFuncbodyLabel_congr frame.targets _).mp hf')) (frame.locals.trans (by rw [hJ]; rfl)) (by
        rw [targetType_congr frame.targets, htype]
        intro hne
        exact ⟨fun _ => ⟨by simp [hJ, Instr.branching, Instr.operand, (hsome hne).2], _, (hsome hne).1⟩, fun _ => (hsome hne).1⟩)
    rw [targetBlock_congr frame.targets, targetBlock_of_label htarget hf] at arrives
    exact ⟨_, idle_of_live hs ▸ (pops.trans arrives).step (.term (t := .branch l.block) rfl (fun _ => .branch _)
      (.label (.refl _) (.nil _))), rfl, rfl, by simp, (frame.trans frame').trans (.builder _ _)⟩
  · have hs : s.live = false := by simpa using hs
    simp only [unlessTerminated, hmode, hs, Bool.not_false, if_true, pure_eq_some, Prod.mk.injEq, true_and] at h
    subst h
    exact ⟨_, .refl, rfl, rfl, by simp [EmitState.idle, hs], .refl _⟩

theorem endBlock_settled {l p : JitLabel} {ls : List JitLabel} {u : EmitState} {c : Closing} (hmode : l.terminated = !s.live)
    (hJ : J = Instr.fin.branching s) (hl : s.func.labels = l :: p :: ls) (hloop : l.loop = false)
    (hu : endBlock l s = some (c, u)) (h : closeLabel c u = some ((), t)) : t.ctx = s.ctx ∧ Settled J s t := by
  simp only [endBlock] at hu
  obtain ⟨_, r, hr, hu⟩ := (bind_eq_some _ _ _ _).mp hu
  obtain ⟨w, steps, ho, hd, hm, frame⟩ := blockFallthrough_prims hmode hJ hl hloop hr
  obtain ⟨merged, hmerged, hu⟩ := (labelAt_bind_eq_some _ _ _ _).mp hu
  obtain ⟨p', ls', hlabels⟩ : ∃ p' ls', r.func.labels = merged :: p' :: ls' := by
    have hlen := targets_length frame.targets
    rcases hr' : r.func.labels with _ | ⟨m, _ | ⟨p', ls'⟩⟩ <;> simp [hr', hl] at hlen hmerged
    exact ⟨p', ls', by rw [hmerged]⟩
  have hkind : merged.kind = l.kind := by simpa [hmerged, hl] using targets_getElem? frame.targets 0
  simp only [JitLabel.kind, Prod.mk.injEq] at hkind
  obtain ⟨hblock, hloop', -⟩ := hkind
  rcases hm' : merged.locals with _ | merges
  · simp only [hm', setBlock_bind, terminate_bind, pure_eq_some, Prod.mk.injEq] at hu
    obtain ⟨rfl, rfl⟩ := hu
    obtain rfl := closeLabel_terminated h hlabels
    have joins := ((steps.step (.deadJoin hm ho hd hlabels (hloop'.trans hloop) hm')).step
      (.term (t := .unreachable) rfl (fun _ => .unreachable) (.nil _))).step (.mark rfl rfl)
    rw [hblock] at joins
    exact ⟨frame.ctx, _, joins, ho, hd, by simp⟩
  · simp only [hm', update_bind, setBlock_bind, pure_eq_some, Prod.mk.injEq] at hu
    obtain ⟨rfl, rfl⟩ := hu
    obtain rfl := closeLabel_result h hlabels
    have joins := steps.step (.join hm ho hd hlabels (hloop'.trans hloop) hm')
    rw [hblock] at joins
    refine ⟨frame.ctx, ?_⟩
    by_cases hnone : merged.resultType = .none
    · rw [if_pos hnone]
      exact ⟨_, joins, ho, hd, by simp⟩
    · rw [if_neg hnone]
      exact ⟨_, joins.step (.push rfl ho rfl ⟨hnone, rfl⟩), ho, hd, by simp⟩

theorem endFuncbody_settled {l : JitLabel} {u : EmitState} {c : Closing} (hmode : l.terminated = !s.live)
    (hl : s.func.labels = [l]) (hu : endFuncbody l s = some (c, u)) (h : closeLabel c u = some ((), t)) :
    t.ctx = s.ctx ∧ Settled J s t := by
  simp only [endFuncbody, check_bind_eq_some] at hu
  obtain ⟨-, hu⟩ := hu
  obtain ⟨_, r, hr, hu⟩ := (bind_eq_some _ _ _ _).mp hu
  obtain ⟨rfl, rfl⟩ := Prod.mk.inj ((pure_eq_some _ _ _).mp hu)
  have close : ∀ {l' : JitLabel}, u.func.labels = [l'] → t = u.withLabels [] := by
    intro l' hl'
    simpa [closeLabel, handResult, hl'] using h
  by_cases hs : s.live = true
  · simp only [unlessTerminated, hmode, hs, Bool.not_true, Bool.false_eq_true, if_false, read_bind] at hr
    obtain ⟨v, r, hp, hr⟩ := (bind_eq_some _ _ _ _).mp hr
    obtain ⟨-, rfl⟩ := Prod.mk.inj ((terminate_eq_some _ _ _).mp hr)
    obtain ⟨Γ, -, pops, hnone, hsome, frame⟩ := popIf_prims (J := J) (w := {}) rfl hp
    obtain ⟨l', hl'⟩ : ∃ l', r.func.labels = [l'] := List.length_eq_one_iff.mp (by simp [targets_length frame.targets, hl])
    have hret : r.func.retType = s.func.retType := (Prod.mk.inj frame.targets).2
    obtain rfl := close hl'
    exact ⟨frame.ctx, .of_live hs ((pops.step (.term (t := .ret v) rfl
      (fun _ => ret_wellTyped (hret ▸ hnone) (hret ▸ fun hne => (hsome hne).1)) (.nil _))).step
      (.leave (by simp) rfl rfl hl')) rfl rfl (by simp)⟩
  · have hs : s.live = false := by simpa using hs
    simp only [unlessTerminated, hmode, hs, Bool.not_false, if_true, pure_eq_some, Prod.mk.injEq, true_and] at hr
    subst hr
    obtain rfl := close hl
    exact ⟨rfl, _, (Prim.leave (by simp [EmitState.idle, hs]) rfl rfl hl).prims, rfl, rfl, by simp⟩

theorem jitWasmEnd_settled (h : jitWasmEnd s = some ((), t)) : t.ctx = s.ctx ∧ Settled (Instr.fin.branching s) s t := by
  simp only [jitWasmEnd, labelAt_bind_eq_some, read_bind] at h
  obtain ⟨l, hl, h⟩ := h
  obtain ⟨c, u, hu, hc⟩ := (bind_eq_some _ _ _ _).mp h
  simp only [labelAt_bind_eq_some, check_bind_eq_some] at hc
  obtain ⟨_, -, -, hc⟩ := hc
  have hmode : l.terminated = !s.live := by
    rcases hls : s.func.labels with _ | ⟨a, ls⟩ <;> simp [hls] at hl
    simp [EmitState.live, hls, hl]
  rcases hls : s.func.labels with _ | ⟨a, _ | ⟨p, ls⟩⟩ <;> simp [hls] at hl <;> subst hl
  · exact endFuncbody_settled hmode hls (by simpa [endLabel, hls] using hu) hc
  · by_cases hloop : a.loop = true
    · exact endLoop_settled hmode hls hloop (by simpa [endLabel, hls, hloop] using hu) hc
    · exact endBlock_settled hmode rfl hls (by simpa using hloop) (by simpa [endLabel, hls, hloop] using hu) hc

end SpidirWasm.Jit
