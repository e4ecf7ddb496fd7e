import SpidirWasm.Jit.ControlSteps
import SpidirWasm.Jit.Entry

/-! One opcode is one instruction, and an instruction is a chain of primitive steps; a
function's translation is a run of them. A property of the state that every primitive
step keeps holds between any two instructions of any function. -/

namespace SpidirWasm.Jit

open Checked
open Spidir (Builder Inst Value ValueType)
open Wasm (FuncType)

/-! ### Instructions -/

/-- `n` label indices in a row. -/
def fetchTargets : ℕ → Pull (List ℕ)
  | 0 => return []
  | n + 1 => do
    let index ← bufferPullU32
    let rest ← fetchTargets n
    return index :: rest

/-- The immediates behind a control opcode. -/
def fetchImmediates (opcode : ℕ) : Pull Instr :=
  match opcode with
  | 0x0B => return .fin
  | 0x00 => return .unreachable
  | 0x02 => return .block (← jitWasmPullBlockType)
  | 0x03 => return .loop (← jitWasmPullBlockType)
  | 0x0C => return .br (← bufferPullU32)
  | 0x0D => return .brIf (← bufferPullU32)
  | 0x0E => do
    let tableSize ← bufferPullU32
    let table ← fetchTargets tableSize
    return .brTable table (← bufferPullU32)
  | 0x0F => return .ret
  | _ => return .data

/-- The instruction at the cursor, as far as the control flow goes. -/
def fetch : Pull Instr := do
  let opcode ← bufferPullU8
  fetchImmediates opcode.toNat

/-- What an instruction does to the emission state. Dead code only counts the blocks it
opens and closes, up to the `end` of the terminated label itself. -/
inductive Act : Instr → EmitState → EmitState → Prop
  | data {s t : EmitState} (hs : s.live = true) (hc : t.ctx.Ok) (h : ∀ J, ∃ Γ, Prims J {} s { hand := Γ } t) : Act .data s t
  | unreachable {s t : EmitState} (hs : s.live = true) (h : emitUnreachable s = some ((), t)) : Act .unreachable s t
  | block {s t : EmitState} {type : ValueType} (hs : s.live = true) (h : openBlock type s = some ((), t)) : Act (.block type) s t
  | loop {s t : EmitState} {type : ValueType} (hs : s.live = true) (h : openLoop type s = some ((), t)) : Act (.loop type) s t
  | br {s t : EmitState} {index : ℕ} (hs : s.live = true) (h : emitBr index s = some ((), t)) : Act (.br index) s t
  | brIf {s t : EmitState} {index : ℕ} (hs : s.live = true) (h : emitBrIf index s = some ((), t)) : Act (.brIf index) s t
  | brTable {s t : EmitState} {table : List ℕ} {default : ℕ} (hs : s.live = true)
      (h : emitBrTable table default s = some ((), t)) : Act (.brTable table default) s t
  | ret {s t : EmitState} (hs : s.live = true) (h : emitReturn s = some ((), t)) : Act .ret s t
  | fin {s t : EmitState} (h : jitWasmEnd s = some ((), t)) : Act .fin s t
  | skip {s : EmitState} {l : JitLabel} {ls : List JitLabel} (i : Instr) (hl : s.func.labels = l :: ls)
      (hd : l.terminated = true) (depth : ℕ) : Act i s (s.withLabels ({ l with unreachableDepth := depth } :: ls))

/-- An instruction is a chain of primitive steps and keeps the context right. -/
theorem Act.prims {i : Instr} {s t : EmitState} (h : Act i s t) (hs : Tidy s.idle s) (hc : s.ctx.Ok) :
    t.ctx.Ok ∧ Prims (i.branching s) s.idle s t.idle t := by
  have settle : t.ctx = s.ctx ∧ Settled (i.branching s) s t → t.ctx.Ok ∧ Prims (i.branching s) s.idle s t.idle t := by
    rintro ⟨hctx, w, steps, ho, hd, hm⟩
    exact ⟨hctx ▸ hc, steps.idle hs ho hd hm⟩
  cases h with
  | data hl hc' h =>
    obtain ⟨Γ, steps⟩ := h (Instr.data.branching s)
    exact ⟨hc', (idle_of_live hl ▸ steps).idle hs rfl rfl (by simp)⟩
  | unreachable hl h =>
    obtain ⟨hc', w, steps, ho, hd, hm⟩ := emitUnreachable_settled (J := Instr.unreachable.branching s) hl hc h
    exact ⟨hc', steps.idle hs ho hd hm⟩
  | block hl h => exact settle (openBlock_settled hl h)
  | loop hl h => exact settle (openLoop_settled hl rfl h)
  | br hl h => exact settle (emitBr_settled hl h)
  | brIf hl h => exact settle (emitBrIf_settled hl h)
  | brTable hl h => exact settle (emitBrTable_settled hl h)
  | ret hl h => exact settle (emitReturn_settled hl h)
  | fin h => exact settle (jitWasmEnd_settled h)
  | skip i hl hd depth =>
    have dead : s.idle.mode = .dead := by simp [EmitState.idle, EmitState.live, hl, hd]
    exact ⟨hc, (Prim.skip dead hl depth).prims.idle hs rfl rfl (by simp [dead])⟩

/-! ### Opcodes -/

theorem pullTargets_fetch {n : ℕ} {s t : JitState} {table : List ℕ} (h : pullTargets n s = some (table, t)) :
    fetchTargets n s.code = some (table, t.code) ∧ t.toEmitState = s.toEmitState := by
  induction n generalizing s table with
  | zero =>
    obtain ⟨rfl, rfl⟩ := Prod.mk.inj ((pure_eq_some _ _ _).mp h)
    exact ⟨rfl, rfl⟩
  | succ n ih =>
    simp only [pullTargets, pull_bind_eq_some, emit_bind_eq_some, labelAt_eq_some] at h
    obtain ⟨index, code, hindex, l, e, ⟨l', -, he⟩, h⟩ := h
    obtain ⟨rfl, rfl⟩ := Prod.mk.inj he
    obtain ⟨rest, u, hr, h⟩ := (bind_eq_some _ _ _ _).mp h
    obtain ⟨rfl, rfl⟩ := Prod.mk.inj ((pure_eq_some _ _ _).mp h)
    obtain ⟨hf, hu⟩ := ih hr
    exact ⟨(bind_eq_some _ _ _ _).mpr ⟨_, _, hindex, (bind_eq_some _ _ _ _).mpr ⟨_, _, hf, rfl⟩⟩, hu⟩

/-- An emission behind one immediate. -/
theorem pull_emit_eq_some {α : Type} {m : Pull α} {f : α → Emit Unit} {s t : JitState}
    (h : (do let a ← pull m; emit (f a)) s = some ((), t)) :
    ∃ a, m s.code = some (a, t.code) ∧ f a s.toEmitState = some ((), t.toEmitState) := by
  simp only [pull_bind_eq_some, emit_eq_some, Prod.mk.injEq] at h
  obtain ⟨a, code, ha, _, e, he, -, rfl⟩ := h
  exact ⟨a, ha, he⟩

theorem emit_unit_eq_some {m : Emit Unit} {s t : JitState} (h : emit m s = some ((), t)) :
    m s.toEmitState = some ((), t.toEmitState) ∧ t.code = s.code := by
  obtain ⟨_, e, he, ht⟩ := (emit_eq_some _ _ _).mp h
  obtain ⟨-, rfl⟩ := Prod.mk.inj ht
  exact ⟨he, rfl⟩

/-- An opcode of the data instructions has no immediates of the control flow. -/
theorem fetchImmediates_of_data {op : ℕ} {m : Handler Unit} (h : dataHandler op = some m) (b : Buffer) :
    fetchImmediates op b = some (.data, b) := by
  have control : op ∉ [0x0B, 0x00, 0x02, 0x03, 0x0C, 0x0D, 0x0E, 0x0F] := by
    intro hop
    have none : ∀ op ∈ [0x0B, 0x00, 0x02, 0x03, 0x0C, 0x0D, 0x0E, 0x0F], dataHandler op = none := by decide
    rw [none op hop] at h
    cases h
  simp only [List.mem_cons, List.not_mem_nil, not_or] at control
  obtain ⟨h₁, h₂, h₃, h₄, h₅, h₆, h₇, h₈, -⟩ := control
  simp only [fetchImmediates]
  rfl

/-- The switch of a live label runs the instruction at the cursor. -/
theorem jitLiveOpcode_act {op : ℕ} {s t : JitState} (hs : s.live = true) (hc : s.ctx.Ok) (h : jitLiveOpcode op s = some ((), t)) :
    ∃ i code, fetchImmediates op s.code = some (i, code) ∧ Act i s.toEmitState t.toEmitState := by
  have one : ∀ {α : Type} {m : Pull α} {f : α → Emit Unit} {g : α → Instr}, (do let a ← pull m; emit (f a)) s = some ((), t) →
      (∀ a, f a s.toEmitState = some ((), t.toEmitState) → Act (g a) s.toEmitState t.toEmitState) →
      ∃ i code, (m >>= fun a => pure (g a) : Pull Instr) s.code = some (i, code) ∧ Act i s.toEmitState t.toEmitState := by
    intro α m f g h act
    obtain ⟨a, ha, he⟩ := pull_emit_eq_some h
    exact ⟨g a, t.code, (bind_eq_some _ _ _ _).mpr ⟨a, t.code, ha, rfl⟩, act a he⟩
  unfold jitLiveOpcode at h
  split at h
  · exact ⟨_, _, rfl, .fin (emit_unit_eq_some h).1⟩
  · exact ⟨_, _, rfl, .unreachable hs (emit_unit_eq_some h).1⟩
  · exact one h fun _ he => .block hs he
  · exact one h fun _ he => .loop hs he
  · exact one h fun _ he => .br hs he
  · exact one h fun _ he => .brIf hs he
  · obtain ⟨n, code, hn, h⟩ := (pull_bind_eq_some _ _ _ _).mp h
    obtain ⟨table, u, hu, h⟩ := (bind_eq_some _ _ _ _).mp h
    obtain ⟨hf, hu⟩ := pullTargets_fetch hu
    obtain ⟨default, hd, he⟩ := pull_emit_eq_some h
    refine ⟨.brTable table default, t.code, ?_, .brTable hs (hu ▸ he)⟩
    exact (bind_eq_some _ _ _ _).mpr ⟨n, code, hn, (bind_eq_some _ _ _ _).mpr ⟨table, u.code, hf,
      (bind_eq_some _ _ _ _).mpr ⟨default, t.code, hd, rfl⟩⟩⟩
  · exact ⟨_, _, rfl, .ret hs (emit_unit_eq_some h).1⟩
  · rcases hm : dataHandler op with _ | m
    · simp [hm] at h
    · have step := dataHandler_step hm
      simp only [hm, Option.getD_some] at h
      exact ⟨.data, s.code, fetchImmediates_of_data hm s.code, .data hs (step {} s t hc h).1 fun J => (step J s t hc h).2⟩

/-- Dead code is skipped up to the `end` of the terminated label. -/
theorem jitSkipUnreachable_act {op : ℕ} {s t : JitState} {l : JitLabel} {ls : List JitLabel}
    (hl : s.func.labels = l :: ls) (hd : l.terminated = true) (h : jitSkipUnreachable op s = some ((), t)) :
    ∃ i, Act i s.toEmitState t.toEmitState ∧ (i = .data ∨ i = .fin) := by
  have depth : ∀ {f : JitLabel → ℕ} {u : JitState}, u.toEmitState = s.toEmitState →
      emit (modifyLabel 0 fun l => { l with unreachableDepth := f l }) u = some ((), t) →
      ∃ i, Act i s.toEmitState t.toEmitState ∧ (i = .data ∨ i = .fin) := by
    intro f u hu h
    obtain ⟨he, -⟩ := emit_unit_eq_some h
    rw [hu, modifyLabel_eq_some, hl] at he
    rw [(Prod.mk.inj he).2]
    exact ⟨.data, .skip _ hl hd (f l), .inl rfl⟩
  unfold jitSkipUnreachable at h
  split_ifs at h with h₁ h₂
  · obtain ⟨_, code, -, h⟩ := (pull_bind_eq_some _ _ _ _).mp h
    exact depth (u := { s with code }) (f := fun l => l.unreachableDepth + 1) rfl h
  · simp only [emit_bind_eq_some, labelAt_eq_some, Prod.mk.injEq] at h
    obtain ⟨_, _, ⟨_, -, -, rfl⟩, h⟩ := h
    split_ifs at h
    · exact ⟨.fin, .fin (emit_unit_eq_some h).1, .inr rfl⟩
    · exact depth (f := fun l => l.unreachableDepth - 1) rfl h
  · obtain ⟨_, code, -, ht⟩ := (pull_eq_some _ _ _).mp h
    obtain ⟨-, rfl⟩ := Prod.mk.inj ht
    refine ⟨.data, ?_, .inl rfl⟩
    have same : s.toEmitState.withLabels ({ l with unreachableDepth := l.unreachableDepth } :: ls) = s.toEmitState :=
      hl ▸ rfl
    exact same ▸ Act.skip .data hl hd l.unreachableDepth

/-- One opcode is one instruction; in a live label it is the one at the cursor, and dead code has no branches. -/
theorem jitWasmOpcode_act {s t : JitState} (hc : s.ctx.Ok) (h : jitWasmOpcode s = some ((), t)) :
    ∃ i, Act i s.toEmitState t.toEmitState ∧ (s.live = true → ∃ code, fetch s.code = some (i, code)) ∧
      (s.live = false → i = .data ∨ i = .fin) := by
  simp only [jitWasmOpcode, pull_bind_eq_some, emit_bind_eq_some, labelAt_eq_some, Prod.mk.injEq] at h
  obtain ⟨op, code, hop, l, _, ⟨_, hl, rfl, rfl⟩, h⟩ := h
  obtain ⟨ls, hls⟩ : ∃ ls, s.func.labels = l :: ls := by
    rcases hs : s.func.labels with _ | ⟨m, ls⟩ <;> simp [hs] at hl
    exact ⟨ls, by rw [hl]⟩
  split_ifs at h with hd
  · obtain ⟨i, act⟩ := jitSkipUnreachable_act (s := { s with code }) hls hd h
    exact ⟨i, act.1, fun hs => by simp [EmitState.live, hls, hd] at hs, fun _ => act.2⟩
  · obtain ⟨i, code', hi, act⟩ := jitLiveOpcode_act (s := { s with code }) (by simp [EmitState.live, hls, hd]) hc h
    exact ⟨i, act, fun _ => ⟨code', (bind_eq_some _ _ _ _).mpr ⟨op, code, hop, hi⟩⟩,
      fun hs => by simp [EmitState.live, hls, hd] at hs⟩

/-! ### Functions -/

/-- The states of a function's translation between two opcodes, if every live instruction
so far was one that `P` allows. -/
inductive Between (P : Instr → EmitState → Prop) (ctx : JitContext) (funcidx : ℕ) : JitState → Prop
  | enter {type : FuncType} {code : List UInt8} {params : List ValueType} {s : JitState}
      (hf : internalFunction ctx.module funcidx = some (type, code)) (hp : jitParams type = some params)
      (h : jitEnterFunction type (functionState ctx params code) = some ((), s)) : Between P ctx funcidx s
  | step {s t : JitState} (hs : Between P ctx funcidx s) (hcode : s.code.data ≠ []) (hlabels : s.func.labels ≠ [])
      (hP : ∀ i code, s.live = true → fetch s.code = some (i, code) → P i s.toEmitState)
      (h : jitWasmOpcode s = some ((), t)) : Between P ctx funcidx t

namespace Between

variable {P : Instr → EmitState → Prop} {ctx : JitContext} {funcidx : ℕ} {s t : JitState}

/-- One opcode is a chain of primitive steps. -/
theorem prims_of (hc : s.ctx.Ok) (hs : Tidy s.idle s.toEmitState)
    (hP : ∀ i code, s.live = true → fetch s.code = some (i, code) → P i s.toEmitState) (h : jitWasmOpcode s = some ((), t)) :
    t.ctx.Ok ∧ ∃ i, (s.live = true → P i s.toEmitState ∧ ∃ code, fetch s.code = some (i, code)) ∧
      Prims (i.branching s.toEmitState) s.idle s.toEmitState t.idle t.toEmitState := by
  obtain ⟨i, act, hi, -⟩ := jitWasmOpcode_act hc h
  obtain ⟨hc', steps⟩ := act.prims hs hc
  refine ⟨hc', i, fun hl => ?_, steps⟩
  obtain ⟨code, hcode⟩ := hi hl
  exact ⟨hP i code hl hcode, code, hcode⟩

/-- The context and the flags are in order between any two opcodes. -/
theorem ready (hctx : ctx.Ok) (h : Between P ctx funcidx s) : s.ctx.Ok ∧ Tidy s.idle s.toEmitState := by
  induction h with
  | enter hf hp h =>
    obtain ⟨ret, hr⟩ := jitEnterFunction_retType h
    have entered := jitEnterFunction_entered hp hr h
    exact ⟨entered.ctx ▸ hctx, by simp [entered.labels], by simp [entered.labels, EmitState.idle, EmitState.live], by simp [entered.labels]⟩
  | step hs hcode hlabels hP h ih =>
    obtain ⟨hc, i, -, steps⟩ := prims_of ih.1 ih.2 hP h
    exact ⟨hc, steps.tidy ih.2⟩

/-- A property that holds on entry and that every primitive step of an allowed
instruction keeps holds between any two opcodes. -/
theorem keeps {I : Work → EmitState → Prop} (hctx : ctx.Ok)
    (start : ∀ params ret s, Entered ctx params ret s → I {} s)
    (step : ∀ i s, (s.live = true → P i s) → ∀ {w u w' v}, Prim (i.branching s) w u w' v → I w u → I w' v)
    (h : Between P ctx funcidx s) : I s.idle s.toEmitState := by
  induction h with
  | @enter type code params s hf hp h =>
    obtain ⟨ret, hr⟩ := jitEnterFunction_retType h
    have entered := jitEnterFunction_entered hp hr h
    have live : s.live = true := by simp [EmitState.live, entered.labels]
    exact idle_of_live live ▸ start params ret _ entered
  | step hs hcode hlabels hP h ih =>
    obtain ⟨hc, htidy⟩ := hs.ready hctx
    obtain ⟨-, i, hi, steps⟩ := prims_of hc htidy hP h
    exact steps.keeps (step i _ fun hl => (hi hl).1) ih

end Between

/-- Every opcode of a finished function was read in a state between two others. -/
theorem jitOpcodes_between {ctx : JitContext} {funcidx fuel : ℕ} {s t : JitState} (hs : Between (fun _ _ => True) ctx funcidx s)
    (h : jitOpcodes fuel s = some ((), t)) : Between (fun _ _ => True) ctx funcidx t := by
  induction fuel generalizing s with
  | zero =>
    obtain ⟨-, rfl⟩ := Prod.mk.inj ((pure_eq_some _ _ _).mp h)
    exact hs
  | succ fuel ih =>
    simp only [jitOpcodes, read_bind] at h
    split_ifs at h with hcode
    · simp only [read_bind, check_bind_eq_some] at h
      obtain ⟨hlabels, h⟩ := h
      obtain ⟨_, u, hu, h⟩ := (bind_eq_some _ _ _ _).mp h
      exact ih (.step hs hcode hlabels (fun _ _ _ _ => trivial) hu) h
    · obtain ⟨-, rfl⟩ := Prod.mk.inj ((pure_eq_some _ _ _).mp h)
      exact hs

/-- The graph `jit_build_function` leaves is that of a last state, behind all the code. -/
theorem jitBuildFunction_between {ctx ctx' : JitContext} {params : List ValueType} {funcidx : ℕ} {b : Builder}
    (hp : ∀ type code, internalFunction ctx.module funcidx = some (type, code) → jitParams type = some params)
    (h : jitBuildFunction params funcidx ctx = some (b, ctx')) :
    ∃ s, Between (fun _ _ => True) ctx funcidx s ∧ s.func.labels = [] ∧ s.code.data = [] ∧ s.builder = b ∧ s.ctx = ctx' := by
  simp only [jitBuildFunction, Option.bind_eq_bind, Option.bind_eq_some_iff, Option.pure_def, Prod.exists] at h
  obtain ⟨type, code, hf, _, s, hs, _, t, ht, _, hg, he⟩ := h
  have done : t.code.data = [] ∧ t.func.labels = [] := by
    by_contra hne
    rw [guard, if_neg hne] at hg
    cases hg
  obtain ⟨rfl, rfl⟩ := Prod.mk.inj (Option.some.inj he)
  exact ⟨t, jitOpcodes_between (.enter hf (hp type code hf) hs) ht, done.2, done.1, rfl, rfl⟩

end SpidirWasm.Jit
