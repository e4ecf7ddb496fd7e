import Mathlib.Tactic.Simps.Basic
import SpidirWasm.Buffer
import SpidirWasm.Jit.Context

/-! The state of one function's translation, and the few operations every handler
is made of: pulling immediates, popping and pushing typed operands, and building
into the graph. Only the first of these touches the code. The stack of labels is listed innermost first and an operand stack
top first, so that the label an instruction runs in is the head. -/

namespace SpidirWasm.Jit

open Checked
open Spidir (Builder Inst Term Block Value ValueType)

/-- `jit_value_t`. -/
structure JitValue where
  value : Value := none
  type : ValueType := .none
  deriving DecidableEq, Repr, Inhabited

/-- One entry of `locals_values` and `locals_phis`; without a phi the id is `UINT32_MAX`. -/
structure Merge where
  value : Value := none
  phi : Option ℕ := none
  deriving DecidableEq, Repr, Inhabited

/-- `jit_label_t`; a new one is zeroed. The locals stay null until a first branch. -/
structure JitLabel where
  block : Block := 0
  stack : List JitValue := []
  locals : Option (List Merge) := none
  inputs : ℕ := 0
  loop : Bool := false
  terminated : Bool := false
  unreachableDepth : ℕ := 0
  resultType : ValueType := .none
  result : Merge := ⟨some 0, some 0⟩
  deriving DecidableEq, Repr, Inhabited

/-- `jit_function_ctx_t`. -/
structure FuncCtx where
  locals : List JitValue := []
  retType : ValueType := .none
  labels : List JitLabel := []
  deriving DecidableEq, Repr, Inhabited

/-- What a handler works on behind the immediates: the module's context, the function's
and the builder. -/
structure EmitState where
  ctx : JitContext := {}
  func : FuncCtx := {}
  builder : Builder := {}

structure JitState extends EmitState where
  code : Buffer := {}

/-- A step that emits and leaves the code alone. -/
abbrev Emit (α : Type) := Checked EmitState α

/-- `jit_instruction_t`: a step of the translation. -/
abbrev Handler (α : Type) := Checked JitState α

variable {α : Type}

namespace EmitState

@[simps]
def withLabels (s : EmitState) (labels : List JitLabel) : EmitState :=
  { s with func := { s.func with labels } }

@[simps]
def withLocals (s : EmitState) (locals : List JitValue) : EmitState :=
  { s with func := { s.func with locals } }

@[simps]
def withBuilder (s : EmitState) (builder : Builder) : EmitState := { s with builder }

@[simp] theorem withLabels_withLabels (s : EmitState) (ls ls' : List JitLabel) :
    (s.withLabels ls).withLabels ls' = s.withLabels ls' := rfl

end EmitState

/-- A reader on the function's code. -/
def pull (m : Pull α) : Handler α := zoom JitState.code (fun code s => { s with code }) m

/-- The part of a handler behind its immediates. -/
def emit (m : Emit α) : Handler α :=
  zoom JitState.toEmitState (fun e s => { s with toEmitState := e }) m

/-- A step of the module's context. -/
def context (m : Checked JitContext α) : Emit α := zoom EmitState.ctx (fun ctx s => { s with ctx }) m

/-- A `spidir_builder_build_*` call that is no terminator. -/
def build (i : Inst) : Emit Value := fun s =>
  some (s.builder.handle i, s.withBuilder (s.builder.build i))

def terminate (t : Term) : Emit Unit := update fun s => s.withBuilder (s.builder.terminate t)

def createBlock : Emit Block := fun s =>
  some (s.builder.nextBlock, s.withBuilder s.builder.createBlock)

def setBlock (k : Block) : Emit Unit := update fun s => s.withBuilder (s.builder.setBlock k)

/-- The label at an index counted from the innermost. -/
def labelAt (index : ℕ) : Emit JitLabel := do
  lift (← read (·.func.labels))[index]?

def modifyLabel (index : ℕ) (f : JitLabel → JitLabel) : Emit Unit :=
  update fun s => s.withLabels (s.func.labels.modify index f)

/-- `JIT_PUSH`. -/
def jitPush (type : ValueType) (value : Value) : Emit Unit :=
  modifyLabel 0 fun l => { l with stack := ⟨value, type⟩ :: l.stack }

/-- `vec_pop(&label->stack)`. -/
def jitPopAny : Emit JitValue := do
  let l ← labelAt 0
  match l.stack with
  | [] => fail
  | v :: rest => do
    modifyLabel 0 fun l => { l with stack := rest }
    return v

/-- `JIT_POP`. -/
def jitPop (type : ValueType) : Emit Value := do
  let v ← jitPopAny
  check (v.type = type)
  return v.value

/-- Pop an operand of `type`, or nothing when that is no type. -/
def jitPopIf (type : ValueType) : Emit Value :=
  if type = .none then return none else jitPop type

/-- The value on top when `type` is one, whatever its own type. -/
def jitPeekIf (type : ValueType) : Emit Value :=
  if type = .none then return none else do
    let l ← labelAt 0
    lift (l.stack.head?.map JitValue.value)

/-- `label->terminated = true`. -/
def setTerminated : Emit Unit := modifyLabel 0 fun l => { l with terminated := true }

/-- Pop the arguments of a call, the last one first. -/
def popArgs : List Wasm.ValueType → Emit (List Value)
  | [] => return []
  | type :: types => do
    let rest ← popArgs types
    let value ← jitPop (← lift (jitGetSpidirValueType type))
    return value :: rest

/-- `jit_emit_trap`. -/
def jitEmitTrap : Emit Unit := do
  let trap ← context (jitGetHelper .trap)
  let _ ← build (.call trap [])
  terminate .unreachable

/-- `jit_emit_zext64`. -/
def jitEmitZext64 (value : Value) : Emit Value := do
  let e ← build (.unop .iext value)
  let mask ← build (.iconst .i64 0xFFFFFFFF)
  build (.binop .and e mask)

/-- The target block of a branch, or the function body, whose label is the outermost. -/
def isFuncbodyLabel (func : FuncCtx) (index : ℕ) : Prop := index + 1 = func.labels.length

instance (func : FuncCtx) (index : ℕ) : Decidable (isFuncbodyLabel func index) :=
  inferInstanceAs (Decidable (_ = _))

/-! ### What the operations do in front of a program -/

variable {β : Type}

@[simp] theorem pull_bind_eq_some (m : Pull α) (f : α → Handler β) (s : JitState) (r : β × JitState) :
    (pull m >>= f) s = some r ↔ ∃ a code, m s.code = some (a, code) ∧ f a { s with code } = some r :=
  zoom_bind_eq_some _ _ m f s r

@[simp] theorem pull_eq_some (m : Pull α) (s : JitState) (r : α × JitState) :
    pull m s = some r ↔ ∃ a code, m s.code = some (a, code) ∧ r = (a, { s with code }) :=
  zoom_eq_some _ _ m s r

@[simp] theorem emit_bind_eq_some (m : Emit α) (f : α → Handler β) (s : JitState) (r : β × JitState) :
    (emit m >>= f) s = some r ↔ ∃ a e, m s.toEmitState = some (a, e) ∧ f a { s with toEmitState := e } = some r :=
  zoom_bind_eq_some _ _ m f s r

@[simp] theorem emit_eq_some (m : Emit α) (s : JitState) (r : α × JitState) :
    emit m s = some r ↔ ∃ a e, m s.toEmitState = some (a, e) ∧ r = (a, { s with toEmitState := e }) :=
  zoom_eq_some _ _ m s r

@[simp] theorem context_bind_eq_some (m : Checked JitContext α) (f : α → Emit β) (s : EmitState) (r : β × EmitState) :
    (context m >>= f) s = some r ↔ ∃ a ctx, m s.ctx = some (a, ctx) ∧ f a { s with ctx } = some r :=
  zoom_bind_eq_some _ _ m f s r

@[simp] theorem build_bind (i : Inst) (f : Value → Emit β) (s : EmitState) :
    (build i >>= f) s = f (s.builder.handle i) (s.withBuilder (s.builder.build i)) := rfl

@[simp] theorem terminate_bind (t : Term) (f : Unit → Emit β) (s : EmitState) :
    (terminate t >>= f) s = f () (s.withBuilder (s.builder.terminate t)) := rfl

@[simp] theorem terminate_eq_some (t : Term) (s : EmitState) (r : Unit × EmitState) :
    terminate t s = some r ↔ r = ((), s.withBuilder (s.builder.terminate t)) := update_eq_some _ s r

@[simp] theorem createBlock_bind (f : Block → Emit β) (s : EmitState) :
    (createBlock >>= f) s = f s.builder.nextBlock (s.withBuilder s.builder.createBlock) := rfl

@[simp] theorem setBlock_bind (k : Block) (f : Unit → Emit β) (s : EmitState) :
    (setBlock k >>= f) s = f () (s.withBuilder (s.builder.setBlock k)) := rfl

@[simp] theorem setBlock_eq_some (k : Block) (s : EmitState) (r : Unit × EmitState) :
    setBlock k s = some r ↔ r = ((), s.withBuilder (s.builder.setBlock k)) := update_eq_some _ s r

@[simp] theorem labelAt_bind_eq_some (index : ℕ) (f : JitLabel → Emit β) (s : EmitState) (r : β × EmitState) :
    (labelAt index >>= f) s = some r ↔ ∃ l, s.func.labels[index]? = some l ∧ f l s = some r :=
  lift_bind_eq_some _ f s r

@[simp] theorem labelAt_eq_some (index : ℕ) (s : EmitState) (r : JitLabel × EmitState) :
    labelAt index s = some r ↔ ∃ l, s.func.labels[index]? = some l ∧ r = (l, s) :=
  lift_eq_some _ s r

@[simp] theorem modifyLabel_bind (index : ℕ) (g : JitLabel → JitLabel) (f : Unit → Emit β) (s : EmitState) :
    (modifyLabel index g >>= f) s = f () (s.withLabels (s.func.labels.modify index g)) := rfl

@[simp] theorem modifyLabel_eq_some (index : ℕ) (g : JitLabel → JitLabel) (s : EmitState) (r : Unit × EmitState) :
    modifyLabel index g s = some r ↔ r = ((), s.withLabels (s.func.labels.modify index g)) := update_eq_some _ s r

/-- Popping takes the top of the innermost stack. -/
@[simp] theorem jitPopAny_eq_some (s : EmitState) (r : JitValue × EmitState) :
    jitPopAny s = some r ↔ ∃ l ls rest, s.func.labels = l :: ls ∧ l.stack = r.1 :: rest ∧
      r.2 = s.withLabels ({ l with stack := rest } :: ls) := by
  obtain ⟨v, t⟩ := r
  rw [jitPopAny, labelAt_bind_eq_some]
  constructor
  · rintro ⟨l, hl, h⟩
    rcases hs : s.func.labels with _ | ⟨l', ls⟩
    · simp [hs] at hl
    obtain rfl : l' = l := by simpa [hs] using hl
    rcases hv : l'.stack with _ | ⟨w, rest⟩
    · simp [hv] at h
    simp only [hv, modifyLabel_bind, hs, pure_eq_some, Prod.mk.injEq] at h
    obtain ⟨rfl, rfl⟩ := h
    exact ⟨l', ls, rest, rfl, hv, rfl⟩
  · rintro ⟨l, ls, rest, hl, hv, ht⟩
    simp only at hv ht
    refine ⟨l, by simp [hl], ?_⟩
    simp only [hv, modifyLabel_bind, hl, pure_eq_some, ht]
    rfl

@[simp] theorem jitPop_eq_some (type : ValueType) (s : EmitState) (r : Value × EmitState) :
    jitPop type s = some r ↔ ∃ l ls rest, s.func.labels = l :: ls ∧ l.stack = ⟨r.1, type⟩ :: rest ∧
      r.2 = s.withLabels ({ l with stack := rest } :: ls) := by
  obtain ⟨v, t⟩ := r
  simp only [jitPop, bind_eq_some, jitPopAny_eq_some, check_eq_some, pure_eq_some, Prod.mk.injEq]
  constructor
  · rintro ⟨w, u, ⟨l, ls, rest, hl, hv, rfl⟩, -, u', ⟨rfl, -, rfl⟩, rfl, rfl⟩
    exact ⟨l, ls, rest, hl, hv, rfl⟩
  · rintro ⟨l, ls, rest, hl, hv, rfl⟩
    exact ⟨⟨v, type⟩, _, ⟨l, ls, rest, hl, hv, rfl⟩, (), _, ⟨rfl, trivial, rfl⟩, rfl, rfl⟩

@[simp] theorem jitPop_bind_eq_some (type : ValueType) (f : Value → Emit β) (s : EmitState) (r : β × EmitState) :
    (jitPop type >>= f) s = some r ↔ ∃ v l ls rest, s.func.labels = l :: ls ∧ l.stack = ⟨v, type⟩ :: rest ∧
      f v (s.withLabels ({ l with stack := rest } :: ls)) = some r := by
  rw [bind_eq_some]
  constructor
  · rintro ⟨v, t, hp, h⟩
    obtain ⟨l, ls, rest, hl, hv, rfl⟩ := (jitPop_eq_some type s (v, t)).mp hp
    exact ⟨v, l, ls, rest, hl, hv, h⟩
  · rintro ⟨v, l, ls, rest, hl, hv, h⟩
    exact ⟨v, _, (jitPop_eq_some type s (v, _)).mpr ⟨l, ls, rest, hl, hv, rfl⟩, h⟩

end SpidirWasm.Jit
