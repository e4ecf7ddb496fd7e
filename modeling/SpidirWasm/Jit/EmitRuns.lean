import SpidirWasm.Jit.EmitSteps

/-! The control handlers, the opcode loop and the translation of a whole function, as steps
of the context and the graph. A branch adds phis and their inputs. -/

namespace SpidirWasm.Jit

open Checked
open Spidir (Builder Inst Term Value ValueType Block FuncRef)
open Relation (ReflTransGen)

/-! ### Blocks -/

instance (resultType : ValueType) : (openBlock resultType).Moves := by unfold openBlock; infer_instance

instance (resultType : ValueType) : (openLoop resultType).Moves := by
  refine .seq inferInstance fun block => .seq inferInstance fun _ => .seq inferInstance fun _ => graph_moves fun s a t h => ?_
  simp only [get_bind, set_bind, pushLabel, update_eq_some, Prod.mk.injEq, true_and] at h
  subst h
  exact ⟨rfl, refsIn_loopPhis s.func.locals s.builder⟩

/-! ### End -/

instance (labels : EmitState → List JitLabel) : Emit.Moves (update fun s => s.withLabels (labels s)) := .still fun _ _ _ h => by
  cases h
  rfl

instance (c : Closing) : (closeLabel c).Moves := by unfold closeLabel; infer_instance

instance : jitWasmEnd.Moves := by unfold jitWasmEnd; infer_instance

/-! ### The opcode loop -/

instance : Handler.Moves jitWasmUnreachable := by unfold jitWasmUnreachable; infer_instance

instance : Handler.Moves jitWasmBlock := by unfold jitWasmBlock; infer_instance

instance : Handler.Moves jitWasmLoop := by unfold jitWasmLoop; infer_instance

instance : Handler.Moves jitWasmBr := by unfold jitWasmBr; infer_instance

instance : Handler.Moves jitWasmBrIf := by unfold jitWasmBrIf; infer_instance

instance : Handler.Moves jitWasmBrTable := by unfold jitWasmBrTable; infer_instance

instance : Handler.Moves jitWasmReturn := by unfold jitWasmReturn; infer_instance

instance (opcode : ℕ) : Handler.Moves (jitSkipUnreachable opcode) := by unfold jitSkipUnreachable; infer_instance

instance (opcode : ℕ) : Handler.Moves (jitLiveOpcode opcode) := by
  unfold jitLiveOpcode
  split <;> infer_instance

instance : Handler.Moves jitWasmOpcode := by unfold jitWasmOpcode; infer_instance

instance jitOpcodes_moves (fuel : ℕ) : Handler.Moves (jitOpcodes fuel) := by
  induction fuel with
  | zero => unfold jitOpcodes; infer_instance
  | succ fuel ih => unfold jitOpcodes; infer_instance

/-! ### A function -/

instance (type : ValueType) (i : Inst) [Plain i] : (addLocal type i).Moves := by unfold addLocal; infer_instance

instance addParams_moves (i : ℕ) (types : List Wasm.ValueType) : (addParams i types).Moves := by
  induction types generalizing i with
  | nil => unfold addParams; infer_instance
  | cons type types ih => unfold addParams; infer_instance

instance (type : ValueType) : Plain (localConst type) := by
  unfold localConst
  split <;> infer_instance

instance : Handler.Moves addLocalGroup := by unfold addLocalGroup; infer_instance

instance : enterBody.Moves := by
  unfold enterBody
  refine .seq inferInstance fun block => .seq (graph_moves fun s a t h => ?_) fun _ => inferInstance
  cases h
  exact ⟨rfl, .refl s.builder⟩

instance (type : Wasm.FuncType) : Handler.Moves (jitEnterFunction type) := by
  unfold jitEnterFunction
  refine .seq (emit_moves (.seq inferInstance fun _ => .seq inferInstance fun retType => .still fun _ _ _ h => ?_)) fun _ => inferInstance
  cases h
  rfl

/-- The body of a function is built by such steps from an empty graph. -/
theorem jitBuildFunction_run {params : List ValueType} {funcidx : ℕ} {c c' : JitContext} {body : Builder}
    (h : jitBuildFunction params funcidx c = some (body, c')) : ReflTransGen EmitStep (c, { params }) (c', body) := by
  simp only [jitBuildFunction, bind, Option.bind_eq_some_iff, pure, Option.some.injEq] at h
  obtain ⟨⟨type, code⟩, -, ⟨_, s⟩, hs, ⟨_, t⟩, ht, _, -, he⟩ := h
  obtain ⟨rfl, rfl⟩ := Prod.mk.inj he
  have enter : Handler.Moves (jitEnterFunction type) := inferInstance
  exact (enter.moves _ _ _ hs).trans ((jitOpcodes_moves _).moves _ _ _ ht)

end SpidirWasm.Jit
