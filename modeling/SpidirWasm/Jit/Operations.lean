import SpidirWasm.Jit.Function
import SpidirWasm.Logic.Moves

/-! What the handlers that open and close no label do to a state is what a few operations
do: building, branching, and pushing and popping operands. Where each of these takes what
is seen of the state along given steps, so does every such handler. -/

namespace SpidirWasm.Jit

open Checked
open Spidir (Builder Inst Term Value ValueType Block FuncRef)

/-- An instruction that refers to nothing of the module. -/
class Plain (i : Inst) : Prop where
  plain : i.refers = false

instance (n : ℕ) : Plain (.param n) := ⟨rfl⟩

instance (type : ValueType) (value : BitVec 64) : Plain (.iconst type value) := ⟨rfl⟩

instance (bits : BitVec 32) : Plain (.fconst32 bits) := ⟨rfl⟩

instance (bits : BitVec 64) : Plain (.fconst64 bits) := ⟨rfl⟩

instance (type : ValueType) (inputs : List Value) : Plain (.phi type inputs) := ⟨rfl⟩

instance (c t f : Value) : Plain (.select c t f) := ⟨rfl⟩

instance (op : Spidir.Binop) (a b : Value) : Plain (.binop op a b) := ⟨rfl⟩

instance (op : Spidir.Unop) (a : Value) : Plain (.unop op a) := ⟨rfl⟩

instance (kind : Spidir.Icmp) (type : ValueType) (a b : Value) : Plain (.icmp kind type a b) := ⟨rfl⟩

instance (kind : Spidir.Fcmp) (type : ValueType) (a b : Value) : Plain (.fcmp kind type a b) := ⟨rfl⟩

instance (base off : Value) : Plain (.ptroff base off) := ⟨rfl⟩

instance (size : Spidir.MemSize) (type : ValueType) (addr : Value) : Plain (.load size type addr) := ⟨rfl⟩

instance (size : Spidir.MemSize) (value addr : Value) : Plain (.store size value addr) := ⟨rfl⟩

instance (ret : ValueType) (argTypes : List ValueType) (target : Value) (args : List Value) :
    Plain (.callind ret argTypes target args) := ⟨rfl⟩

instance (p : Prop) [Decidable p] (i j : Inst) [Plain i] [Plain j] : Plain (if p then i else j) := by
  split_ifs <;> infer_instance

/-- What is seen of a handler's state. -/
abbrev JitState.seen {τ : Type} (view : EmitState → τ) (s : JitState) : τ := view s.toEmitState

/-- The operations take what is seen of the state along the steps `r`. -/
class Operations {τ : Type} (r : τ → τ → Prop) (view : EmitState → τ) : Prop where
  build (i : Inst) [Plain i] : Moves r view (build i)
  terminate (t : Term) : Moves r view (terminate t)
  createBlock : Moves r view createBlock
  setBlock (k : Block) : Moves r view (setBlock k)
  push (type : ValueType) (value : Value) : Moves r view (jitPush type value)
  popAny : Moves r view jitPopAny
  discard : Moves r view (modifyLabel 0 fun l => { l with stack := [] })
  setTerminated : Moves r view setTerminated
  setLocal (index : ℕ) (value : Value) : Moves r view (setLocal index value)
  setLocals (locals : EmitState → List JitValue) : Moves r view (update fun s => s.withLocals (locals s))
  callHelper (kind : HelperKind) (args : List Value) : Moves r view (callHelper kind args)
  useTable (tableidx : ℕ) : Moves r view (context (update fun c : JitContext =>
    { c with tables := c.tables.modify tableidx fun t => { t with used := true } }))
  prepareBranch (index : ℕ) (resultValue : Value) : Moves r view (jitWasmPrepareBranch index resultValue)

attribute [instance] Operations.build Operations.terminate Operations.createBlock Operations.setBlock Operations.push
  Operations.popAny Operations.discard Operations.setTerminated Operations.setLocal Operations.setLocals Operations.callHelper
  Operations.useTable Operations.prepareBranch

variable {τ α : Type} {r : τ → τ → Prop} {view : EmitState → τ}

theorem emit_moves {m : Emit α} (h : Moves r view m) : Moves r (JitState.seen view) (emit m) := h.zoom m (fun _ => rfl) fun _ _ => rfl

instance (m : Emit α) [h : Moves r view m] : Moves r (JitState.seen view) (emit m) := emit_moves h

instance (m : Pull α) : Moves r (JitState.seen view) (pull m) := .still fun s a t h => by
  obtain ⟨b, code, -, he⟩ := (pull_eq_some m s (a, t)).mp h
  obtain ⟨-, rfl⟩ := Prod.mk.inj he
  rfl

instance (index : ℕ) : Moves r view (labelAt index) := by unfold labelAt; infer_instance

variable [Operations r view]

instance (type : ValueType) : Moves r view (jitPop type) := by unfold jitPop; infer_instance

instance (type : ValueType) : Moves r view (jitPopIf type) := by unfold jitPopIf; infer_instance

instance (type : ValueType) : Moves r view (jitPeekIf type) := by unfold jitPeekIf; infer_instance

instance popArgs_moves (types : List Wasm.ValueType) : Moves r view (popArgs types) := by
  induction types with
  | nil => unfold popArgs; infer_instance
  | cons type types ih => unfold popArgs; infer_instance

theorem jitEmitTrap_eq : jitEmitTrap = callHelper .trap [] >>= fun _ => terminate .unreachable := by
  rw [callHelper, bind_assoc]
  rfl

instance : Moves r view jitEmitTrap := by rw [jitEmitTrap_eq]; infer_instance

instance (value : Value) : Moves r view (jitEmitZext64 value) := by unfold jitEmitZext64; infer_instance

instance (retType : ValueType) (value : Value) : Moves r view (pushResult retType value) := by unfold pushResult; infer_instance

instance (length : ℕ) (idx : Value) : Moves r view (jitGuardIndex length idx) := by unfold jitGuardIndex; infer_instance

instance (offset : ℕ) : Moves r view (stateSlot offset) := by unfold stateSlot; infer_instance

/-- A constant global is a constant. -/
theorem globalConst_plain {type : ValueType} {bits : ℕ} {i : Inst} (h : globalConst type bits = some i) : Plain i := by
  cases type <;> cases h <;> infer_instance

instance (global : JitGlobal) (bits : ℕ) : Moves r view (readGlobal global bits) := by
  unfold readGlobal
  cases global.offset with
  | none =>
    refine .liftSeq fun i hi => ?_
    have := globalConst_plain hi
    infer_instance
  | some offset => infer_instance

instance (memOffset : ℕ) (offset : Value) : Moves r view (addMemOffset memOffset offset) := by
  unfold addMemOffset; infer_instance

instance (memArg : WasmMemArg) (offset : Value) : Moves r view (jitWasmCalculateAddr memArg offset) := by
  unfold jitWasmCalculateAddr; infer_instance

instance (type : ValueType) (value : Value) (extend : Extend) : Moves r view (jitEmitExtend type value extend) := by
  cases extend <;> unfold jitEmitExtend <;> infer_instance

instance (dataidx : ℕ) : Moves r view (dataOffset dataidx) := by unfold dataOffset; infer_instance

instance (memBase addr : Value) : Moves r view (memoryPtr memBase addr) := by unfold memoryPtr; infer_instance

instance (type : ValueType) (op : ℕ) : Moves r view (cmpiLeft type op) := by unfold cmpiLeft; infer_instance

instance (first second : Spidir.Binop) (type : ValueType) (maskValue : ℕ) (value shiftAmt mask : Value) :
    Moves r view (jitEmitRotate first second type maskValue value shiftAmt mask) := by
  unfold jitEmitRotate; infer_instance

instance (type : ValueType) (maskValue op : ℕ) (value shiftAmt mask : Value) :
    Moves r view (jitEmitShift type maskValue op value shiftAmt mask) := by
  unfold jitEmitShift
  split <;> infer_instance

instance (type : ValueType) (arg1 arg2 : Value) (node : Spidir.Binop ⊕ FloatBinary) :
    Moves r view (jitEmitBinopf type arg1 arg2 node) := by
  cases node <;> unfold jitEmitBinopf <;> infer_instance

instance (type : ValueType) (arg1 arg2 : Value) : Moves r view (jitEmitSrem type arg1 arg2) := by
  unfold jitEmitSrem; infer_instance

instance (type : ValueType) (node : Spidir.Binop) (arg1 arg2 : Value) : Moves r view (jitEmitBinopi type node arg1 arg2) := by
  unfold jitEmitBinopi; infer_instance

/-! ### The handlers -/

instance : Moves r (JitState.seen view) jitWasmNop := by unfold jitWasmNop; infer_instance

instance : Moves r (JitState.seen view) jitWasmDrop := by unfold jitWasmDrop; infer_instance

instance : Moves r (JitState.seen view) jitWasmSelect := by unfold jitWasmSelect; infer_instance

instance : Moves r (JitState.seen view) jitWasmLocalGet := by unfold jitWasmLocalGet; infer_instance

instance : Moves r (JitState.seen view) jitWasmLocalSet := by unfold jitWasmLocalSet; infer_instance

instance : Moves r (JitState.seen view) jitWasmLocalTee := by unfold jitWasmLocalTee; infer_instance

instance : Moves r (JitState.seen view) jitWasmGlobalGet := by unfold jitWasmGlobalGet; infer_instance

instance : Moves r (JitState.seen view) jitWasmGlobalSet := by
  unfold jitWasmGlobalSet
  refine .seq inferInstance fun index => emit_moves ?_
  repeat refine .seq inferInstance fun _ => ?_
  infer_instance

instance : Moves r (JitState.seen view) jitWasmLoad := by unfold jitWasmLoad; infer_instance

instance : Moves r (JitState.seen view) jitWasmStore := by unfold jitWasmStore; infer_instance

instance : Moves r (JitState.seen view) jitWasmMemorySize := by unfold jitWasmMemorySize; infer_instance

instance : Moves r (JitState.seen view) jitWasmMemoryGrow := by unfold jitWasmMemoryGrow; infer_instance

instance : Moves r (JitState.seen view) jitWasmMemoryInit := by
  unfold jitWasmMemoryInit
  refine .seq inferInstance fun dataidx => .seq inferInstance fun _ => emit_moves ?_
  repeat refine .seq inferInstance fun _ => ?_
  infer_instance

instance : Moves r (JitState.seen view) jitWasmDataDrop := by unfold jitWasmDataDrop; infer_instance

instance : Moves r (JitState.seen view) jitWasmMemoryCopy := by unfold jitWasmMemoryCopy; infer_instance

instance : Moves r (JitState.seen view) jitWasmMemoryFill := by unfold jitWasmMemoryFill; infer_instance

instance : Moves r (JitState.seen view) jitWasmI32Const := by unfold jitWasmI32Const; infer_instance

instance : Moves r (JitState.seen view) jitWasmI64Const := by unfold jitWasmI64Const; infer_instance

instance : Moves r (JitState.seen view) jitWasmF32Const := by unfold jitWasmF32Const; infer_instance

instance : Moves r (JitState.seen view) jitWasmF64Const := by unfold jitWasmF64Const; infer_instance

instance : Moves r (JitState.seen view) jitWasmCmpi := by unfold jitWasmCmpi; infer_instance

instance : Moves r (JitState.seen view) jitWasmCmpf := by unfold jitWasmCmpf; infer_instance

instance : Moves r (JitState.seen view) jitWasmIconv := by unfold jitWasmIconv; infer_instance

instance : Moves r (JitState.seen view) jitWasmTruncSat := by unfold jitWasmTruncSat; infer_instance

instance : Moves r (JitState.seen view) jitWasmItof := by unfold jitWasmItof; infer_instance

instance : Moves r (JitState.seen view) jitWasmFconv := by unfold jitWasmFconv; infer_instance

instance : Moves r (JitState.seen view) jitWasmBitcast := by unfold jitWasmBitcast; infer_instance

instance : Moves r (JitState.seen view) jitWasmShift := by unfold jitWasmShift; infer_instance

instance : Moves r (JitState.seen view) jitWasmUnaryopf := by unfold jitWasmUnaryopf; infer_instance

instance : Moves r (JitState.seen view) jitWasmBinopf := by unfold jitWasmBinopf; infer_instance

instance : Moves r (JitState.seen view) jitWasmUnaryopi := by unfold jitWasmUnaryopi; infer_instance

instance : Moves r (JitState.seen view) jitWasmBinopi := by unfold jitWasmBinopi; infer_instance

instance : Moves r (JitState.seen view) jitWasmAtomicNotify := by unfold jitWasmAtomicNotify; infer_instance

instance : Moves r (JitState.seen view) jitWasmAtomicWait := by unfold jitWasmAtomicWait; infer_instance

instance : Moves r (JitState.seen view) jitWasmAtomicStore := by unfold jitWasmAtomicStore; infer_instance

instance : Moves r (JitState.seen view) jitWasmAtomicLoad := by unfold jitWasmAtomicLoad; infer_instance

instance : Moves r (JitState.seen view) jitWasmAtomicRmwCmpexchg := by
  unfold jitWasmAtomicRmwCmpexchg
  refine .seq inferInstance fun sub => .seq inferInstance fun memArg => emit_moves ?_
  repeat refine .seq inferInstance fun _ => ?_
  infer_instance

instance : Moves r (JitState.seen view) jitWasmAtomicRmwBinop := by
  unfold jitWasmAtomicRmwBinop
  refine .seq inferInstance fun sub => .seq inferInstance fun memArg => emit_moves ?_
  repeat refine .seq inferInstance fun _ => ?_
  infer_instance

instance : Moves r (JitState.seen view) jitWasmAtomicPrefix := by unfold jitWasmAtomicPrefix; infer_instance

instance : Moves r (JitState.seen view) jitWasmFcPrefix := by unfold jitWasmFcPrefix; infer_instance

/-- The handlers that stay in their block. What a call does depends on what is seen. -/
instance [Moves r (JitState.seen view) jitWasmCall] [Moves r (JitState.seen view) jitWasmCallIndirect] (opcode : ℕ) : Moves r (JitState.seen view) ((dataHandler opcode).getD fail) := by
  unfold dataHandler
  repeat refine .switch inferInstance ?_
  exact .fail

/-! ### Branches -/

instance : Moves r view emitUnreachable := by unfold emitUnreachable; infer_instance

instance (index : ℕ) : Moves r view (brTarget index) := by unfold brTarget; infer_instance

instance (index : ℕ) : Moves r view (emitBr index) := by unfold emitBr; infer_instance

instance (index : ℕ) (c : Value) (continuation : Block) : Moves r view (brIfTarget index c continuation) := by
  unfold brIfTarget
  refine .seq inferInstance fun target => .seq inferInstance fun func => ?_
  split_ifs <;> infer_instance

instance (index : ℕ) : Moves r view (emitBrIf index) := by unfold emitBrIf; infer_instance

instance pullTargets_moves (n : ℕ) : Moves r (JitState.seen view) (pullTargets n) := by
  induction n with
  | zero => unfold pullTargets; infer_instance
  | succ n ih => unfold pullTargets; infer_instance

instance (branchValue : Value) (index : ℕ) : Moves r view (prepareTarget branchValue index) := by unfold prepareTarget; infer_instance

instance prepareTargets_moves (branchValue : Value) (indices : List ℕ) : Moves r view (prepareTargets branchValue indices) := by
  induction indices with
  | nil => unfold prepareTargets; infer_instance
  | cons index rest ih => unfold prepareTargets; infer_instance

instance (retBlock : Option Block) (index : ℕ) : Moves r view (resolveTarget retBlock index) := by
  cases retBlock <;> unfold resolveTarget <;> infer_instance

instance emitCases_moves (index : Value) (i : ℕ) (cases : List ℕ) (tryNextCase : Block) (retBlock : Option Block) :
    Moves r view (emitCases index i cases tryNextCase retBlock) := by
  induction cases generalizing i tryNextCase retBlock with
  | nil => unfold emitCases; infer_instance
  | cons case rest ih => unfold emitCases; infer_instance

instance (branchValue : Value) (retBlock : Option Block) : Moves r view (emitReturnBlock branchValue retBlock) := by
  cases retBlock <;> unfold emitReturnBlock <;> infer_instance

instance (table : List ℕ) (defaultIndex : ℕ) : Moves r view (brTableTargets table defaultIndex) := by
  unfold brTableTargets
  repeat refine .seq inferInstance fun _ => ?_
  infer_instance

instance (table : List ℕ) (defaultIndex : ℕ) : Moves r view (emitBrTable table defaultIndex) := by unfold emitBrTable; infer_instance

instance : Moves r view emitReturn := by unfold emitReturn; infer_instance

/-! ### End -/

instance (label : JitLabel) (m : Emit Unit) [Moves r view m] : Moves r view (unlessTerminated label m) := by
  unfold unlessTerminated; infer_instance

instance (label : JitLabel) : Moves r view (endFuncbody label) := by unfold endFuncbody; infer_instance

instance (label : JitLabel) : Moves r view (endBlock label) := by
  unfold endBlock
  refine .seq inferInstance fun _ => .seq inferInstance fun merged => ?_
  cases merged.locals <;> infer_instance

instance (label : JitLabel) : Moves r view (endLoop label) := by unfold endLoop; infer_instance

instance (label : JitLabel) (labelsCount : ℕ) : Moves r view (endLabel label labelsCount) := by unfold endLabel; infer_instance

instance (v : Option JitValue) : Moves r view (handResult v) := by
  cases v <;> unfold handResult <;> infer_instance

end SpidirWasm.Jit
