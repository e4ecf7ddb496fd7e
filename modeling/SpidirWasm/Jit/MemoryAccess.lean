import SpidirWasm.Jit.ControlSteps
import SpidirWasm.Jit.Execution
import SpidirWasm.Jit.HelperMemory

/-! The instructions that access memory at an address on the stack. Each handler computes
the same address, and then does one of the few things that are listed here. -/

namespace SpidirWasm.Jit

open Checked
open Spidir

/-- What a memory instruction does at its address. -/
inductive MemoryOp where
  | load (type : ValueType) (size : MemSize) (extend : Extend)
  | store (type : ValueType) (size : MemSize)
  | notify
  | wait (is64 : Bool)
  | atomicLoad (w : AtomicWidth)
  | atomicStore (w : AtomicWidth)
  | rmw (op : RmwOp) (w : AtomicWidth)
  deriving DecidableEq, Repr

/-- The two waits. -/
def waitKind (is64 : Bool) : HelperKind := if is64 then .atomicWait8 else .atomicWait4

/-- The operation of an atomic sub-opcode, whose last byte the handlers read back. -/
def atomicOp (sub last : ℕ) : Option MemoryOp :=
  if sub = 0x00 then some .notify
  else if 0x01 ≤ sub ∧ sub ≤ 0x02 then (waitParams last).map fun p => .wait (p.1 = .i64)
  else if 0x10 ≤ sub ∧ sub ≤ 0x16 then
    if 0x10 ≤ last then (atomicWidth (last - 0x10)).map .atomicLoad else none
  else if 0x17 ≤ sub ∧ sub ≤ 0x1D then
    if 0x17 ≤ last then (atomicWidth (last - 0x17)).map .atomicStore else none
  else if 0x1E ≤ sub ∧ sub ≤ 0x47 then
    if 0x1E ≤ last then (rmwOp ((last - 0x1E) / 7)).bind fun op =>
      (atomicWidth ((last - 0x1E) % 7)).map (.rmw op)
    else none
  else if 0x48 ≤ sub ∧ sub ≤ 0x4E then
    if 0x48 ≤ last then (atomicWidth (last - 0x48)).map (.rmw .cmpxchg) else none
  else none

/-- The opcodes of loads and stores, and the prefix of the atomic instructions. -/
def isMemoryOpcode (opcode : ℕ) : Prop := (0x28 ≤ opcode ∧ opcode ≤ 0x3E) ∨ opcode = 0xFE

instance : DecidablePred isMemoryOpcode := fun _ => inferInstanceAs (Decidable (_ ∨ _))

/-- The operation and the immediate behind an atomic sub-opcode. -/
def pullAtomic (sub : ℕ) : Pull (MemoryOp × WasmMemArg) := do
  let last ← bufferPrev
  let memArg ← jitPullMemarg
  let op ← lift (atomicOp sub last.toNat)
  return (op, memArg)

/-- The operation and the immediates behind an opcode. -/
def pullMemoryOp (opcode : ℕ) : Pull (MemoryOp × WasmMemArg) :=
  if opcode = 0xFE then do
    let sub ← bufferPullU32
    pullAtomic sub
  else do
    let opcode ← bufferPrev
    let memArg ← jitPullMemarg
    if opcode.toNat ≤ 0x35 then
      let p ← lift (loadParams opcode.toNat)
      return (.load p.1 p.2.1 p.2.2, memArg)
    else
      let p ← lift (storeParams opcode.toNat)
      return (.store p.1 p.2, memArg)

/-- A memory instruction. -/
def pullMemoryInstr : Pull (MemoryOp × WasmMemArg) := do
  let opcode ← bufferPullU8
  pullMemoryOp opcode.toNat

/-- A loaded word in its type. -/
def Extend.word (x : Word) : Extend → Word
  | .full => x
  | .sign width => (x.setWidth width).signExtend 64
  | .zero width => (x.setWidth width).setWidth 64

namespace MemoryOp

/-- The types of the operands above the address, the top one first. -/
def above : MemoryOp → List ValueType
  | load _ _ _ | atomicLoad _ => []
  | store type _ => [type]
  | notify => [.i32]
  | wait is64 => [.i64, intType is64]
  | atomicStore w => [w.type]
  | rmw .cmpxchg w => [w.type, w.type]
  | rmw _ w => [w.type]

/-- The bytes that are accessed; a notification accesses none, and neither does the
64-bit wait. -/
def width : MemoryOp → ℕ
  | load _ size _ | store _ size => size.bytes
  | notify => 0
  | wait is64 => if is64 then 0 else 4
  | atomicLoad w | atomicStore w | rmw _ w => w.bytes

/-- The helper that an operation calls, and the type of its result. -/
def helper : MemoryOp → Option (HelperKind × ValueType)
  | load _ _ _ | store _ _ => none
  | notify => some (.atomicNotify, .i32)
  | wait is64 => some (waitKind is64, .i32)
  | atomicLoad w => some (.atomicLoad w, w.type)
  | atomicStore w => some (.atomicStore w, .none)
  | rmw op w => some (.atomicRmw op w, w.type)

/-- An operation at an address: what it leaves on the stack, and in memory. -/
def perform (H : Platform) (op : MemoryOp) (operands : List (ValueType × Word)) (addr : Word) (s : Store) :
    Outcome Store (List (ValueType × Word) × Store) :=
  match op, operands with
  | load type size extend, _ => (s.load addr.toNat size.bytes).bind fun (bytes, s) =>
    .done ([(type, extend.word (Word.ofBytes bytes))], s)
  | store _ size, (_, value) :: _ => (s.store addr.toNat (value.toBytes size.bytes)).bind fun s =>
    .done ([], s)
  | op, operands =>
    match op.helper with
    | none => .unknown
    | some (kind, ret) =>
      let args := operands.reverse.map fun p => Word.fill p.1.width p.2 0
      (H.helper kind (addr :: args) s).bind fun (r, s) =>
        .done (if ret = .none then [] else [(ret, r)], s)

/-- What is known behind an operation, over the operands `rest`. -/
def leaves (H : Platform) (op : MemoryOp) (operands : List (ValueType × Word)) (addr : Word) (rest : List (ValueType × Word))
    (s : Store) : Outcome Store View :=
  (op.perform H operands addr s).bind fun p => .done { stack := p.1 ++ rest, shared := p.2 }

end MemoryOp

/-! ### The handlers -/

/-- The address that `jit_wasm_calculate_addr` computes. -/
def address (W : World) (memArg : WasmMemArg) (addr : Word) : Word :=
  W.param 0 + (Word.zext32 addr + BitVec.ofNat 64 memArg.offset)

/-- A program that finds the operands of `op` above an address and performs it there. -/
def Performs (e : Emit Unit) (op : MemoryOp) (memArg : WasmMemArg) : Prop :=
  ∀ H W w operands addr rest, operands.map Prod.fst = op.above → w.stack = operands ++ (.i32, addr) :: rest →
    Runs (Platform.helper H) W w e fun _ o => memArg.offset < 2 ^ 32 ∧
      o = op.leaves H operands (address W memArg addr) rest w.shared

theorem jitWasmCalculateAddr_offset {memArg : WasmMemArg} {v : Value} {s : EmitState} {r : Value × EmitState}
    (h : jitWasmCalculateAddr memArg v s = some r) : memArg.offset < 2 ^ 32 := by
  simp only [jitWasmCalculateAddr, addMemOffset, bind_eq_some] at h
  obtain ⟨_, _, -, _, _, hoff, -⟩ := h
  split_ifs at hoff with h0
  · omega
  · simp only [check_bind_eq_some] at hoff
    omega

section Handlers

variable {type type' : ValueType} {size : MemSize} {extend : Extend} {memArg : WasmMemArg} {w : AtomicWidth}

/-- A load reads all the bits of its type, or is widened to an integer type. -/
def Extend.Fits (type : ValueType) (size : MemSize) : Extend → Prop
  | .full => 8 * size.bytes = type.width
  | .sign n | .zero n => n = 8 * size.bytes ∧ n ≤ type.width ∧ type.IsInt

theorem loadParams_fits {opcode : ℕ} (h : loadParams opcode = some (type, size, extend)) : extend.Fits type size := by
  unfold loadParams at h
  split at h <;> simp only [Option.some.injEq, Prod.mk.injEq, reduceCtorEq] at h
  all_goals
    obtain ⟨rfl, rfl, rfl⟩ := h
    simp [Extend.Fits, MemSize.bytes, ValueType.width, ValueType.IsInt]

theorem Extend.Fits.size_le (h : extend.Fits type size) : 8 * size.bytes ≤ type.width := by
  cases extend with
  | full => exact h.le
  | sign n => exact h.1 ▸ h.2.1
  | zero n => exact h.1 ▸ h.2.1

variable {helper : HelperKind → List Word → Store → Outcome Store (Word × Store)} {W : World}

/-- A mask keeps the low bits. -/
theorem and_mask {n m : ℕ} {x y : Word} (h : x.setWidth n = y.setWidth n) :
    ((x.setWidth m &&& (BitVec.ofNat 64 (2 ^ n - 1)).setWidth m).setWidth 64 : Word).setWidth m =
      ((y.setWidth n).setWidth 64).setWidth m := by
  ext i hi
  have bit := congrArg (fun z => z.getLsbD i) h
  simp only [BitVec.getLsbD_setWidth] at bit
  simp only [BitVec.getElem_setWidth, BitVec.getLsbD_setWidth, BitVec.getLsbD_and, BitVec.getLsbD_ofNat,
    Nat.testBit_two_pow_sub_one, hi, decide_true, Bool.true_and]
  rw [← bit, Bool.and_comm (decide (i < n))]
  by_cases h64 : i < 64
  · simp [h64]
  · simp [h64]

theorem Runs.widen {w : View} {v : Value} {x : Word} (hfit : extend.Fits type size)
    (hv : ⟨v, type, 8 * size.bytes, x⟩ ∈ w.facts) :
    Runs helper W w (jitEmitExtend type v extend) fun v o =>
      o = .done (w.learn ⟨v, type, type.width, extend.word x⟩) := by
  cases extend with
  | full =>
    have hwidth : 8 * size.bytes = type.width := hfit
    apply Runs.pure
    rw [Extend.word, View.learn, Set.insert_eq_of_mem (hwidth ▸ hv)]
  | sign n =>
    obtain ⟨rfl, hle, hint⟩ := hfit
    apply Runs.compute rfl rfl (Nat.le_refl _)
    intro s σ B hw hB
    refine ⟨(hw.facts _ hv).typeOf, _, rfl, ?_⟩
    have known := (hw.facts _ hv).read hB
    simp only at known
    simp only [known, Extend.word]
  | zero n =>
    obtain ⟨rfl, hle, hint⟩ := hfit
    have mask : (if type = .i32 then ValueType.i32 else .i64) = type := by
      rcases hint with rfl | rfl <;> rfl
    rw [jitEmitExtend, mask]
    apply Runs.bind (iconst _)
    intro c
    refine Runs.giving (Runs.compute rfl rfl (Nat.le_refl _) fun s σ B hw hB => ?_) (Set.subset_insert _ _) rfl rfl
    have known := hw.facts ⟨v, type, 8 * size.bytes, x⟩ (by simp [hv])
    have hx := known.read hB
    have hc := (hw.facts ⟨c, type, type.width, BitVec.ofNat 64 (2 ^ (8 * size.bytes) - 1)⟩ (by simp)).read hB
    simp only at hx hc
    refine ⟨known.typeOf, _, ?_, and_mask hx⟩
    simp only [Inst.compute, Binop.isFloat, Binop.compute, hc, Bool.false_eq_true, if_false, Outcome.done_bind]

theorem MemoryOp.perform_helper {op : MemoryOp} {k : HelperKind} {ret : ValueType} (h : op.helper = some (k, ret)) (H : Platform)
    (operands : List (ValueType × Word)) (addr : Word) (s : Store) : op.perform H operands addr s =
      (H.helper k (addr :: operands.reverse.map fun p => Word.fill p.1.width p.2 0) s).bind fun p =>
        .done (if ret = .none then [] else [(ret, p.1)], p.2) := by
  cases op <;> simp only [MemoryOp.helper, Option.some.injEq, Prod.mk.injEq, reduceCtorEq] at h <;>
    obtain ⟨rfl, rfl⟩ := h <;> rfl

/-- The address of an access, whose constant part was checked. -/
theorem Runs.addrThen {w : View} {v : Value} {x : Word} {β : Type} {f : Value → Emit β} {R : β → Outcome Store View → Prop}
    (hv : ⟨v, .i32, 32, x⟩ ∈ w.facts)
    (hf : ∀ ptr, Runs helper W (w.learn ⟨ptr, .ptr, 64, address W memArg x⟩) (f ptr) R) :
    Runs helper W w (jitWasmCalculateAddr memArg v >>= f) fun a o => memArg.offset < 2 ^ 32 ∧ R a o := by
  refine require (fun s r h => jitWasmCalculateAddr_offset h) fun hoff => ?_
  refine weaken (Q := R) ?_ fun a o h => ⟨hoff, h⟩
  apply bind (addr memArg hv)
  exact hf

/-- The code of a load, which calls no helper. -/
def loadAt (memArg : WasmMemArg) (type : ValueType) (size : MemSize) (extend : Extend) : Emit Unit := do
  let offset ← jitPop .i32
  let addr ← jitWasmCalculateAddr memArg offset
  let value ← build (.load size type addr)
  let value ← jitEmitExtend type value extend
  jitPush type value

/-- The code of a store. -/
def storeAt (memArg : WasmMemArg) (type : ValueType) (size : MemSize) : Emit Unit := do
  let value ← jitPop type
  let offset ← jitPop .i32
  let addr ← jitWasmCalculateAddr memArg offset
  let _ ← build (.store size value addr)

theorem Runs.loadAt {w : View} {addr : Word} {rest : List (ValueType × Word)} (hfit : extend.Fits type size)
    (hstack : w.stack = (.i32, addr) :: rest) : Runs helper W w (loadAt memArg type size extend) fun _ o => memArg.offset < 2 ^ 32 ∧
      o = (w.shared.load (address W memArg addr).toNat size.bytes).bind fun p =>
        .done { stack := (type, extend.word (Word.ofBytes p.1)) :: rest, shared := p.2 } := by
  apply Runs.bind (Runs.pop hstack)
  intro v
  refine Runs.addrThen (x := addr) (by simp) fun ptr => ?_
  refine Runs.outcome (Runs.load (x := address W memArg addr) (by simp) hfit.size_le) fun v p => ?_
  apply Runs.bind (Runs.widen (x := Word.ofBytes p.1) hfit (by simp))
  intro v
  exact Runs.leave (Runs.push (by simp))

theorem Runs.storeAt {w : View} {value addr : Word} {rest : List (ValueType × Word)} (hsize : 8 * size.bytes ≤ type.width)
    (hstack : w.stack = (type, value) :: (.i32, addr) :: rest) : Runs helper W w (storeAt memArg type size) fun _ o =>
      memArg.offset < 2 ^ 32 ∧ o = (w.shared.store (address W memArg addr).toNat (value.toBytes size.bytes)).bind fun u =>
        .done { stack := rest, shared := u } := by
  apply Runs.bind (Runs.pop hstack)
  intro v
  apply Runs.bind (Runs.pop rfl)
  intro offset
  refine Runs.addrThen (x := addr) (by simp) fun ptr => ?_
  have known {Γ : Set Fact} : (⟨v, type, type.width, value⟩ : Fact) ∈ insert (⟨v, type, type.width, value⟩ : Fact) Γ :=
    Set.mem_insert _ _
  refine Runs.outcome (Runs.store (x := address W memArg addr) (by simp) (.inr (.inr known)) hsize) fun _ u => ?_
  exact Runs.leave (Runs.pure rfl)

namespace Performs

theorem load (hfit : extend.Fits type size) : Performs (loadAt memArg type size extend) (.load type size extend) memArg := by
  intro H W w operands addr rest hops hstack
  obtain rfl : operands = [] := List.map_eq_nil_iff.mp hops
  rw [MemoryOp.leaves, MemoryOp.perform, Outcome.bind_assoc]
  exact Runs.loadAt hfit hstack

theorem store (hsize : 8 * size.bytes ≤ type.width) : Performs (storeAt memArg type size) (.store type size) memArg := by
  intro H W w operands addr rest hops hstack
  obtain ⟨⟨τ, x⟩, rfl, ht⟩ := List.map_eq_singleton_iff.mp hops
  change τ = type at ht
  subst ht
  rw [MemoryOp.leaves, MemoryOp.perform, Outcome.bind_assoc]
  exact Runs.storeAt hsize hstack

variable {H : Platform} {W : World} {view : View} {k : HelperKind} {ret : ValueType} {types : List ValueType}
  {args : List Value} {operands : List (ValueType × Word)} {offset : Value} {x : Word}

/-- The call of a helper that gets the address, with its arguments at hand. -/
theorem call {op : MemoryOp} (hop : op.helper = some (k, ret)) (hret : ret ≠ .none) (hk : helperDef k = some (ret, types))
    (hoff : ⟨offset, .i32, 32, x⟩ ∈ view.facts)
    (hargs : List.Forall₂ (fun v (p : ValueType × Word) => ⟨v, p.1, p.1.width, p.2⟩ ∈ view.facts) args operands.reverse) :
    Runs H.helper W view (do
      let addr ← jitWasmCalculateAddr memArg offset
      jitPush ret (← callHelper k (addr :: args))) fun _ o =>
      memArg.offset < 2 ^ 32 ∧ o = op.leaves H operands (address W memArg x) view.stack view.shared := by
  rw [MemoryOp.leaves, op.perform_helper hop, Outcome.bind_assoc]
  refine Runs.addrThen hoff fun ptr => ?_
  have args' : List.Forall₂ (fun v (p : ValueType × Word) => ⟨v, p.1, p.1.width, p.2⟩ ∈
      (view.learn ⟨ptr, .ptr, 64, address W memArg x⟩).facts) (ptr :: args) ((.ptr, address W memArg x) :: operands.reverse) :=
    .cons (by simp) (hargs.imp fun _ _ h => by simp [h])
  have called : Runs H.helper W _ (callHelper k (ptr :: args)) _ := Runs.callValue hk hret args'
  rw [List.map_cons, ValueType.width_ptr, Word.fill_full] at called
  refine Runs.outcome called fun v p => ?_
  rw [if_neg hret]
  exact Runs.leave (Runs.push (by simp))

/-- The call of a helper without a result. -/
theorem callEffect {op : MemoryOp} (hop : op.helper = some (k, .none)) (hk : helperDef k = some (.none, types))
    (hoff : ⟨offset, .i32, 32, x⟩ ∈ view.facts)
    (hargs : List.Forall₂ (fun v (p : ValueType × Word) => ⟨v, p.1, p.1.width, p.2⟩ ∈ view.facts) args operands.reverse) :
    Runs H.helper W view (do
      let addr ← jitWasmCalculateAddr memArg offset
      let _ ← callHelper k (addr :: args)) fun _ o =>
      memArg.offset < 2 ^ 32 ∧ o = op.leaves H operands (address W memArg x) view.stack view.shared := by
  rw [MemoryOp.leaves, op.perform_helper hop, Outcome.bind_assoc]
  refine Runs.addrThen hoff fun ptr => ?_
  have args' : List.Forall₂ (fun v (p : ValueType × Word) => ⟨v, p.1, p.1.width, p.2⟩ ∈
      (view.learn ⟨ptr, .ptr, 64, address W memArg x⟩).facts) (ptr :: args) ((.ptr, address W memArg x) :: operands.reverse) :=
    .cons (by simp) (hargs.imp fun _ _ h => by simp [h])
  have called : Runs H.helper W _ (callHelper k (ptr :: args)) _ := Runs.callEffect hk args'
  rw [List.map_cons, ValueType.width_ptr, Word.fill_full] at called
  refine Runs.outcome called fun v p => ?_
  exact Runs.leave (Runs.pure rfl)

/-- One operand above the address. -/
theorem one {op : MemoryOp} {f : Value → Value → Emit Unit} (hop : op.above = [type])
    (h : ∀ H W view v offset y x, ⟨v, type, type.width, y⟩ ∈ view.facts → ⟨offset, .i32, 32, x⟩ ∈ view.facts →
      Runs (Platform.helper H) W view (f v offset) fun _ o =>
        memArg.offset < 2 ^ 32 ∧ o = op.leaves H [(type, y)] (address W memArg x) view.stack view.shared) :
    Performs (do
      let v ← jitPop type
      let offset ← jitPop .i32
      f v offset) op memArg := by
  intro H W w operands addr rest hops hstack
  rw [hop] at hops
  obtain ⟨⟨τ, y⟩, rfl, ht⟩ := List.map_eq_singleton_iff.mp hops
  change τ = type at ht
  subst ht
  apply Runs.bind (Runs.pop hstack)
  intro v
  apply Runs.bind (Runs.pop rfl)
  intro offset
  exact h H W _ v offset y addr (by simp) (by simp)

/-- Two operands above the address. -/
theorem two {op : MemoryOp} {f : Value → Value → Value → Emit Unit} (hop : op.above = [type, type'])
    (h : ∀ H W view v v' offset y y' x, ⟨v, type, type.width, y⟩ ∈ view.facts →
      ⟨v', type', type'.width, y'⟩ ∈ view.facts → ⟨offset, .i32, 32, x⟩ ∈ view.facts →
      Runs (Platform.helper H) W view (f v v' offset) fun _ o =>
        memArg.offset < 2 ^ 32 ∧ o = op.leaves H [(type, y), (type', y')] (address W memArg x) view.stack view.shared) :
    Performs (do
      let v ← jitPop type
      let v' ← jitPop type'
      let offset ← jitPop .i32
      f v v' offset) op memArg := by
  intro H W w operands addr rest hops hstack
  rw [hop] at hops
  obtain ⟨⟨τ, y⟩, operands, rfl, ht, hops⟩ := List.map_eq_cons_iff.mp hops
  obtain ⟨⟨τ', y'⟩, rfl, ht'⟩ := List.map_eq_singleton_iff.mp hops
  change τ = type at ht
  change τ' = type' at ht'
  subst ht ht'
  apply Runs.bind (Runs.pop hstack)
  intro v
  apply Runs.bind (Runs.pop rfl)
  intro v'
  apply Runs.bind (Runs.pop rfl)
  intro offset
  exact h H W _ v v' offset y y' addr (by simp) (by simp) (by simp)

theorem notify : Performs (do
    let count ← jitPop .i32
    let offset ← jitPop .i32
    let addr ← jitWasmCalculateAddr memArg offset
    jitPush .i32 (← callHelper .atomicNotify [addr, count])) .notify memArg :=
  one rfl fun _ _ _ _ _ _ _ hy hx => call rfl (by simp) rfl hx (by simpa using hy)

theorem wait (is64 : Bool) : Performs (do
    let timeout ← jitPop .i64
    let expected ← jitPop (intType is64)
    let offset ← jitPop .i32
    let addr ← jitWasmCalculateAddr memArg offset
    jitPush .i32 (← callHelper (waitKind is64) [addr, expected, timeout])) (.wait is64) memArg := by
  have def' : helperDef (waitKind is64) = some (.i32, [.ptr, intType is64, .i64]) := by cases is64 <;> rfl
  exact two rfl fun _ _ _ _ _ _ _ _ _ hy hy' hx => call rfl (by simp) def' hx (by simpa using ⟨hy', hy⟩)

theorem atomicStore (w : AtomicWidth) : Performs (do
    let value ← jitPop w.type
    let offset ← jitPop .i32
    let addr ← jitWasmCalculateAddr memArg offset
    let _ ← callHelper (.atomicStore w) [addr, value]) (.atomicStore w) memArg :=
  one rfl fun _ _ _ _ _ _ _ hy hx => callEffect rfl rfl hx (by simpa using hy)

theorem atomicLoad (w : AtomicWidth) : Performs (do
    let offset ← jitPop .i32
    let addr ← jitWasmCalculateAddr memArg offset
    jitPush w.type (← callHelper (.atomicLoad w) [addr])) (.atomicLoad w) memArg := by
  intro H W view operands addr rest hops hstack
  obtain rfl : operands = [] := List.map_eq_nil_iff.mp hops
  apply Runs.bind (Runs.pop hstack)
  intro offset
  exact call rfl (isInt_ne w.type_isInt) rfl (by simp) (by simp)

theorem cmpxchg (w : AtomicWidth) : Performs (do
    let replacement ← jitPop w.type
    let expected ← jitPop w.type
    let offset ← jitPop .i32
    let addr ← jitWasmCalculateAddr memArg offset
    jitPush w.type (← callHelper (.atomicRmw .cmpxchg w) [addr, expected, replacement])) (.rmw .cmpxchg w) memArg :=
  two rfl fun _ _ _ _ _ _ _ _ _ hy hy' hx =>
    call rfl (isInt_ne w.type_isInt) rfl hx (by simpa using ⟨hy', hy⟩)

theorem rmw {n : ℕ} {op : RmwOp} (h : rmwOp n = some op) (w : AtomicWidth) : Performs (do
    let arg2 ← jitPop w.type
    let offset ← jitPop .i32
    let addr ← jitWasmCalculateAddr memArg offset
    jitPush w.type (← callHelper (.atomicRmw op w) [addr, arg2])) (.rmw op w) memArg := by
  refine one ?_ fun _ _ _ _ _ _ _ hy hx => call rfl (isInt_ne w.type_isInt) (rmwOp_def h w) hx (by simpa using hy)
  unfold rmwOp at h
  split at h <;> cases h <;> rfl

end Performs

end Handlers

/-- A handler performs the operation that its immediates give. -/
def Handles (m : Handler Unit) (read : Pull (MemoryOp × WasmMemArg)) : Prop :=
  ∀ s t, m s = some ((), t) → ∃ op memArg e, read s.code = some ((op, memArg), t.code) ∧
    e s.toEmitState = some ((), t.toEmitState) ∧ Performs e op memArg

theorem loadParams_le {opcode : ℕ} {p : ValueType × MemSize × Extend} (h : loadParams opcode = some p) : opcode ≤ 0x35 := by
  unfold loadParams at h
  split at h <;> cases h <;> decide

theorem storeParams_fits {opcode : ℕ} {type : ValueType} {size : MemSize} (h : storeParams opcode = some (type, size)) :
    ¬opcode ≤ 0x35 ∧ 8 * size.bytes ≤ type.width := by
  unfold storeParams at h
  split at h <;> cases h <;> decide

/-- An accepted load. -/
theorem jitWasmLoad_eq_some {s t : JitState} (h : jitWasmLoad s = some ((), t)) : ∃ memArg type size extend,
    jitPullMemarg s.code = some (memArg, t.code) ∧ loadParams s.code.prev.toNat = some (type, size, extend) ∧
      loadAt memArg type size extend s.toEmitState = some ((), t.toEmitState) := by
  simp only [jitWasmLoad, pull_bind_eq_some, bufferPrev, read_eq_some, emit_eq_some, lift_bind_eq_some] at h
  obtain ⟨_, _, hprev, memArg, code, hmem, _, e, ⟨⟨type, size, extend⟩, hp, he⟩, ht⟩ := h
  obtain ⟨rfl, rfl⟩ := Prod.mk.inj hprev
  obtain ⟨-, rfl⟩ := Prod.mk.inj ht
  exact ⟨memArg, type, size, extend, hmem, hp, he⟩

/-- An accepted store. -/
theorem jitWasmStore_eq_some {s t : JitState} (h : jitWasmStore s = some ((), t)) : ∃ memArg type size,
    jitPullMemarg s.code = some (memArg, t.code) ∧ storeParams s.code.prev.toNat = some (type, size) ∧
      storeAt memArg type size s.toEmitState = some ((), t.toEmitState) := by
  simp only [jitWasmStore, pull_bind_eq_some, bufferPrev, read_eq_some, emit_eq_some, lift_bind_eq_some] at h
  obtain ⟨_, _, hprev, memArg, code, hmem, _, e, ⟨⟨type, size⟩, hp, he⟩, ht⟩ := h
  obtain ⟨rfl, rfl⟩ := Prod.mk.inj hprev
  obtain ⟨-, rfl⟩ := Prod.mk.inj ht
  exact ⟨memArg, type, size, hmem, hp, he⟩

theorem jitWasmLoad_handles {opcode : ℕ} (hop : opcode ≠ 0xFE) : Handles jitWasmLoad (pullMemoryOp opcode) := by
  intro s t h
  obtain ⟨memArg, type, size, extend, hmem, hp, he⟩ := jitWasmLoad_eq_some h
  refine ⟨_, memArg, _, ?_, he, .load (loadParams_fits hp)⟩
  rw [pullMemoryOp, if_neg hop, bufferPrev, read_bind, bind_eq_some]
  refine ⟨memArg, t.code, hmem, ?_⟩
  rw [if_pos (loadParams_le hp), hp]
  rfl

theorem jitWasmStore_handles {opcode : ℕ} (hop : opcode ≠ 0xFE) : Handles jitWasmStore (pullMemoryOp opcode) := by
  intro s t h
  obtain ⟨memArg, type, size, hmem, hp, he⟩ := jitWasmStore_eq_some h
  refine ⟨_, memArg, _, ?_, he, .store (storeParams_fits hp).2⟩
  rw [pullMemoryOp, if_neg hop, bufferPrev, read_bind, bind_eq_some]
  refine ⟨memArg, t.code, hmem, ?_⟩
  rw [if_neg (storeParams_fits hp).1, hp]
  rfl

theorem pullAtomic_eq_some {sub : ℕ} {code code' : Buffer} {memArg : WasmMemArg} {op : MemoryOp}
    (hmem : jitPullMemarg code = some (memArg, code')) (hop : atomicOp sub code.prev.toNat = some op) :
    pullAtomic sub code = some ((op, memArg), code') := by
  rw [pullAtomic, bufferPrev, read_bind, bind_eq_some]
  refine ⟨memArg, code', hmem, ?_⟩
  rw [hop]
  rfl

theorem jitWasmAtomicNotify_handles : Handles jitWasmAtomicNotify (pullAtomic 0x00) := by
  intro s t h
  simp only [jitWasmAtomicNotify, pull_bind_eq_some, emit_eq_some] at h
  obtain ⟨memArg, code, hmem, _, e, he, ht⟩ := h
  obtain ⟨-, rfl⟩ := Prod.mk.inj ht
  exact ⟨_, memArg, _, pullAtomic_eq_some hmem rfl, he, .notify⟩

variable {sub : ℕ}

theorem waitParams_eq {n : ℕ} {type : ValueType} {kind : HelperKind} (h : waitParams n = some (type, kind)) :
    ∃ is64, type = intType is64 ∧ kind = waitKind is64 := by
  unfold waitParams at h
  split at h <;> cases h
  · exact ⟨false, rfl, rfl⟩
  · exact ⟨true, rfl, rfl⟩

theorem jitWasmAtomicWait_handles (hsub : 0x01 ≤ sub ∧ sub ≤ 0x02) : Handles jitWasmAtomicWait (pullAtomic sub) := by
  intro s t h
  simp only [jitWasmAtomicWait, pull_bind_eq_some, bufferPrev, read_eq_some, emit_eq_some, lift_bind_eq_some] at h
  obtain ⟨_, _, hprev, memArg, code, hmem, _, e, ⟨⟨type, kind⟩, hp, he⟩, ht⟩ := h
  obtain ⟨rfl, rfl⟩ := Prod.mk.inj hprev
  obtain ⟨-, rfl⟩ := Prod.mk.inj ht
  have h0 : sub ≠ 0 := by omega
  obtain ⟨is64, rfl, rfl⟩ := waitParams_eq hp
  refine ⟨_, memArg, _, pullAtomic_eq_some hmem ?_, he, .wait is64⟩
  simp only [atomicOp, if_neg h0, if_pos hsub, hp, Option.map_some]
  cases is64 <;> rfl

/-- The handlers of the other atomic instructions take the width from the sub-opcode. -/
theorem jitWasmAtomicLoad_handles (hsub : 0x10 ≤ sub ∧ sub ≤ 0x16) : Handles jitWasmAtomicLoad (pullAtomic sub) := by
  intro s t h
  simp only [jitWasmAtomicLoad, pull_bind_eq_some, bufferPrev, read_eq_some, emit_eq_some, check_bind_eq_some, lift_bind_eq_some] at h
  obtain ⟨_, _, hprev, memArg, code, hmem, _, e, ⟨hle, w, hw, he⟩, ht⟩ := h
  obtain ⟨rfl, rfl⟩ := Prod.mk.inj hprev
  obtain ⟨-, rfl⟩ := Prod.mk.inj ht
  refine ⟨_, memArg, _, pullAtomic_eq_some hmem ?_, he, .atomicLoad w⟩
  have h0 : sub ≠ 0 := by omega
  have h1 : ¬(0x01 ≤ sub ∧ sub ≤ 0x02) := by omega
  simp only [atomicOp, if_neg h0, if_neg h1, if_pos hsub, if_pos hle, hw, Option.map_some]

theorem jitWasmAtomicStore_handles (hsub : 0x17 ≤ sub ∧ sub ≤ 0x1D) : Handles jitWasmAtomicStore (pullAtomic sub) := by
  intro s t h
  simp only [jitWasmAtomicStore, pull_bind_eq_some, bufferPrev, read_eq_some, emit_eq_some, check_bind_eq_some, lift_bind_eq_some] at h
  obtain ⟨_, _, hprev, memArg, code, hmem, _, e, ⟨hle, w, hw, he⟩, ht⟩ := h
  obtain ⟨rfl, rfl⟩ := Prod.mk.inj hprev
  obtain ⟨-, rfl⟩ := Prod.mk.inj ht
  refine ⟨_, memArg, _, pullAtomic_eq_some hmem ?_, he, .atomicStore w⟩
  have h0 : sub ≠ 0 := by omega
  have h1 : ¬(0x01 ≤ sub ∧ sub ≤ 0x02) := by omega
  have h2 : ¬(0x10 ≤ sub ∧ sub ≤ 0x16) := by omega
  simp only [atomicOp, if_neg h0, if_neg h1, if_neg h2, if_pos hsub, if_pos hle, hw, Option.map_some]

theorem jitWasmAtomicRmwBinop_handles (hsub : 0x1E ≤ sub ∧ sub ≤ 0x47) : Handles jitWasmAtomicRmwBinop (pullAtomic sub) := by
  intro s t h
  simp only [jitWasmAtomicRmwBinop, pull_bind_eq_some, bufferPrev, read_eq_some, emit_eq_some, check_bind_eq_some,
    lift_bind_eq_some] at h
  obtain ⟨_, _, hprev, memArg, code, hmem, _, e, ⟨hle, op, hrmw, w, hw, he⟩, ht⟩ := h
  obtain ⟨rfl, rfl⟩ := Prod.mk.inj hprev
  obtain ⟨-, rfl⟩ := Prod.mk.inj ht
  refine ⟨_, memArg, _, pullAtomic_eq_some hmem ?_, he, .rmw hrmw w⟩
  have h0 : sub ≠ 0 := by omega
  have h1 : ¬(0x01 ≤ sub ∧ sub ≤ 0x02) := by omega
  have h2 : ¬(0x10 ≤ sub ∧ sub ≤ 0x16) := by omega
  have h3 : ¬(0x17 ≤ sub ∧ sub ≤ 0x1D) := by omega
  simp only [atomicOp, if_neg h0, if_neg h1, if_neg h2, if_neg h3, if_pos hsub, if_pos hle, hrmw, hw, Option.map_some,
    Option.bind_some]

theorem jitWasmAtomicRmwCmpexchg_handles (hsub : 0x48 ≤ sub ∧ sub ≤ 0x4E) : Handles jitWasmAtomicRmwCmpexchg (pullAtomic sub) := by
  intro s t h
  simp only [jitWasmAtomicRmwCmpexchg, pull_bind_eq_some, bufferPrev, read_eq_some, emit_eq_some, check_bind_eq_some,
    lift_bind_eq_some] at h
  obtain ⟨_, _, hprev, memArg, code, hmem, _, e, ⟨hle, w, hw, he⟩, ht⟩ := h
  obtain ⟨rfl, rfl⟩ := Prod.mk.inj hprev
  obtain ⟨-, rfl⟩ := Prod.mk.inj ht
  refine ⟨_, memArg, _, pullAtomic_eq_some hmem ?_, he, .cmpxchg w⟩
  have h0 : sub ≠ 0 := by omega
  have h1 : ¬(0x01 ≤ sub ∧ sub ≤ 0x02) := by omega
  have h2 : ¬(0x10 ≤ sub ∧ sub ≤ 0x16) := by omega
  have h3 : ¬(0x17 ≤ sub ∧ sub ≤ 0x1D) := by omega
  have h4 : ¬(0x1E ≤ sub ∧ sub ≤ 0x47) := by omega
  simp only [atomicOp, if_neg h0, if_neg h1, if_neg h2, if_neg h3, if_neg h4, if_pos hsub, if_pos hle, hw, Option.map_some]

theorem Handles.ite {p : Prop} [Decidable p] {m m' : Handler Unit} {read : Pull (MemoryOp × WasmMemArg)} (h : p → Handles m read)
    (h' : ¬p → Handles m' read) : Handles (if p then m else m') read := by
  split_ifs with hp
  · exact h hp
  · exact h' hp

theorem Handles.fail {read : Pull (MemoryOp × WasmMemArg)} : Handles Checked.fail read := fun s t h => by simp at h

theorem Handles.pull {α : Type} {m : Pull α} {f : α → Handler Unit} {read : α → Pull (MemoryOp × WasmMemArg)}
    (hf : ∀ a, Handles (f a) (read a)) : Handles (Jit.pull m >>= f) (m >>= read) := by
  intro s t h
  obtain ⟨a, code, hm, h⟩ := (pull_bind_eq_some _ _ _ _).mp h
  obtain ⟨op, memArg, e, hread, he⟩ := hf a _ t h
  exact ⟨op, memArg, e, (bind_eq_some _ _ _ _).mpr ⟨a, code, hm, hread⟩, he⟩

theorem jitWasmAtomicPrefix_handles : Handles jitWasmAtomicPrefix (pullMemoryOp 0xFE) := by
  rw [pullMemoryOp, if_pos rfl]
  refine .pull fun sub => .ite (fun h0 => by rw [h0]; exact jitWasmAtomicNotify_handles) fun _ => ?_
  refine .ite jitWasmAtomicWait_handles fun _ => .ite jitWasmAtomicLoad_handles fun _ => .ite jitWasmAtomicStore_handles fun _ => ?_
  exact .ite jitWasmAtomicRmwBinop_handles fun _ => .ite jitWasmAtomicRmwCmpexchg_handles fun _ => .fail

theorem jitLiveOpcode_load {opcode : ℕ} (h : 0x28 ≤ opcode ∧ opcode ≤ 0x35) : jitLiveOpcode opcode = jitWasmLoad := by
  have handler : dataHandler opcode = some jitWasmLoad := by
    unfold dataHandler
    iterate 10 rw [if_neg (by omega)]
    exact if_pos h
  unfold jitLiveOpcode
  split <;> first | omega | rw [handler, Option.getD_some]

theorem jitLiveOpcode_store {opcode : ℕ} (h : 0x36 ≤ opcode ∧ opcode ≤ 0x3E) : jitLiveOpcode opcode = jitWasmStore := by
  have handler : dataHandler opcode = some jitWasmStore := by
    unfold dataHandler
    iterate 11 rw [if_neg (by omega)]
    exact if_pos h
  unfold jitLiveOpcode
  split <;> first | omega | rw [handler, Option.getD_some]

/-- The handler of a memory opcode. -/
theorem jitLiveOpcode_handles {opcode : ℕ} (hop : isMemoryOpcode opcode) : Handles (jitLiveOpcode opcode) (pullMemoryOp opcode) := by
  rcases hop with ⟨hlo, hhi⟩ | rfl
  · by_cases hload : opcode ≤ 0x35
    · rw [jitLiveOpcode_load ⟨hlo, hload⟩]
      exact jitWasmLoad_handles (by omega)
    · rw [jitLiveOpcode_store ⟨by omega, hhi⟩]
      exact jitWasmStore_handles (by omega)
  · exact jitWasmAtomicPrefix_handles

/-- An accepted instruction in a live label. -/
theorem jitWasmOpcode_live {s t : JitState} (hlive : s.live = true) (h : jitWasmOpcode s = some ((), t)) :
    ∃ opcode code, bufferPullU8 s.code = some (opcode, code) ∧ jitLiveOpcode opcode.toNat { s with code } = some ((), t) := by
  simp only [jitWasmOpcode, pull_bind_eq_some, emit_bind_eq_some, labelAt_eq_some] at h
  obtain ⟨opcode, code, hpull, l, _, ⟨l', hl, he⟩, h⟩ := h
  obtain ⟨rfl, rfl⟩ := Prod.mk.inj he
  obtain ⟨l', ls, hls, hterm⟩ := live_labels hlive
  obtain rfl : l' = l := by simpa [hls] using hl
  rw [hterm, if_neg Bool.false_ne_true] at h
  exact ⟨opcode, code, hpull, h⟩

/-- An accepted instruction that starts with a memory opcode in a live label. -/
theorem jitWasmOpcode_handles {s t : JitState} {opcode : UInt8} (hlive : s.live = true) (hopcode : s.code.data.head? = some opcode)
    (hop : isMemoryOpcode opcode.toNat) (h : jitWasmOpcode s = some ((), t)) :
    ∃ op memArg e, pullMemoryInstr s.code = some ((op, memArg), t.code) ∧ e s.toEmitState = some ((), t.toEmitState) ∧
      Performs e op memArg := by
  obtain ⟨opcode', code, hpull, h⟩ := jitWasmOpcode_live hlive h
  obtain ⟨hdata, -⟩ := (bufferPullU8_eq_some _ _).mp hpull
  obtain rfl : opcode' = opcode := by simpa [hdata] using hopcode
  obtain ⟨op, memArg, e, hread, he, hperf⟩ := jitLiveOpcode_handles hop _ t h
  refine ⟨op, memArg, e, ?_, he, hperf⟩
  rw [pullMemoryInstr, bind_eq_some]
  exact ⟨_, code, hpull, hread⟩

end SpidirWasm.Jit
