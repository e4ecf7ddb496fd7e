import SpidirWasm.Jit.Isolation

/-! `memory.copy`, `memory.fill` and `memory.init`. The helpers write byte by byte until one
faults, and check a length only against the segment. -/

namespace SpidirWasm.Jit

open Checked
open Spidir
open SpidirWasm.Host (Runtime memoryReserveSize)

/-- A bulk operation; `init` has the slot of its segment in the state and the length of
the segment in the module. -/
inductive BulkOp where
  | copy
  | fill
  | init (offset len : ℕ)
  deriving DecidableEq, Repr

/-- The slot of a passive segment and its length. -/
def segmentOp (c : JitContext) (dataidx : ℕ) : Option BulkOp := do
  let data ← c.data[dataidx]?
  let offset ← data.offset
  let segment ← c.module.data[dataidx]?
  return .init offset segment.data.length

/-- The opcode of the prefix of the bulk operations. -/
def bulkPrefix : UInt8 := 0xFC

/-- The bulk operation at the cursor. -/
def pullBulkOp (c : JitContext) : Pull BulkOp := do
  let opcode ← bufferPullU8
  check (opcode = bulkPrefix)
  let sub ← bufferPullU32
  if sub = 8 then
    let dataidx ← bufferPullU32
    pullMemidx
    lift (segmentOp c dataidx)
  else if sub = 10 then
    pullMemidx
    pullMemidx
    return .copy
  else
    check (sub = 11)
    pullMemidx
    return .fill

/-- What the code of a bulk operation does: `n` is the operand on top of the stack, `dst`
the third one, and `src` the one between. -/
def BulkOp.perform (H : Platform) (base state : Word) (op : BulkOp) (n src dst : Word) (s : Store) : Outcome Store Store :=
  let address := base + Word.zext32 dst
  let arg (x : Word) := Word.fill 32 x 0
  match op with
  | copy => (H.jitHelperMemoryCopy address (base + Word.zext32 src) (arg n) s).bind fun p => .done p.2
  | fill => (H.jitHelperMemoryFill address (arg src) (arg n) s).bind fun p => .done p.2
  | init offset len => (s.load (state + BitVec.ofNat 64 offset).toNat 8).bind fun (bytes, s) =>
    (H.jitHelperMemoryInit address (Word.ofBytes bytes) (arg (BitVec.ofNat 64 len)) (arg src) (arg n) s).bind fun p => .done p.2

/-- A program that performs a bulk operation on its three operands. -/
def BulkOp.Performs (e : Emit Unit) (op : BulkOp) : Prop :=
  ∀ H W w n src dst rest, w.stack = (.i32, n) :: (.i32, src) :: (.i32, dst) :: rest →
    Runs (Platform.helper H) W w e fun _ o =>
      o = (op.perform H (W.param 0) (W.param 1) n src dst w.shared).bind fun s => .done { stack := rest, shared := s }

namespace BulkOp.Performs

variable {H : Platform} {W : World} {view : View} {k : HelperKind} {types : List ValueType} {args : List Value}

/-- The call of the helper at the end. -/
theorem call (operands : List (ValueType × Word)) (hk : helperDef k = some (.none, types))
    (hargs : List.Forall₂ (fun v (p : ValueType × Word) => ⟨v, p.1, p.1.width, p.2⟩ ∈ view.facts) args operands) :
    Runs H.helper W view (do let _ ← callHelper k args) fun _ o =>
      o = (H.helper k (operands.map MemoryOp.arg) view.shared).bind fun p => .done { stack := view.stack, shared := p.2 } := by
  refine Runs.outcome (Runs.callEffect hk hargs) fun v p => ?_
  exact Runs.leave (Runs.pure rfl)

theorem copy : Performs (do
    let n ← jitPop .i32
    let src ← jitPop .i32
    let dst ← jitPop .i32
    let memBase ← build (.param 0)
    let dst ← memoryPtr memBase dst
    let src ← memoryPtr memBase src
    let _ ← callHelper .memoryCopy [dst, src, n]) .copy := by
  intro H W w n src dst rest hstack
  apply Runs.bind (Runs.pop hstack)
  intro n'
  apply Runs.bind (Runs.pop rfl)
  intro src'
  apply Runs.bind (Runs.pop rfl)
  intro dst'
  apply Runs.bind (Runs.param (by decide))
  intro base
  apply Runs.bind (Runs.memory (x := W.param 0) (y := dst) (by simp) (by simp))
  intro dstPtr
  apply Runs.bind (Runs.memory (x := W.param 0) (y := src) (by simp) (by simp))
  intro srcPtr
  refine Runs.weaken (call (k := .memoryCopy) [(.ptr, W.param 0 + dst.zext32), (.ptr, W.param 0 + src.zext32), (.i32, n)] rfl
    (.cons (by simp) (.cons (by simp) (.cons (by simp) .nil)))) fun _ o ho => ho.trans ?_
  simp [perform, Platform.helper, MemoryOp.arg, Outcome.bind_assoc]

theorem fill : Performs (do
    let n ← jitPop .i32
    let val ← jitPop .i32
    let dst ← jitPop .i32
    let memBase ← build (.param 0)
    let dst ← memoryPtr memBase dst
    let _ ← callHelper .memoryFill [dst, val, n]) .fill := by
  intro H W w n val dst rest hstack
  apply Runs.bind (Runs.pop hstack)
  intro n'
  apply Runs.bind (Runs.pop rfl)
  intro val'
  apply Runs.bind (Runs.pop rfl)
  intro dst'
  apply Runs.bind (Runs.param (by decide))
  intro base
  apply Runs.bind (Runs.memory (x := W.param 0) (y := dst) (by simp) (by simp))
  intro dstPtr
  refine Runs.weaken (call (k := .memoryFill) [(.ptr, W.param 0 + dst.zext32), (.i32, val), (.i32, n)] rfl
    (.cons (by simp) (.cons (by simp) (.cons (by simp) .nil)))) fun _ o ho => ho.trans ?_
  simp [perform, Platform.helper, MemoryOp.arg, Outcome.bind_assoc]

/-- The code of `memory.init` for a segment with a slot at `offset`. -/
theorem init (offset len : ℕ) : Performs (do
    let n ← jitPop .i32
    let srcOffset ← jitPop .i32
    let dst ← jitPop .i32
    let slot ← stateSlot offset
    let dataPtr ← build (.load .size8 .ptr slot)
    let memBase ← build (.param 0)
    let dataLen ← build (.iconst .i32 (BitVec.ofNat 64 len))
    let dst ← memoryPtr memBase dst
    let _ ← callHelper .memoryInit [dst, dataPtr, dataLen, srcOffset, n]) (.init offset len) := by
  intro H W w n src dst rest hstack
  apply Runs.bind (Runs.pop hstack)
  intro n'
  apply Runs.bind (Runs.pop rfl)
  intro src'
  apply Runs.bind (Runs.pop rfl)
  intro dst'
  apply Runs.bind (Runs.slot offset)
  intro slot
  rw [perform, Outcome.bind_assoc]
  refine Runs.outcome (Runs.load (x := W.param 1 + BitVec.ofNat 64 offset) (by simp) (Nat.le_refl _)) fun ptr p => ?_
  apply Runs.bind (Runs.param (by decide))
  intro base
  apply Runs.bind (Runs.iconst (BitVec.ofNat 64 len))
  intro dataLen
  apply Runs.bind (Runs.memory (x := W.param 0) (y := dst) (by simp) (by simp))
  intro dstPtr
  refine Runs.weaken (call (k := .memoryInit) [(.ptr, W.param 0 + dst.zext32), (.ptr, Word.ofBytes p.1),
    (.i32, BitVec.ofNat 64 len), (.i32, src), (.i32, n)] rfl (.cons (by simp) (.cons (by simp [MemSize.bytes])
    (.cons (by simp) (.cons (by simp) (.cons (by simp) .nil)))))) fun _ o ho => ho.trans ?_
  simp [Platform.helper, MemoryOp.arg, Outcome.bind_assoc]

end BulkOp.Performs

/-- The checks of `jit_wasm_memory_init` come to the lookup of its segment. -/
theorem memoryInit_segment {dataidx : ℕ} {s t : EmitState} (h : (do
      let offset ← dataOffset dataidx
      let n ← jitPop .i32
      let srcOffset ← jitPop .i32
      let dst ← jitPop .i32
      let slot ← stateSlot offset
      let dataPtr ← build (.load .size8 .ptr slot)
      let segment ← lift (← read (·.ctx.module.data))[dataidx]?
      let memBase ← build (.param 0)
      let dataLen ← build (.iconst .i32 (BitVec.ofNat 64 segment.data.length))
      let dst ← memoryPtr memBase dst
      let _ ← callHelper .memoryInit [dst, dataPtr, dataLen, srcOffset, n] : Emit Unit) s = some ((), t)) :
    ∃ op e, segmentOp s.ctx dataidx = some op ∧ e s = some ((), t) ∧ op.Performs e := by
  simp only [dataOffset, stateSlot, bind_assoc, read_bind, check_bind_eq_some, lift_bind_eq_some, jitPop_bind_eq_some, build_bind,
    EmitState.withLabels_ctx, EmitState.withBuilder_ctx] at h
  obtain ⟨-, data, hdata, offset, hoffset, n, l, ls, rest, hl, hn, v, l', ls', rest', hl', hv, v'', l'', ls'', rest'', hl'', hv'', segment,
    hsegment, h⟩ := h
  refine ⟨_, _, ?_, ?_, .init offset segment.data.length⟩
  · simp [segmentOp, hdata, hoffset, hsegment]
  · simp only [stateSlot, bind_assoc, jitPop_bind_eq_some, build_bind]
    exact ⟨n, l, ls, rest, hl, hn, v, l', ls', rest', hl', hv, v'', l'', ls'', rest'', hl'', hv'', h⟩

/-- An accepted bulk instruction in a live label. -/
theorem jitWasmOpcode_bulk {s t : JitState} {code code' : Buffer} {sub : ℕ} (hlive : s.live = true)
    (hopcode : bufferPullU8 s.code = some (bulkPrefix, code)) (hsub : bufferPullU32 code = some (sub, code'))
    (hbulk : sub = 8 ∨ sub = 10 ∨ sub = 11) (h : jitWasmOpcode s = some ((), t)) :
    ∃ op e, pullBulkOp s.ctx s.code = some (op, t.code) ∧ e s.toEmitState = some ((), t.toEmitState) ∧ op.Performs e := by
  obtain ⟨_, _, hpull, h⟩ := jitWasmOpcode_live hlive h
  obtain ⟨rfl, rfl⟩ := Prod.mk.inj (Option.some.inj (hopcode.symm.trans hpull))
  have handler : jitLiveOpcode bulkPrefix.toNat = jitWasmFcPrefix := rfl
  rw [handler, jitWasmFcPrefix, pull_bind_eq_some] at h
  obtain ⟨_, _, hpull', h⟩ := h
  obtain ⟨rfl, rfl⟩ := Prod.mk.inj (Option.some.inj (hsub.symm.trans hpull'))
  have front : ∀ {f : ℕ → Pull BulkOp} {r : BulkOp × Buffer}, f sub code' = some r → (do
      let opcode ← bufferPullU8
      check (opcode = bulkPrefix)
      let sub ← bufferPullU32
      f sub) s.code = some r := by
    intro f r hf
    exact (bind_eq_some _ _ _ _).mpr ⟨_, code, hopcode, (check_bind_eq_some _ _ _ _).mpr ⟨rfl,
      (bind_eq_some _ _ _ _).mpr ⟨_, code', hsub, hf⟩⟩⟩
  rcases hbulk with rfl | rfl | rfl
  · simp only [jitWasmMemoryInit, pull_bind_eq_some, emit_eq_some, show ¬(8 ≤ 7) by decide, if_false, if_true] at h
    obtain ⟨dataidx, b, hidx, _, b', hmem, _, e', he, ht⟩ := h
    obtain ⟨-, rfl⟩ := Prod.mk.inj ht
    obtain ⟨op, e, hseg, he, hperf⟩ := memoryInit_segment he
    refine ⟨op, e, front ?_, he, hperf⟩
    rw [if_pos rfl]
    exact (bind_eq_some _ _ _ _).mpr ⟨_, b, hidx, (bind_eq_some _ _ _ _).mpr ⟨_, b', hmem, (lift_eq_some _ _ _).mpr ⟨op, hseg, rfl⟩⟩⟩
  · simp only [jitWasmMemoryCopy, pull_bind_eq_some, emit_eq_some, show ¬(10 ≤ 7) by decide, show ¬(10 = 8) by decide,
      show ¬(10 = 9) by decide, if_false, if_true] at h
    obtain ⟨_, b, hmem, _, e', he, ht⟩ := h
    obtain ⟨-, rfl⟩ := Prod.mk.inj ht
    obtain ⟨_, b', hmem, hmem'⟩ := (bind_eq_some _ _ _ _).mp hmem
    refine ⟨.copy, _, front ?_, he, .copy⟩
    rw [if_neg (by decide), if_pos rfl]
    exact (bind_eq_some _ _ _ _).mpr ⟨_, b', hmem, (bind_eq_some _ _ _ _).mpr ⟨_, b, hmem', rfl⟩⟩
  · simp only [jitWasmMemoryFill, pull_bind_eq_some, emit_eq_some, show ¬(11 ≤ 7) by decide, show ¬(11 = 8) by decide,
      show ¬(11 = 9) by decide, show ¬(11 = 10) by decide, if_false, if_true] at h
    obtain ⟨_, b, hmem, _, e', he, ht⟩ := h
    obtain ⟨-, rfl⟩ := Prod.mk.inj ht
    refine ⟨.fill, _, front ?_, he, .fill⟩
    rw [if_neg (by decide), if_neg (by decide)]
    exact (check_bind_eq_some _ _ _ _).mpr ⟨rfl, (bind_eq_some _ _ _ _).mpr ⟨_, b, hmem, rfl⟩⟩

end SpidirWasm.Jit
