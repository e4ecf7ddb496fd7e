import SpidirWasm.Jit.Bulk
import SpidirWasm.Jit.InstanceState

/-! The instructions that use the state of an instance: `global.get`, `global.set`,
`memory.init` and `data.drop`. What their code does is told by the slots of the state. -/

namespace SpidirWasm.Jit

open Checked
open Spidir

/-- An instruction on the state, by the index of its global or segment. -/
inductive StateOp where
  | get (index : ℕ)
  | set (index : ℕ)
  | init (dataidx : ℕ)
  | drop (dataidx : ℕ)
  deriving DecidableEq, Repr

/-- The instruction at the cursor. -/
def pullStateOp : Pull StateOp := do
  let opcode ← bufferPullU8
  if opcode = 0x23 then return .get (← bufferPullU32)
  else if opcode = 0x24 then return .set (← bufferPullU32)
  else
    check (opcode = bulkPrefix)
    let sub ← bufferPullU32
    let dataidx ← bufferPullU32
    if sub = 8 then
      pullMemidx
      return .init dataidx
    else
      check (sub = 9)
      return .drop dataidx

/-- The types of the operands, the topmost first. -/
def StateOp.takes (c : JitContext) : StateOp → List ValueType
  | get _ | drop _ => []
  | set index => (c.globals[index]?.map JitGlobal.type).toList
  | init _ => [.i32, .i32, .i32]

/-- How an instruction ends, from its operands and what is below them. -/
def StateOp.Yields (H : Platform) (c : JitContext) (base state : Word) (operands rest : List (ValueType × Word)) (s : Store)
    (o : Outcome Store View) : StateOp → Prop
  | get index => ∃ global g, c.module.globals[index]? = some global ∧ c.globals[index]? = some g ∧
    match g.slot with
    | none => o = .done { stack := (g.type, BitVec.ofNat 64 global.value.bits) :: rest, shared := s }
    | some (offset, size) => 8 * size = g.type.width ∧
      o = (s.load (state + BitVec.ofNat 64 offset).toNat size).bind fun p =>
        .done { stack := (g.type, Word.ofBytes p.1) :: rest, shared := p.2 }
  | set index => ∃ g offset size x, c.globals[index]? = some g ∧ g.slot = some (offset, size) ∧ operands = [(g.type, x)] ∧
    o = (s.store (state + BitVec.ofNat 64 offset).toNat (x.toBytes size)).bind fun u => .done { stack := rest, shared := u }
  | init dataidx => ∃ j offset segment n src dst, c.data[dataidx]? = some j ∧ j.slot = some (offset, pointerSize) ∧
    c.module.data[dataidx]? = some segment ∧ operands = [(.i32, n), (.i32, src), (.i32, dst)] ∧
    o = ((BulkOp.init offset segment.data.length).perform H base state n src dst s).bind fun u =>
      .done { stack := rest, shared := u }
  | drop dataidx => ∃ j offset, c.data[dataidx]? = some j ∧ j.slot = some (offset, pointerSize) ∧
    o = (s.store (state + BitVec.ofNat 64 offset).toNat (Word.toBytes pointerSize 0)).bind fun u =>
      .done { stack := rest, shared := u }

section Handlers

variable {H : Platform} {W : World} {w : View} {c : JitContext} {index : ℕ} {s t : EmitState} {type : ValueType}

theorem View.learned (w : View) (f : Fact) : f ∈ (w.learn f).facts := Set.mem_insert _ _

/-- A constant stands for an immutable global. -/
theorem Runs.const {i : Inst} {bits : ℕ} (h : globalConst type bits = some i) :
    Runs H.helper W w (build i) fun v o => o = .done (w.learn ⟨v, type, type.width, BitVec.ofNat 64 bits⟩) := by
  have low : ((BitVec.ofNat 32 bits).setWidth 64).setWidth 32 = (BitVec.ofNat 64 bits).setWidth 32 := by
    rw [BitVec.setWidth_setWidth_of_le _ (by decide), BitVec.setWidth_eq]
    apply BitVec.eq_of_toNat_eq
    simp
  cases type <;> cases h
  · exact Runs.iconst _
  · exact Runs.iconst _
  · exact Runs.compute rfl rfl (Nat.le_refl _) fun _ _ _ _ _ => ⟨rfl, _, rfl, low⟩
  · exact Runs.compute rfl rfl (Nat.le_refl _) fun _ _ _ _ _ => ⟨rfl, _, rfl, rfl⟩

/-- The sizes of a type agree. -/
theorem jitGetSpidirSize_of_mem {size : MemSize} (h : jitGetSpidirMemSize type = some size) :
    jitGetSpidirSize type = some size.bytes ∧ 8 * size.bytes = type.width := by
  cases type <;> cases h <;> exact ⟨rfl, rfl⟩

theorem readGlobal_runs (g : JitGlobal) (bits : ℕ) :
    Runs H.helper W w (do let value ← readGlobal g bits; jitPush g.type value) fun _ o =>
      match g.slot with
      | none => o = .done { stack := (g.type, BitVec.ofNat 64 bits) :: w.stack, shared := w.shared }
      | some (offset, size) => 8 * size = g.type.width ∧
        o = (w.shared.load (W.param 1 + BitVec.ofNat 64 offset).toNat size).bind fun p =>
          .done { stack := (g.type, Word.ofBytes p.1) :: w.stack, shared := p.2 } := by
  rcases hoffset : g.offset with _ | offset
  · simp only [readGlobal, hoffset, JitGlobal.slot, Option.bind_none, bind_assoc]
    apply Runs.given
    intro i hi
    apply Runs.bind (Runs.const hi)
    intro v
    exact Runs.leave (Runs.push (by simp))
  · simp only [readGlobal, hoffset, JitGlobal.slot, Option.bind_some, bind_assoc]
    apply Runs.bind (Runs.slot offset)
    intro ptr
    apply Runs.given
    intro size hsize
    obtain ⟨hbytes, hwidth⟩ := jitGetSpidirSize_of_mem hsize
    simp only [hbytes, Option.map_some, hwidth, true_and]
    refine Runs.outcome (Runs.load (x := W.param 1 + BitVec.ofNat 64 offset) (by simp) hwidth.le) fun v p => ?_
    exact Runs.leave (Runs.push (by simp [hwidth]))

theorem writeGlobal_runs {g : JitGlobal} {offset : ℕ} {x : Word} {rest : List (ValueType × Word)} (hoffset : g.offset = some offset)
    (hstack : w.stack = (g.type, x) :: rest) : Runs H.helper W w (do
      let globalsBase ← stateSlot offset
      let value ← jitPop g.type
      let _ ← build (.store (← lift (jitGetSpidirMemSize g.type)) value globalsBase)) fun _ o =>
      ∃ size, g.slot = some (offset, size) ∧
        o = (w.shared.store (W.param 1 + BitVec.ofNat 64 offset).toNat (x.toBytes size)).bind fun u =>
          .done { stack := rest, shared := u } := by
  apply Runs.bind (Runs.slot offset)
  intro ptr
  apply Runs.bind (Runs.pop (by simpa using hstack))
  intro value
  apply Runs.given
  intro size hsize
  obtain ⟨hbytes, hwidth⟩ := jitGetSpidirSize_of_mem hsize
  refine Runs.weaken (Q := fun _ o => o = _) ?_ fun _ o ho => ⟨size.bytes, by simp [JitGlobal.slot, hoffset, hbytes], ho⟩
  refine Runs.outcome (Runs.store (x := W.param 1 + BitVec.ofNat 64 offset) (by simp) (View.learned _ _)
    hwidth.le) fun _ p => ?_
  exact Runs.leave (Runs.pure rfl)

theorem dropData_runs {offset : ℕ} : Runs H.helper W w (do
      let slot ← stateSlot offset
      let null ← build (.iconst .ptr 0)
      let _ ← build (.store .size8 null slot)) fun _ o =>
    o = (w.shared.store (W.param 1 + BitVec.ofNat 64 offset).toNat (Word.toBytes pointerSize 0)).bind fun u =>
      .done { stack := w.stack, shared := u } := by
  apply Runs.bind (Runs.slot offset)
  intro ptr
  apply Runs.bind (Runs.iconst 0)
  intro null
  refine Runs.outcome (Runs.store (x := W.param 1 + BitVec.ofNat 64 offset) (by simp) (View.learned _ _)
    (Nat.le_refl _)) fun _ p => ?_
  exact Runs.leave (Runs.pure rfl)

end Handlers

/-- A program that performs an instruction, as a context lays out the state. -/
def StateOp.Performs (c : JitContext) (op : StateOp) (e : Emit Unit) : Prop :=
  ∀ H W w operands rest, operands.map Prod.fst = op.takes c → w.stack = operands ++ rest →
    Runs (Platform.helper H) W w e fun _ o => op.Yields H c (W.param 0) (W.param 1) operands rest w.shared o

section Instructions

variable {s t : EmitState} {index : ℕ}

theorem globalGet_performs (h : (do
      let ctx ← read EmitState.ctx
      let wasmGlobal ← lift ctx.module.globals[index]?
      let global ← lift ctx.globals[index]?
      let value ← readGlobal global wasmGlobal.value.bits
      jitPush global.type value : Emit Unit) s = some ((), t)) :
    ∃ e, e s = some ((), t) ∧ (StateOp.get index).Performs s.ctx e := by
  simp only [read_bind, lift_bind_eq_some] at h
  obtain ⟨global, hglobal, g, hg, h⟩ := h
  refine ⟨_, h, ?_⟩
  intro H W w operands rest htakes hstack
  obtain rfl : operands = [] := List.map_eq_nil_iff.mp htakes
  refine Runs.weaken (readGlobal_runs g global.value.bits) fun _ o ho => ⟨global, g, hglobal, hg, ?_⟩
  rw [hstack] at ho
  exact ho

theorem globalSet_performs (h : (do
      let ctx ← read EmitState.ctx
      check (index < ctx.module.globals.length)
      let global ← lift ctx.globals[index]?
      let offset ← lift global.offset
      let globalsBase ← stateSlot offset
      let value ← jitPop global.type
      let _ ← build (.store (← lift (jitGetSpidirMemSize global.type)) value globalsBase) : Emit Unit) s = some ((), t)) :
    ∃ e, e s = some ((), t) ∧ (StateOp.set index).Performs s.ctx e := by
  simp only [read_bind, check_bind_eq_some, lift_bind_eq_some] at h
  obtain ⟨-, g, hg, offset, hoffset, h⟩ := h
  refine ⟨_, h, ?_⟩
  intro H W w operands rest htakes hstack
  simp only [StateOp.takes, hg, Option.map_some, Option.toList_some] at htakes
  obtain ⟨⟨type, x⟩, rfl, rfl⟩ := List.map_eq_singleton_iff.mp htakes
  refine Runs.weaken (writeGlobal_runs hoffset hstack) fun _ o ho => ?_
  obtain ⟨size, hslot, ho⟩ := ho
  exact ⟨g, offset, size, x, hg, hslot, rfl, ho⟩

theorem dataDrop_performs (h : (do
      let offset ← dataOffset index
      let slot ← stateSlot offset
      let null ← build (.iconst .ptr 0)
      let _ ← build (.store .size8 null slot) : Emit Unit) s = some ((), t)) :
    ∃ e, e s = some ((), t) ∧ (StateOp.drop index).Performs s.ctx e := by
  simp only [dataOffset, bind_assoc, read_bind, check_bind_eq_some, lift_bind_eq_some] at h
  obtain ⟨-, j, hj, offset, hoffset, h⟩ := h
  refine ⟨_, h, ?_⟩
  intro H W w operands rest htakes hstack
  obtain rfl : operands = [] := List.map_eq_nil_iff.mp htakes
  refine Runs.weaken dropData_runs fun _ o ho => ⟨j, offset, hj, by simp [JitData.slot, hoffset], ?_⟩
  rw [hstack] at ho
  exact ho

theorem memoryInit_performs {op : BulkOp} {e : Emit Unit} (hop : segmentOp s.ctx index = some op) (h : op.Performs e) :
    (StateOp.init index).Performs s.ctx e := by
  simp only [segmentOp, Option.bind_eq_bind, Option.pure_def, Option.bind_eq_some_iff, Option.some.injEq] at hop
  obtain ⟨j, hj, offset, hoffset, segment, hsegment, rfl⟩ := hop
  intro H W w operands rest htakes hstack
  obtain ⟨⟨_, n⟩, _, rfl, rfl, htwo⟩ := List.map_eq_cons_iff.mp htakes
  obtain ⟨⟨_, src⟩, _, rfl, rfl, hone⟩ := List.map_eq_cons_iff.mp htwo
  obtain ⟨⟨_, dst⟩, rfl, rfl⟩ := List.map_eq_singleton_iff.mp hone
  refine Runs.weaken (h H W w n src dst rest hstack) fun _ o ho => ?_
  exact ⟨j, offset, segment, n, src, dst, hj, by simp [JitData.slot, hoffset], hsegment, rfl, ho⟩

end Instructions

/-- An accepted instruction on the state, in a live label. -/
theorem jitWasmOpcode_stateOp {s t : JitState} {op : StateOp} {code : Buffer} (hlive : s.live = true)
    (hpull : pullStateOp s.code = some (op, code)) (h : jitWasmOpcode s = some ((), t)) :
    code = t.code ∧ ∃ e, e s.toEmitState = some ((), t.toEmitState) ∧ op.Performs s.ctx e := by
  obtain ⟨opcode, rest, hopcode, h⟩ := jitWasmOpcode_live hlive h
  obtain ⟨opcode', rest', hopcode', hpull⟩ := (bind_eq_some _ _ _ _).mp hpull
  obtain ⟨rfl, rfl⟩ := Prod.mk.inj (Option.some.inj (hopcode.symm.trans hopcode'))
  split_ifs at hpull with hget hset
  · subst hget
    have handler : jitLiveOpcode (35 : UInt8).toNat = jitWasmGlobalGet := rfl
    rw [handler, jitWasmGlobalGet, pull_bind_eq_some] at h
    obtain ⟨index, _, hindex, h⟩ := h
    obtain ⟨_, _, hindex', hpull⟩ := (bind_eq_some _ _ _ _).mp hpull
    obtain ⟨rfl, rfl⟩ := Prod.mk.inj (Option.some.inj (hindex.symm.trans hindex'))
    obtain ⟨rfl, rfl⟩ := Prod.mk.inj ((pure_eq_some _ _ _).mp hpull)
    obtain ⟨_, t', he, ht⟩ := (emit_eq_some _ _ _).mp h
    obtain ⟨-, rfl⟩ := Prod.mk.inj ht
    exact ⟨rfl, globalGet_performs he⟩
  · subst hset
    have handler : jitLiveOpcode (36 : UInt8).toNat = jitWasmGlobalSet := rfl
    rw [handler, jitWasmGlobalSet, pull_bind_eq_some] at h
    obtain ⟨index, _, hindex, h⟩ := h
    obtain ⟨_, _, hindex', hpull⟩ := (bind_eq_some _ _ _ _).mp hpull
    obtain ⟨rfl, rfl⟩ := Prod.mk.inj (Option.some.inj (hindex.symm.trans hindex'))
    obtain ⟨rfl, rfl⟩ := Prod.mk.inj ((pure_eq_some _ _ _).mp hpull)
    obtain ⟨_, t', he, ht⟩ := (emit_eq_some _ _ _).mp h
    obtain ⟨-, rfl⟩ := Prod.mk.inj ht
    exact ⟨rfl, globalSet_performs he⟩
  · obtain ⟨rfl, hprefixed⟩ := (check_bind_eq_some _ _ _ _).mp hpull
    have handler : jitLiveOpcode bulkPrefix.toNat = jitWasmFcPrefix := rfl
    rw [handler, jitWasmFcPrefix, pull_bind_eq_some] at h
    obtain ⟨sub, _, hsub, h⟩ := h
    obtain ⟨_, _, hsub', hindexed⟩ := (bind_eq_some _ _ _ _).mp hprefixed
    obtain ⟨rfl, rfl⟩ := Prod.mk.inj (Option.some.inj (hsub.symm.trans hsub'))
    obtain ⟨dataidx, _, hidx, hrest⟩ := (bind_eq_some _ _ _ _).mp hindexed
    split_ifs at hrest with hinit
    · subst hinit
      simp only [jitWasmMemoryInit, pull_bind_eq_some, show ¬(8 ≤ 7) by decide, if_false, if_true] at h
      obtain ⟨_, _, hidx', _, _, hmem, h⟩ := h
      obtain ⟨rfl, rfl⟩ := Prod.mk.inj (Option.some.inj (hidx.symm.trans hidx'))
      obtain ⟨_, _, hmem', hop⟩ := (bind_eq_some _ _ _ _).mp hrest
      obtain ⟨-, rfl⟩ := Prod.mk.inj (Option.some.inj (hmem.symm.trans hmem'))
      obtain ⟨rfl, rfl⟩ := Prod.mk.inj ((pure_eq_some _ _ _).mp hop)
      obtain ⟨_, t', he, ht⟩ := (emit_eq_some _ _ _).mp h
      obtain ⟨-, rfl⟩ := Prod.mk.inj ht
      obtain ⟨bulk, e, hbulk, he, hperf⟩ := memoryInit_segment he
      exact ⟨rfl, e, he, memoryInit_performs hbulk hperf⟩
    · obtain ⟨rfl, hop⟩ := (check_bind_eq_some _ _ _ _).mp hrest
      simp only [jitWasmDataDrop, pull_bind_eq_some, show ¬(9 ≤ 7) by decide, show ¬(9 = 8) by decide, if_false, if_true] at h
      obtain ⟨_, _, hidx', h⟩ := h
      obtain ⟨rfl, rfl⟩ := Prod.mk.inj (Option.some.inj (hidx.symm.trans hidx'))
      obtain ⟨rfl, rfl⟩ := Prod.mk.inj ((pure_eq_some _ _ _).mp hop)
      obtain ⟨_, t', he, ht⟩ := (emit_eq_some _ _ _).mp h
      obtain ⟨-, rfl⟩ := Prod.mk.inj ht
      exact ⟨rfl, dataDrop_performs he⟩

end SpidirWasm.Jit
