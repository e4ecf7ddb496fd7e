import SpidirWasm.Jit.BulkRules

/-! How far an access reaches in the 8 GiB that the runtime reserves. An effective address
has 33 bits, so an access starts in the reservation, but a wide one may end behind it. -/

namespace SpidirWasm.Jit

open Checked
open Spidir
open SpidirWasm.Host (Runtime memoryReserveSize)

/-- All bytes of an access lie in the reservation. -/
def Reserved (base : Word) (a : Access) : Prop :=
  ∀ b, a.start ≤ b → b < a.start + a.len → base.toNat ≤ b ∧ b < base.toNat + memoryReserveSize

/-- What holds of every access since `s`. -/
def Store.Since (P : Access → Prop) (s u : Store) : Prop :=
  ∃ accesses, u.trace = s.trace ++ accesses ∧ ∀ a ∈ accesses, P a

/-- A range from the base on. -/
theorem reserved_iff {base : Word} {start len : ℕ} (hpos : 0 < len) :
    Reserved base ⟨base.toNat + start, len⟩ ↔ start + len ≤ memoryReserveSize := by
  constructor
  · intro h
    obtain ⟨-, hlast⟩ := h (base.toNat + start + (len - 1)) (by simp) (by simp only; omega)
    omega
  · intro h b hb hlt
    simp only at hb hlt
    omega

section Since

variable {P : Access → Prop} {s u v : Store} {start len : ℕ}

theorem Store.Since.refl : Store.Since P s s := ⟨[], (List.append_nil _).symm, by simp⟩

theorem Store.Since.touch (h : Store.Since P s u) (hP : P ⟨start, len⟩) :
    Store.Since P s (u.touch start len) := by
  obtain ⟨accesses, htrace, hall⟩ := h
  refine ⟨accesses ++ [⟨start, len⟩], ?_, ?_⟩
  · rw [Store.touch, htrace, List.append_assoc]
  · intro a ha
    rcases List.mem_append.mp ha with ha | ha
    · exact hall a ha
    · rw [List.mem_singleton.mp ha]
      exact hP

/-- Accesses of the same bytes are inside together. -/
theorem Store.Only.since_iff {a : Access} (h : Store.Only a s u) (hsome : u.trace ≠ s.trace) :
    Store.Since P s u ↔ P a := by
  obtain ⟨⟨n, htrace⟩, -⟩ := h
  have hn : n ≠ 0 := by
    intro hzero
    rw [hzero] at htrace
    exact hsome (htrace.trans (List.append_nil _))
  constructor
  · rintro ⟨accesses, hadded, hall⟩
    obtain rfl := List.append_cancel_left (htrace.symm.trans hadded)
    exact hall a (List.mem_replicate.mpr ⟨hn, rfl⟩)
  · intro hP
    refine ⟨_, htrace, fun b hb => ?_⟩
    rw [List.eq_of_mem_replicate hb]
    exact hP

end Since

/-! ### Loads, stores and atomic accesses -/

namespace MemoryOp

variable {H : Platform} {op : MemoryOp} {operands rest : List (ValueType × Word)} {addr : Word} {s : Store} {start : ℕ}
  {bytes : List UInt8}

theorem width_le : op.width ≤ 8 := by
  have size : ∀ k : MemSize, k.bytes ≤ 8 := by
    intro k
    cases k <;> decide
  have word : ∀ w : AtomicWidth, w.bytes ≤ 8 := by
    intro w
    cases w <;> decide
  cases op with
  | load type k extend => exact size k
  | store type k => exact size k
  | notify => exact Nat.zero_le _
  | wait is64 => cases is64 <;> decide
  | atomicLoad w => exact word w
  | atomicStore w => exact word w
  | rmw op w => exact word w

/-- An operation that meets an unmapped byte changes nothing and ends there. -/
theorem fault_stops {t : EmitState} {e : Outcome Store Machine}
    (h : Ends t ((op.fault start s).bind fun p => .done { stack := p.1 ++ rest, shared := p.2 }) e) :
    ∃ u, u.mem = s.mem ∧ (e = .trap u ∨ e = .diverge u) := by
  have stops : op.fault start s = .trap (s.touch start op.width) ∨ op.fault start s = .diverge (s.touch start op.width) := by
    cases op with
    | wait is64 => exact .inr rfl
    | _ => exact .inl rfl
  rcases stops with he | he <;> rw [he] at h <;> cases e <;> simp only [Outcome.trap_bind, Outcome.diverge_bind, Ends] at h
  · refine ⟨_, ?_, .inl rfl⟩
    rw [← h]
    rfl
  · refine ⟨_, ?_, .inr rfl⟩
    rw [← h]
    rfl

/-- An operation with bytes does access them. -/
theorem touch_ne : (op.touch start s).trace ≠ s.trace := by
  intro h
  have len := congrArg List.length h
  cases op <;> simp [touch, Store.touch] at len

theorem finish_ne : (op.finish H operands start bytes s).Leaves (fun u => u.trace ≠ s.trace) Prod.snd := by
  unfold finish
  split <;> exact touch_ne

theorem fault_ne : (op.fault start s).Leaves (fun u => u.trace ≠ s.trace) Prod.snd := by
  have one : ∀ n, (s.touch start n).trace ≠ s.trace := by
    intro n h
    have len := congrArg List.length h
    simp [Store.touch] at len
  cases op <;> exact one _

theorem perform_ne (hops : operands.map Prod.fst = op.above) (hpos : 0 < op.width) :
    (op.perform H operands addr s).Leaves (fun u => u.trace ≠ s.trace) Prod.snd := by
  rcases hl : s.mem.load addr.toNat op.width with _ | bytes
  · rw [perform_lost hops hpos hl]
    exact fault_ne
  · rw [perform_found hops hpos hl]
    exact finish_ne

/-- The accesses of an operation are inside a region if its bytes are. -/
theorem leaves_since_iff {P : Access → Prop} (hops : operands.map Prod.fst = op.above) (hpos : 0 < op.width) :
    (op.leaves H operands addr rest s).Leaves (Store.Since P s) View.shared ↔ P ⟨addr.toNat, op.width⟩ := by
  have only : (op.perform H operands addr s).Leaves (Store.Only ⟨addr.toNat, op.width⟩ s) Prod.snd := op.perform_only hops
  have some : (op.perform H operands addr s).Leaves (fun u => u.trace ≠ s.trace) Prod.snd := op.perform_ne hops hpos
  rw [MemoryOp.leaves]
  cases he : op.perform H operands addr s with
  | unknown =>
    rw [he] at only
    cases only
  | _ =>
    rw [he] at only some
    exact only.since_iff some

end MemoryOp

/-- An operation without bytes makes no accesses. -/
theorem MemoryOp.leaves_since {H : Platform} {op : MemoryOp} {operands rest : List (ValueType × Word)} {addr : Word}
    {s : Store} {P : Access → Prop} (hops : operands.map Prod.fst = op.above) (hzero : op.width = 0) :
    (op.leaves H operands addr rest s).Leaves (Store.Since P s) View.shared := by
  have idle : (∃ pushed, op.perform H operands addr s = .done (pushed, s)) ∨ op.perform H operands addr s = .trap s :=
    op.perform_none hops hzero
  rw [MemoryOp.leaves]
  rcases idle with ⟨pushed, he⟩ | he
  · rw [he]
    exact .refl
  · rw [he]
    exact .refl

/-- The accesses of a run, as the view ends. -/
theorem Ends.leaves_iff {P : Store → Prop} {t : EmitState} {o : Outcome Store View} {e : Outcome Store Machine}
    (h : Ends t o e) : e.Leaves P Machine.toStore ↔ o.Leaves P View.shared := by
  cases o <;> cases e <;> simp only [Ends] at h
  · rw [Outcome.Leaves, Outcome.Leaves, h.shared]
  · rw [h]
    exact Iff.rfl
  · rw [h]
    exact Iff.rfl
  · exact Iff.rfl

/-! ### Bulk operations -/

/-- Two operands of 32 bits reach less far than the reservation. -/
theorem reserved_operands {base x n : Word} (hfits : base.toNat + memoryReserveSize ≤ 2 ^ 64) :
    Reserved base ⟨(base + x.zext32).toNat, u32 n⟩ := by
  have hx := u32_lt x
  have hn := u32_lt n
  have start : (base + x.zext32).toNat = base.toNat + u32 x := by
    rw [BitVec.toNat_add, Word.toNat_zext32]
    simp only [u32, memoryReserveSize] at *
    omega
  intro b hb hlt
  simp only [start, memoryReserveSize] at *
  omega

theorem Platform.put_since {P : Access → Prop} {H : Platform} {dst : Word} {n : ℕ} {value : ℕ → Option UInt8} {s u : Store}
    (h : Store.Since P s u) : (H.put dst n value u).Leaves (Store.Since P s) Prod.snd := by
  rw [put]
  split <;> exact h

theorem Outcome.leaves_snd {P : Store → Prop} {o : Outcome Store (Word × Store)} (h : o.Leaves P Prod.snd) :
    (o.bind fun p => .done p.2 : Outcome Store Store).Leaves P id := by
  cases o <;> exact h

namespace BulkOp

/-- What an operation accesses besides linear memory: the slot of its segment, and the
bytes of the segment. -/
def Apart (op : BulkOp) (state : Word) (mem : Memory UInt8) (n src : Word) (a : Access) : Prop :=
  match op with
  | init offset len =>
    let slot := (state + BitVec.ofNat 64 offset).toNat
    a = ⟨slot, 8⟩ ∨ u32 src + u32 n ≤ len ∧ ∃ ptr, mem.load slot 8 = some ptr ∧
      a = ⟨(Word.ofBytes ptr + BitVec.ofNat 64 (u32 src)).toNat, u32 n⟩
  | _ => False

variable {H : Platform} {op : BulkOp} {base state n src dst : Word} {s : Store}

/-- Whatever the operands are, the accesses to linear memory stay in the reservation. -/
theorem perform_since (hfits : base.toNat + memoryReserveSize ≤ 2 ^ 64) (hop : op.Fits) :
    (op.perform H base state n src dst s).Leaves
      (Store.Since (fun a => Reserved base a ∨ op.Apart state s.mem n src a) s) id := by
  have operand : ∀ {u : Store} {x : Word}, Store.Since (fun a => Reserved base a ∨ op.Apart state s.mem n src a) s u →
      Store.Since (fun a => Reserved base a ∨ op.Apart state s.mem n src a) s
        (u.touch (base + x.zext32).toNat (u32 n)) :=
    fun h => h.touch (.inl (reserved_operands hfits))
  cases op with
  | copy =>
    apply Outcome.leaves_snd
    simp only [Platform.jitHelperMemoryCopy, u32_fill]
    split_ifs
    · exact Platform.put_since (operand (operand .refl))
    · exact .refl
  | fill =>
    apply Outcome.leaves_snd
    simp only [Platform.jitHelperMemoryFill, u32_fill]
    split_ifs
    · exact Platform.put_since (operand .refl)
    · exact .refl
  | init offset len =>
    let slot := (state + BitVec.ofNat 64 offset).toNat
    have slotRead : Store.Since (fun a => Reserved base a ∨ (init offset len).Apart state s.mem n src a) s
        (s.touch slot 8) := Store.Since.refl.touch (.inr (.inl rfl))
    rcases hload : s.mem.load slot 8 with _ | ptr
    · rw [perform, MemoryOp.load_lost hload]
      exact slotRead
    · rw [perform, MemoryOp.load_found hload, Outcome.done_bind]
      apply Outcome.leaves_snd
      simp only [Platform.jitHelperMemoryInit, u32_fill, u32_ofNat hop]
      split_ifs with hle
      · refine Platform.put_since (operand (slotRead.touch (.inr (.inr ⟨hle, ptr, hload, rfl⟩))))
      all_goals exact slotRead

end BulkOp

/-- Every accepted memory instruction, on every memory that a run reaches. A load, store or
atomic access starts in the reservation; all its bytes lie there unless its effective address
is within its width of the end, and then the code does not get past it. The bulk
operations always stay in the reservation. -/
theorem accesses_reserved {data : List UInt8} {m : Wasm.WasmModule} {reserved committed : Bool}
    {r₀ r : Runtime} {ops : List Host.Op} (hload : Wasm.wasmLoadModule data = some m)
    (hinit : Host.runtimeInit m reserved committed = .done r₀) (hrun : Host.run ops r₀ = some r)
    {s t : JitState} (hmodule : s.ctx.module = m) (hlive : s.live = true) (h : jitWasmOpcode s = some ((), t)) :
    (∀ opcode, s.code.data.head? = some opcode → isMemoryOpcode opcode.toNat →
      ∃ op memArg, pullMemoryInstr s.code = some ((op, memArg), t.code) ∧
        ∀ H W B σ view operands addr rest, View.Of view s.toEmitState σ → t.builder.Extends B →
          Links (Platform.helper H) W t.ctx → operands.map Prod.fst = op.above →
          view.stack = operands ++ (.i32, addr) :: rest → Placed (W.param 0) r.memory view.shared.mem →
          let e := B.exec W (s.builder.since t.builder) σ
          let ea := effectiveAddress memArg addr
          e.Leaves (Store.Since (fun a => a.start = (W.param 0).toNat + ea) view.shared) Machine.toStore ∧
          ea < memoryReserveSize ∧
          (e.Leaves (Store.Since (Reserved (W.param 0)) view.shared) Machine.toStore ↔
            op.width = 0 ∨ ea + op.width ≤ memoryReserveSize) ∧
          (0 < op.width → memoryReserveSize < ea + op.width →
            r.memory ea = none ∧ ∃ u, u.mem = view.shared.mem ∧ (e = .trap u ∨ e = .diverge u))) ∧
    ∀ code code' sub, bufferPullU8 s.code = some (bulkPrefix, code) → bufferPullU32 code = some (sub, code') →
      sub = 8 ∨ sub = 10 ∨ sub = 11 → ∃ op, pullBulkOp s.ctx s.code = some (op, t.code) ∧
        ∀ H W B σ view n src dst rest, View.Of view s.toEmitState σ → t.builder.Extends B →
          Links (Platform.helper H) W t.ctx → view.stack = (.i32, n) :: (.i32, src) :: (.i32, dst) :: rest →
          (W.param 0).toNat + memoryReserveSize ≤ 2 ^ 64 →
          (B.exec W (s.builder.since t.builder) σ).Leaves (Store.Since (fun a => Reserved (W.param 0) a ∨
            op.Apart (W.param 1) view.shared.mem n src a) view.shared) Machine.toStore := by
  obtain ⟨hr₀, -⟩ := Host.runtimeInit_ok hload hinit
  obtain ⟨hr, -⟩ := Host.run_ok hr₀ hrun
  obtain ⟨l, hl, rfl, -⟩ := Wasm.wasmLoadModule_staged hload
  constructor
  · intro opcode hopcode hmemory
    obtain ⟨op, memArg, e, hpull, he, hperf⟩ := jitWasmOpcode_handles hlive hopcode hmemory h
    refine ⟨op, memArg, hpull, ?_⟩
    intro H W B σ view operands addr rest hview hB hlinks hops hstack hplaced
    obtain ⟨o, ⟨hoff, rfl⟩, hends⟩ := (hperf H W view operands addr rest hops hstack _ _ _ he).2 σ B hview hB hlinks
    have start : (address W memArg addr).toNat = (W.param 0).toNat + effectiveAddress memArg addr := hplaced.address hoff
    have inside : effectiveAddress memArg addr + 1 < memoryReserveSize := effectiveAddress_lt hoff
    intro e ea
    have hends : Ends t.toEmitState _ e := hends
    rw [hends.leaves_iff, hends.leaves_iff]
    rcases Nat.eq_zero_or_pos op.width with hzero | hpos
    · refine ⟨op.leaves_since hops hzero, Nat.lt_of_succ_lt inside, ?_, fun hpos => absurd hzero hpos.ne'⟩
      exact iff_of_true (op.leaves_since hops hzero) (.inl hzero)
    rw [op.leaves_since_iff hops hpos, op.leaves_since_iff hops hpos, start, reserved_iff hpos]
    refine ⟨rfl, Nat.lt_of_succ_lt inside, by simp [hpos.ne', ea], fun _ hout => ?_⟩
    have small : r.size ≤ 2 ^ 32 := hr.le_max.trans hr.limits.max_le
    have above : r.size ≤ effectiveAddress memArg addr := by
      have wide := op.width_le
      simp only [memoryReserveSize] at hout
      omega
    have unmapped : r.memory (effectiveAddress memArg addr) = none := by
      rw [← Option.not_isSome_iff_eq_none, hr.below]
      omega
    have lost : view.shared.mem.load (address W memArg addr).toNat op.width = none := by
      rw [← Option.not_isSome_iff_eq_none, Memory.load_isSome, start]
      intro covers
      have first := covers 0 hpos
      rw [Nat.add_zero, hplaced.bytes _ (Nat.lt_of_succ_lt inside), unmapped] at first
      cases first
    refine ⟨unmapped, ?_⟩
    rw [MemoryOp.leaves, MemoryOp.perform_lost hops hpos lost] at hends
    exact MemoryOp.fault_stops hends
  · intro code code' sub hopcode hsub hbulk
    obtain ⟨op, e, hpull, he, hperf⟩ := jitWasmOpcode_bulk hlive hopcode hsub hbulk h
    have fits : op.Fits := pullBulkOp_fits (hmodule ▸ hl.toValid) hpull
    refine ⟨op, hpull, ?_⟩
    intro H W B σ view n src dst rest hview hB hlinks hstack hfits
    obtain ⟨o, rfl, hends⟩ := (hperf H W view n src dst rest hstack _ _ _ he).2 σ B hview hB hlinks
    rw [hends.leaves_iff]
    have since : (op.perform H (W.param 0) (W.param 1) n src dst view.shared).Leaves
        (Store.Since (fun a => Reserved (W.param 0) a ∨ op.Apart (W.param 1) view.shared.mem n src a) view.shared) id :=
      op.perform_since hfits fits
    revert since
    cases op.perform H (W.param 0) (W.param 1) n src dst view.shared <;> exact id

/-- The code of `beforeLoad`, in a module with a memory. -/
def beforeMemoryLoad : JitState := { beforeLoad with ctx := { module := { memory := ⟨65536, 262144, false⟩ } } }

theorem accesses_reserved_load : ∃ r t, Host.run [] (.fresh { memory := ⟨65536, 262144, false⟩ }) = some r ∧
    jitWasmOpcode beforeMemoryLoad = some ((), t) ∧
    (t.builder.exec {} (beforeMemoryLoad.builder.since t.builder) { mem := r.memory, reg := fun _ => 5 }).Leaves
      (Store.Since (Reserved 0) { mem := r.memory }) Machine.toStore := by
  let r : Runtime := .fresh { memory := ⟨65536, 262144, false⟩ }
  have loads : Wasm.wasmLoadModule Host.growingModule = some { memory := ⟨65536, 262144, false⟩ } := by decide +kernel
  have init : Host.runtimeInit { memory := ⟨65536, 262144, false⟩ } true true = .done r := rfl
  have runs : Host.run [] r = some r := rfl
  have accepted : (jitWasmOpcode beforeMemoryLoad).map (fun p => p.2.ctx) = some beforeMemoryLoad.ctx := rfl
  have instr : pullMemoryInstr beforeMemoryLoad.code = some ((.load .i32 .size4 .full, ⟨0, 2, 3⟩), ⟨3, []⟩) := by
    decide +kernel
  obtain ⟨⟨_, t⟩, ht, hctx⟩ := Option.map_eq_some_iff.mp accepted
  obtain ⟨op, memArg, hop, holds⟩ := (accesses_reserved loads init runs rfl rfl ht).1 0x28 rfl (by decide)
  simp only [instr, Option.some.injEq, Prod.mk.injEq] at hop
  obtain ⟨⟨rfl, rfl⟩, -⟩ := hop
  have links : Links (Platform.helper ascending) {} t.ctx := by
    have same : t.ctx = beforeMemoryLoad.ctx := hctx
    rw [same]
    exact links_empty _ _ _
  have inside := holds ascending {} t.builder _ _ [] 5 [] (beforeLoad_view _ r.memory 5) (.refl _) links rfl rfl
    ⟨by decide, fun a _ => congrArg _ (Nat.zero_add a)⟩
  exact ⟨r, t, rfl, ht, inside.2.2.1.mpr (.inr (by decide))⟩

/-- In front of `i32.load offset=0xFFFFFFFF`. -/
def beforeFarLoad : JitState := { beforeLoad with code := ⟨0, [0x28, 2, 0xFF, 0xFF, 0xFF, 0xFF, 0x0F]⟩ }

/-- The last two of its bytes may lie behind the reservation. -/
theorem accesses_reserved_far_load : ∃ r t, Host.run [] (.fresh { memory := ⟨65536, 262144, false⟩ }) = some r ∧
    jitWasmOpcode beforeFarLoad = some ((), t) ∧
    View.Of { stack := [(.i32, 0xFFFFFFFF)], shared := { mem := r.memory } } beforeFarLoad.toEmitState
      { mem := r.memory, reg := fun _ => 0xFFFFFFFF } ∧
    ¬(t.builder.exec {} (beforeFarLoad.builder.since t.builder) { mem := r.memory, reg := fun _ => 0xFFFFFFFF }).Leaves
      (Store.Since (Reserved 0) { mem := r.memory }) Machine.toStore := by
  let r : Runtime := .fresh { memory := ⟨65536, 262144, false⟩ }
  have accepted : (jitWasmOpcode beforeFarLoad).map (fun p =>
      (p.2.builder.exec {} (beforeFarLoad.builder.since p.2.builder) { mem := r.memory, reg := fun _ => 0xFFFFFFFF }).trapped.map (·.trace)) =
      some (some [⟨2 ^ 33 - 2, 4⟩]) := by decide +kernel
  obtain ⟨⟨_, t⟩, ht, he⟩ := Option.map_eq_some_iff.mp accepted
  refine ⟨r, t, rfl, ht, beforeLoad_view _ _ _, ?_⟩
  revert he
  dsimp only
  cases t.builder.exec {} (beforeFarLoad.builder.since t.builder) { mem := r.memory, reg := fun _ => 0xFFFFFFFF } with
  | trap u =>
    rintro htrace ⟨accesses, hadded, hall⟩
    have inside : Reserved 0 ⟨2 ^ 33 - 2, 4⟩ := by
      apply hall
      have same : accesses = u.trace := hadded.symm
      rw [same, show u.trace = _ from Option.some.inj htrace]
      exact List.mem_singleton.mpr rfl
    have last := inside (2 ^ 33) (by decide) (by decide)
    exact absurd last.2 (by decide)
  | _ =>
    intro he
    cases he

end SpidirWasm.Jit
