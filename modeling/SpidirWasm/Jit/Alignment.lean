import SpidirWasm.Jit.AtomicUpdates

/-! Atomic instructions at any address. The code does not ask whether the effective address is
a multiple of the width: an instruction does there what it does at one that is. -/

namespace SpidirWasm.Jit

open Checked
open Spidir

namespace MemoryOp

/-- What the prefix of the atomic instructions gives. -/
def isAtomic : MemoryOp → Bool
  | load _ _ _ | store _ _ => false
  | notify | wait _ | atomicLoad _ | atomicStore _ | rmw _ _ => true

/-- An instruction traps if it is the 64-bit wait, or if it accesses a byte at or above `size`;
the 32-bit wait does not. -/
def Traps (op : MemoryOp) (ea size : ℕ) : Prop :=
  op = wait true ∨ op ≠ wait false ∧ ∃ k < op.width, size ≤ ea + k

variable {H : Platform} {op : MemoryOp} {operands rest : List (ValueType × Word)} {addr : Word} {s : Store}

theorem finish_not_trap {start : ℕ} {bytes : List UInt8} : ∀ u, op.finish H operands start bytes s ≠ .trap u := by
  intro u
  unfold finish
  split <;> simp

/-- A trap leaves the memory as it was. -/
theorem perform_trap_mem (hops : operands.map Prod.fst = op.above) {u : Store} (h : op.perform H operands addr s = .trap u) :
    u.mem = s.mem := by
  rcases Nat.eq_zero_or_pos op.width with hzero | hpos
  · have idle : (∃ pushed, op.perform H operands addr s = .done (pushed, s)) ∨ op.perform H operands addr s = .trap s :=
      perform_none hops hzero
    rcases idle with ⟨pushed, he⟩ | he
    · rw [he] at h
      cases h
    · rw [he] at h
      cases h
      rfl
  · rcases hl : s.mem.load addr.toNat op.width with _ | bytes
    · rw [perform_lost hops hpos hl] at h
      cases op <;> cases h <;> rfl
    · rw [perform_found hops hpos hl] at h
      exact absurd h (finish_not_trap u)

/-- When an operation traps. -/
theorem perform_trap_iff {base : Word} {linear : Memory UInt8} {ea size : ℕ} (hops : operands.map Prod.fst = op.above)
    (hplaced : Placed base linear s.mem) (hbelow : linear.Below size) (hsize : size ≤ 2 ^ 32) (haddr : addr.toNat = base.toNat + ea)
    (hea : ea < Host.memoryReserveSize) (hop : op.isAtomic) : (∃ u, op.perform H operands addr s = .trap u) ↔ op.Traps ea size := by
  rcases Nat.eq_zero_or_pos op.width with hzero | hpos
  · cases op with
    | load | store => cases hop
    | atomicLoad w | atomicStore w | rmw _ w => cases w <;> cases hzero
    | notify =>
      obtain ⟨p, rfl, -⟩ := List.map_eq_singleton_iff.mp hops
      constructor
      · rintro ⟨u, h⟩
        cases h
      · rintro (h | ⟨-, k, hk, -⟩)
        · cases h
        · cases hk
    | wait is64 =>
      cases is64 with
      | false => cases hzero
      | true => exact ⟨fun _ => .inl rfl, fun _ => ⟨s, rfl⟩⟩
  · by_cases hfit : ea + op.width ≤ size
    · obtain ⟨bytes, -, hfound⟩ := hplaced.found hbelow hsize hfit
      rw [perform_found hops hpos (haddr ▸ hfound)]
      constructor
      · rintro ⟨u, h⟩
        exact absurd h (finish_not_trap u)
      · rintro (rfl | ⟨-, k, hk, hle⟩)
        · cases hpos
        · omega
    · obtain ⟨k, hk, hle, -, hnone⟩ := hplaced.lost (n := op.width) hbelow hsize hea (by omega) hpos
      have lost : s.mem.load addr.toNat op.width = none := by
        rw [← Option.not_isSome_iff_eq_none, Memory.load_isSome, haddr]
        intro hc
        have mapped := hc k hk
        rw [Nat.add_assoc, hnone] at mapped
        cases mapped
      rw [perform_lost hops hpos lost]
      cases op with
      | load | store => cases hop
      | notify => cases hpos
      | wait is64 =>
        cases is64 with
        | true => cases hpos
        | false =>
          constructor
          · rintro ⟨u, h⟩
            cases h
          · rintro (h | ⟨h, -⟩)
            · cases h
            · exact absurd rfl h
      | _ => exact ⟨fun _ => .inr ⟨by simp, k, hk, hle⟩, fun _ => ⟨_, rfl⟩⟩

end MemoryOp

theorem atomicOp_isAtomic {sub last : ℕ} {op : MemoryOp} (h : atomicOp sub last = some op) : op.isAtomic := by
  unfold atomicOp at h
  split_ifs at h
  · cases h
    rfl
  all_goals
    simp only [Option.map_eq_some_iff, Option.bind_eq_some_iff] at h
  · obtain ⟨_, -, rfl⟩ := h
    rfl
  · obtain ⟨_, -, rfl⟩ := h
    rfl
  · obtain ⟨_, -, rfl⟩ := h
    rfl
  · obtain ⟨_, -, _, -, rfl⟩ := h
    rfl
  · obtain ⟨_, -, rfl⟩ := h
    rfl

/-- Every atomic instruction that is accepted, at any address. Whether it traps is a matter of the committed memory, and
when it does, no byte of it has changed; nothing that sleeps or wakes up traps. Where it finds all its bytes, it does
with them what it does anywhere else. -/
theorem atomic_at_any_alignment {s t : JitState} {data : List UInt8} (hlive : s.live = true) (hdata : s.code.data = 0xFE :: data)
    (h : jitWasmOpcode s = some ((), t)) :
    ∃ op memArg, pullMemoryInstr s.code = some ((op, memArg), t.code) ∧ op.isAtomic ∧
      ∀ (H : Platform) (W : World) (B : Builder) (σ : Machine) (operands rest : List (ValueType × Word)) (addr : Word) (shared : Store)
        (linear : Memory UInt8) (size : ℕ), operands.map Prod.fst = op.above →
          View.Of { stack := operands ++ (.i32, addr) :: rest, shared } s.toEmitState σ → t.builder.Extends B → Links H.helper W t.ctx →
          Placed (W.param 0) linear shared.mem → linear.Below size → size ≤ 2 ^ 32 →
          let ea := effectiveAddress memArg addr
          ∃ o, Ends t.toEmitState o (B.exec W (s.builder.since t.builder) σ) ∧ ((∃ u, o = .trap u) ↔ op.Traps ea size) ∧
            (∀ u, o = .trap u → u.mem = shared.mem) ∧
            (0 < op.width → ea + op.width ≤ size → ∃ bytes, linear.load ea op.width = some bytes ∧
              o = (op.finish H operands ((W.param 0).toNat + ea) bytes shared).bind fun p => .done { stack := p.1 ++ rest, shared := p.2 }) ∧
            ∀ count, op = .notify → operands = [(.i32, count)] →
              o = .done { stack := (.i32, H.wake (address W memArg addr) (Word.fill 32 count 0)) :: rest, shared } := by
  obtain ⟨op, memArg, e, hpull, he, hperf⟩ := jitWasmOpcode_handles hlive (by rw [hdata]; rfl) (.inr rfl) h
  obtain ⟨sub, code, -, -, hop⟩ := pullMemoryInstr_atomic hdata hpull
  have hatomic := atomicOp_isAtomic hop
  refine ⟨op, memArg, hpull, hatomic, ?_⟩
  intro H W B σ operands rest addr shared linear size hops hview hB hlinks hplaced hbelow hsize
  obtain ⟨o, ⟨hoff, rfl⟩, hends⟩ := (hperf H W _ operands addr rest hops rfl _ _ _ he).2 σ B hview hB hlinks
  have haddr : (address W memArg addr).toNat = (W.param 0).toNat + effectiveAddress memArg addr := hplaced.address hoff
  have inside : effectiveAddress memArg addr + 1 < Host.memoryReserveSize := effectiveAddress_lt hoff
  have trap (u : Store) : op.leaves H operands (address W memArg addr) rest shared = .trap u ↔
      op.perform H operands (address W memArg addr) shared = .trap u := by
    unfold MemoryOp.leaves
    cases op.perform H operands (address W memArg addr) shared <;> simp [Outcome.bind]
  refine ⟨_, hends, ?_, fun u hu => MemoryOp.perform_trap_mem hops ((trap u).mp hu), fun hpos hfit => ?_, ?_⟩
  · simp only [trap]
    exact MemoryOp.perform_trap_iff hops hplaced hbelow hsize haddr (Nat.lt_of_succ_lt inside) hatomic
  · obtain ⟨bytes, hbytes, hfound⟩ := hplaced.found hbelow hsize hfit
    refine ⟨bytes, hbytes, ?_⟩
    rw [MemoryOp.leaves, MemoryOp.perform_found hops hpos (haddr ▸ hfound), haddr]
  · rintro count rfl rfl
    rfl

theorem beforeAtomic_accepted : ∃ t, jitWasmOpcode (beforeAtomic 0x1E) = some ((), t) ∧
    t.ctx.helpers = Function.update (fun _ => none) (.atomicRmw .add .w4) (some ⟨true, 0, .i32, [.ptr, .i32]⟩) := by
  have accepted : (jitWasmOpcode (beforeAtomic 0x1E)).map (fun p => p.2.ctx.helpers) =
      some (Function.update (fun _ => none) (.atomicRmw .add .w4) (some ⟨true, 0, .i32, [.ptr, .i32]⟩)) := rfl
  obtain ⟨⟨_, t⟩, ht, hhelpers⟩ := Option.map_eq_some_iff.mp accepted
  exact ⟨t, ht, hhelpers⟩

theorem atomic_at_any_alignment_add : ∃ t op memArg o, jitWasmOpcode (beforeAtomic 0x1E) = some ((), t) ∧
    pullMemoryInstr (beforeAtomic 0x1E).code = some ((op, memArg), t.code) ∧
    Ends t.toEmitState o (t.builder.exec (helperWorld (.atomicRmw .add .w4)) ((beforeAtomic 0x1E).builder.since t.builder)
      { mem := onePage, reg := fun _ => 0x10A }) ∧ ¬∃ u, o = .trap u := by
  obtain ⟨t, ht, hhelpers⟩ := beforeAtomic_accepted
  have instr : pullMemoryInstr (beforeAtomic 0x1E).code = some ((.rmw .add .w4, ⟨0, 0, 0⟩), ⟨0, []⟩) := by decide +kernel
  obtain ⟨op, memArg, hpull, -, any⟩ := atomic_at_any_alignment (s := beforeAtomic 0x1E) (t := t) rfl rfl ht
  obtain ⟨hop, -⟩ := Prod.mk.inj (Option.some.inj (instr.symm.trans hpull))
  obtain ⟨rfl, rfl⟩ := Prod.mk.inj hop
  have placed : Placed ((helperWorld (.atomicRmw .add .w4)).param 0) onePage onePage :=
    ⟨by decide, fun a _ => congrArg onePage (Nat.zero_add a)⟩
  obtain ⟨o, hends, htrap, -⟩ := any someHost _ t.builder _ [(.i32, 0x10A)] [] 0x10A _ onePage 65536 rfl
    (beforeAtomic_view 0x1E onePage) (.refl _) (helperWorld_links hhelpers) placed onePage_below (by decide)
  refine ⟨t, _, _, o, ht, hpull, hends, fun h => ?_⟩
  obtain h | ⟨-, k, hk, hle⟩ := htrap.mp h
  · cases h
  · have small : k < 4 := hk
    have ea : effectiveAddress ⟨0, 0, 0⟩ 0x10A = 0x10A := rfl
    omega

/-- An addition to the four bytes at 0x10A, which is no multiple of four, changes them. -/
theorem atomic_add_unaligned : ∃ t memArg u, jitWasmOpcode (beforeAtomic 0x1E) = some ((), t) ∧
    pullMemoryInstr (beforeAtomic 0x1E).code = some ((.rmw .add .w4, memArg), t.code) ∧ ¬4 ∣ effectiveAddress memArg 0x10A ∧
    Ends t.toEmitState (.done { stack := [(.i32, 0)], shared := u })
      (t.builder.exec (helperWorld (.atomicRmw .add .w4)) ((beforeAtomic 0x1E).builder.since t.builder)
        { mem := onePage, reg := fun _ => 0x10A }) ∧ u.mem 0x10A = some 0x0A := by
  obtain ⟨t, ht, hhelpers⟩ := beforeAtomic_accepted
  obtain ⟨last, i, memArg, hlast, hi, -, hmem, updates⟩ := jitWasmOpcode_updates (s := beforeAtomic 0x1E) (t := t) rfl rfl
    (.last (by decide)) (by decide) ht
  obtain rfl := Option.some.inj hlast
  obtain rfl : Wasm.RmwInstr.mk .add false 4 = i := Option.some.inj hi
  have immediate : jitPullMemarg ⟨0x1E, [0, 0]⟩ = some (⟨0, 0, 0⟩, ⟨0, []⟩) := by decide +kernel
  obtain ⟨rfl, hcode⟩ := Prod.mk.inj (Option.some.inj (immediate.symm.trans hmem))
  have instr : pullMemoryInstr (beforeAtomic 0x1E).code = some ((.rmw .add .w4, ⟨0, 0, 0⟩), ⟨0, []⟩) := by decide +kernel
  have placed : Placed ((helperWorld (.atomicRmw .add .w4)).param 0) onePage onePage :=
    ⟨by decide, fun a _ => congrArg onePage (Nat.zero_add a)⟩
  obtain ⟨bytes, u, hload, hends, hu⟩ := updates someHost _ t.builder _ [0x10A] 0x10A [] _ onePage 65536 rfl
    (beforeAtomic_view 0x1E onePage) (.refl _) (helperWorld_links hhelpers) placed onePage_below (by decide) (by decide)
  obtain rfl : [0, 0, 0, 0] = bytes := Option.some.inj (Eq.trans (by decide) hload)
  exact ⟨t, ⟨0, 0, 0⟩, u, ht, hcode ▸ instr, by decide, hends, by rw [hu]; decide⟩

end SpidirWasm.Jit
