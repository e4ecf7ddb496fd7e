import SpidirWasm.Host.Growth
import SpidirWasm.Jit.MemoryAccess

/-! Loads, stores and atomic accesses against the linear memory that the runtime has
committed. The code checks no bounds: an access that leaves the committed part touches a
byte of the reservation above it, and faults. -/

namespace SpidirWasm.Jit

open Checked
open Spidir
open SpidirWasm.Host (Runtime memoryReserveSize)

/-! ### An operation on the bytes at its address -/

namespace MemoryOp

/-- A helper argument. -/
def arg (p : ValueType × Word) : Word := Word.fill p.1.width p.2 0

/-- What an operation makes of the bytes at its address: what it leaves on the stack, and
the bytes it stores. A wait may last for ever. -/
def effect (H : Platform) (start : ℕ) : MemoryOp → List (ValueType × Word) → List UInt8 →
    Option (List (ValueType × Word) × Option (List UInt8))
  | load type _ extend, _, bytes => some ([(type, extend.word (Word.ofBytes bytes))], none)
  | store _ size, (_, value) :: _, _ => some ([], some (value.toBytes size.bytes))
  | wait false, operands, bytes => (H.wait start bytes (operands.reverse.map arg)).map fun r => ([(.i32, r)], none)
  | atomicLoad w, _, bytes => some ([(w.type, Word.ofBytes bytes)], none)
  | atomicStore w, p :: _, _ => some ([], some ((arg p).toBytes w.bytes))
  | rmw op w, operands, bytes =>
    let old := Word.ofBytes bytes
    some ([(w.type, old)], some ((op.result w.bytes old (operands.reverse.map arg)).toBytes w.bytes))
  | _, _, _ => none

/-- The accesses of an operation at an address that can be accessed. -/
def touch (op : MemoryOp) (start : ℕ) (s : Store) : Store :=
  match op with
  | rmw _ _ => (s.touch start op.width).touch start op.width
  | _ => s.touch start op.width

/-- How an operation ends that finds some bytes at its address. -/
def finish (H : Platform) (op : MemoryOp) (operands : List (ValueType × Word)) (start : ℕ) (bytes : List UInt8) (s : Store) :
    Outcome Store (List (ValueType × Word) × Store) :=
  match op.effect H start operands bytes with
  | some (pushed, some out) => .done (pushed, { op.touch start s with mem := s.mem.write start out })
  | some (pushed, none) => .done (pushed, op.touch start s)
  | none => .diverge (op.touch start s)

/-- How an operation ends whose bytes are not all mapped. -/
def fault (op : MemoryOp) (start : ℕ) (s : Store) : Outcome Store (List (ValueType × Word) × Store) :=
  match op with
  | wait _ => .diverge (s.touch start op.width)
  | _ => .trap (s.touch start op.width)

variable {H : Platform} {op : MemoryOp} {operands : List (ValueType × Word)} {addr : Word} {bytes : List UInt8} {s : Store}

/-- A store does not ask what was there before. -/
theorem store_of_load {out : List UInt8} {n a : ℕ} (h : s.mem.load a n = some bytes) (hout : out.length = n) :
    s.store a out = .done { s.touch a n with mem := s.mem.write a out } := by
  have covers : s.mem.Covers a out.length := by
    rw [hout]
    exact Memory.load_isSome.mp (by rw [h]; rfl)
  rw [Store.store, Memory.store, if_pos covers, hout]

theorem store_of_load_none {out : List UInt8} {n a : ℕ} (h : s.mem.load a n = none) (hout : out.length = n) :
    s.store a out = .trap (s.touch a n) := by
  have covers : ¬s.mem.Covers a out.length := by
    rw [hout]
    exact fun hc => by simpa [h] using Memory.load_isSome.mpr hc
  rw [Store.store, Memory.store, if_neg covers, hout]

theorem load_found {n a : ℕ} (h : s.mem.load a n = some bytes) : s.load a n = .done (bytes, s.touch a n) := by
  rw [Store.load, h]

theorem load_lost {n a : ℕ} (h : s.mem.load a n = none) : s.load a n = .trap (s.touch a n) := by
  rw [Store.load, h]

/-! What the operations that call a helper come to. -/

theorem perform_wait : (wait false).perform H operands addr s =
    (H.wait4 addr (operands.reverse.map arg) s).bind fun p => .done ([(.i32, p.1)], p.2) := rfl

theorem perform_atomicLoad (w : AtomicWidth) : (atomicLoad w).perform H [] addr s =
    (Jit.atomicLoad w.bytes addr s).bind fun p => .done ([(w.type, p.1)], p.2) := by
  cases w <;> rfl

theorem perform_atomicStore (w : AtomicWidth) (p : ValueType × Word) : (atomicStore w).perform H [p] addr s =
    (Jit.atomicStore w.bytes addr (arg p) s).bind fun p => .done ([], p.2) := rfl

theorem perform_rmw (op : RmwOp) (w : AtomicWidth) : (rmw op w).perform H operands addr s =
    (atomicRmw op w.bytes addr (operands.reverse.map arg) s).bind fun p => .done ([(w.type, p.1)], p.2) := by
  cases w <;> rfl

/-- An operation that finds all its bytes. -/
theorem perform_found (hops : operands.map Prod.fst = op.above) (hwidth : 0 < op.width)
    (h : s.mem.load addr.toNat op.width = some bytes) : op.perform H operands addr s = op.finish H operands addr.toNat bytes s := by
  cases op with
  | load type size extend =>
    rw [perform, load_found (n := size.bytes) h]
    rfl
  | store type size =>
    obtain ⟨⟨τ, x⟩, rfl, -⟩ := List.map_eq_singleton_iff.mp hops
    rw [perform, store_of_load (n := size.bytes) h (Word.length_toBytes _ _)]
    rfl
  | notify => cases hwidth
  | wait is64 =>
    cases is64 with
    | true => cases hwidth
    | false =>
      have found : s.mem.load addr.toNat 4 = some bytes := h
      rw [perform_wait, Platform.wait4, finish, effect]
      simp only [found]
      cases H.wait addr.toNat bytes (operands.reverse.map arg) <;> rfl
  | atomicLoad w =>
    obtain rfl : operands = [] := List.map_eq_nil_iff.mp hops
    rw [perform_atomicLoad, Jit.atomicLoad, load_found (n := w.bytes) h]
    rfl
  | atomicStore w =>
    obtain ⟨p, rfl, -⟩ := List.map_eq_singleton_iff.mp hops
    rw [perform_atomicStore, Jit.atomicStore, store_of_load (n := w.bytes) h (Word.length_toBytes _ _)]
    rfl
  | rmw op w =>
    rw [perform_rmw, atomicRmw, load_found (n := w.bytes) h, Outcome.done_bind]
    simp only
    rw [store_of_load (s := s.touch addr.toNat w.bytes) (n := w.bytes) h (Word.length_toBytes _ _)]
    rfl

/-- An operation one of whose bytes is not mapped. -/
theorem perform_lost (hops : operands.map Prod.fst = op.above) (hwidth : 0 < op.width)
    (h : s.mem.load addr.toNat op.width = none) : op.perform H operands addr s = op.fault addr.toNat s := by
  cases op with
  | load type size extend =>
    rw [perform, load_lost (n := size.bytes) h]
    rfl
  | store type size =>
    obtain ⟨⟨τ, x⟩, rfl, -⟩ := List.map_eq_singleton_iff.mp hops
    rw [perform, store_of_load_none (n := size.bytes) h (Word.length_toBytes _ _)]
    rfl
  | notify => cases hwidth
  | wait is64 =>
    cases is64 with
    | true => cases hwidth
    | false =>
      have lost : s.mem.load addr.toNat 4 = none := h
      rw [perform_wait, Platform.wait4, lost]
      rfl
  | atomicLoad w =>
    obtain rfl : operands = [] := List.map_eq_nil_iff.mp hops
    rw [perform_atomicLoad, Jit.atomicLoad, load_lost (n := w.bytes) h]
    rfl
  | atomicStore w =>
    obtain ⟨p, rfl, -⟩ := List.map_eq_singleton_iff.mp hops
    rw [perform_atomicStore, Jit.atomicStore, store_of_load_none (n := w.bytes) h (Word.length_toBytes _ _)]
    rfl
  | rmw op w =>
    rw [perform_rmw, atomicRmw, load_lost (n := w.bytes) h]
    rfl

/-- An operation without bytes touches none. -/
theorem perform_none (hops : operands.map Prod.fst = op.above) (hwidth : op.width = 0) :
    (∃ pushed, op.perform H operands addr s = .done (pushed, s)) ∨ op.perform H operands addr s = .trap s := by
  cases op with
  | load type size extend => cases size <;> cases hwidth
  | store type size => cases size <;> cases hwidth
  | notify =>
    obtain ⟨p, rfl, -⟩ := List.map_eq_singleton_iff.mp hops
    exact .inl ⟨_, rfl⟩
  | wait is64 =>
    cases is64 with
    | true => exact .inr rfl
    | false => cases hwidth
  | atomicLoad w => cases w <;> cases hwidth
  | atomicStore w => cases w <;> cases hwidth
  | rmw op w => cases w <;> cases hwidth

end MemoryOp

/-! ### The reservation -/

/-- The memory of a runtime in the address space of its process. Nothing is mapped in the
rest of the reservation. -/
structure Placed (base : Word) (linear mem : Memory UInt8) : Prop where
  fits : base.toNat + memoryReserveSize ≤ 2 ^ 64
  bytes : ∀ a < memoryReserveSize, mem (base.toNat + a) = linear a

/-- The address of an access in linear memory, which does not wrap around. -/
def effectiveAddress (memArg : WasmMemArg) (addr : Word) : ℕ := addr.toNat % 2 ^ 32 + memArg.offset

section Reservation

variable {base : Word} {linear mem : Memory UInt8} {n a : ℕ} {memArg : WasmMemArg} {addr : Word} {W : World}

theorem effectiveAddress_lt (h : memArg.offset < 2 ^ 32) : effectiveAddress memArg addr + 1 < memoryReserveSize := by
  have low := Nat.mod_lt addr.toNat (by decide : 2 ^ 32 > 0)
  simp only [effectiveAddress, memoryReserveSize]
  omega

/-- The code computes it from the base. -/
theorem Placed.address (hp : Placed (W.param 0) linear mem) (h : memArg.offset < 2 ^ 32) :
    (address W memArg addr).toNat = (W.param 0).toNat + effectiveAddress memArg addr := by
  have inside : effectiveAddress memArg addr + 1 < memoryReserveSize := effectiveAddress_lt h
  have fits := hp.fits
  rw [Jit.address, BitVec.toNat_add, BitVec.toNat_add, Word.toNat_zext32, BitVec.toNat_ofNat]
  simp only [effectiveAddress] at inside ⊢
  omega

/-- Bytes of the reservation are read as bytes of linear memory. -/
theorem Placed.load (hp : Placed base linear mem) (h : a + n ≤ memoryReserveSize) :
    mem.load (base.toNat + a) n = linear.load a n := by
  apply Memory.load_congr
  intro i hi
  rw [Nat.add_assoc, hp.bytes (a + i) (by omega)]

/-- An access that leaves the committed memory meets an unmapped byte of the reservation. -/
theorem Placed.lost {size : ℕ} (hp : Placed base linear mem) (hbelow : linear.Below size) (hsize : size ≤ 2 ^ 32) (h : a < memoryReserveSize)
    (hn : size < a + n) (hpos : 0 < n) : ∃ k < n, size ≤ a + k ∧ a + k < memoryReserveSize ∧ mem (base.toNat + (a + k)) = none := by
  have unmapped : ∀ b, size ≤ b → b < memoryReserveSize → mem (base.toNat + b) = none := by
    intro b hb hlt
    rw [hp.bytes b hlt, ← Option.not_isSome_iff_eq_none, hbelow b]
    omega
  by_cases hle : size ≤ a
  · exact ⟨0, hpos, hle, h, unmapped a hle h⟩
  · refine ⟨size - a, by omega, by omega, ?_, unmapped _ (by omega) ?_⟩
    all_goals
      simp only [memoryReserveSize]
      omega

end Reservation

/-! ### Isolation -/

/-- Every access since `s` was of the bytes `a`, and no other byte has changed. -/
def Store.Only (a : Access) (s u : Store) : Prop :=
  (∃ n, u.trace = s.trace ++ List.replicate n a) ∧ ∀ b, b < a.start ∨ a.start + a.len ≤ b → u.mem b = s.mem b

namespace MemoryOp

variable {H : Platform} {op : MemoryOp} {operands : List (ValueType × Word)} {start : ℕ} {bytes out : List UInt8} {s : Store}
  {pushed : List (ValueType × Word)}

theorem length_effect (h : op.effect H start operands bytes = some (pushed, some out)) : out.length = op.width := by
  unfold effect at h
  split at h <;> simp only [Option.some.injEq, Prod.mk.injEq, reduceCtorEq, and_false, Option.map_eq_some_iff, exists_false] at h
  all_goals
    obtain ⟨-, rfl⟩ := h
    exact Word.length_toBytes _ _

theorem only_touch : Store.Only ⟨start, op.width⟩ s (op.touch start s) := by
  refine ⟨?_, fun b _ => by cases op <;> rfl⟩
  cases op with
  | rmw op w => exact ⟨2, List.append_assoc _ _ _⟩
  | _ => exact ⟨1, rfl⟩

theorem finish_only : (op.finish H operands start bytes s).Leaves (Store.Only ⟨start, op.width⟩ s) Prod.snd := by
  unfold finish
  split
  · rename_i pushed out he
    refine ⟨only_touch.1, fun b hb => Memory.write_of_not_mem ?_⟩
    rw [length_effect he]
    exact hb
  · exact only_touch
  · exact only_touch

theorem fault_only : (op.fault start s).Leaves (Store.Only ⟨start, op.width⟩ s) Prod.snd := by
  cases op <;> exact ⟨⟨1, rfl⟩, fun _ _ => rfl⟩

theorem perform_only {addr : Word} (hops : operands.map Prod.fst = op.above) :
    (op.perform H operands addr s).Leaves (Store.Only ⟨addr.toNat, op.width⟩ s) Prod.snd := by
  have nothing : Store.Only ⟨addr.toNat, op.width⟩ s s := ⟨⟨0, (List.append_nil _).symm⟩, fun _ _ => rfl⟩
  rcases Nat.eq_zero_or_pos op.width with hzero | hpos
  · have idle : (∃ pushed, op.perform H operands addr s = .done (pushed, s)) ∨ op.perform H operands addr s = .trap s :=
      perform_none hops hzero
    rcases idle with ⟨pushed, he⟩ | he
    · rw [he]
      exact nothing
    · rw [he]
      exact nothing
  · rcases hl : s.mem.load addr.toNat op.width with _ | bytes
    · rw [perform_lost hops hpos hl]
      exact fault_only
    · rw [perform_found hops hpos hl]
      exact finish_only

end MemoryOp

theorem MemoryOp.leaves_only {H : Platform} {op : MemoryOp} {operands rest : List (ValueType × Word)} {addr : Word} {s : Store}
    (hops : operands.map Prod.fst = op.above) :
    (op.leaves H operands addr rest s).Leaves (Store.Only ⟨addr.toNat, op.width⟩ s) View.shared := by
  have only : (op.perform H operands addr s).Leaves (Store.Only ⟨addr.toNat, op.width⟩ s) Prod.snd := op.perform_only hops
  rw [MemoryOp.leaves]
  cases he : op.perform H operands addr s <;> rw [he] at only <;> exact only

/-- Every accepted load, store and atomic access, on every memory that a run reaches: the
code accesses the bytes at its effective address and no others, and either they are all
committed and it does to them what the operation says, or one of them lies in the
reservation above the committed memory and the code does not get past it. -/
theorem memory_access_isolated {data : List UInt8} {m : Wasm.WasmModule} {reserved committed : Bool} {r₀ r : Runtime}
    {ops : List Host.Op} (hload : Wasm.wasmLoadModule data = some m) (hinit : Host.runtimeInit m reserved committed = .done r₀)
    (hrun : Host.run ops r₀ = some r) {s t : JitState} {opcode : UInt8} (hlive : s.live = true)
    (hopcode : s.code.data.head? = some opcode) (hop : isMemoryOpcode opcode.toNat) (h : jitWasmOpcode s = some ((), t)) :
    ∃ op memArg, pullMemoryInstr s.code = some ((op, memArg), t.code) ∧
      ∀ H W B σ view operands addr rest, View.Of view s.toEmitState σ → t.builder.Extends B → Links (Platform.helper H) W t.ctx →
        operands.map Prod.fst = op.above → view.stack = operands ++ (.i32, addr) :: rest →
        Placed (W.param 0) r.memory view.shared.mem →
        let base := (W.param 0).toNat
        let ea := effectiveAddress memArg addr
        ∃ o, Ends t.toEmitState o (B.exec W (s.builder.since t.builder) σ) ∧
          o.Leaves (Store.Only ⟨base + ea, op.width⟩ view.shared) View.shared ∧
          ((∀ k < op.width, ea + k < r.size) ∧ (0 < op.width → ∃ bytes, r.memory.load ea op.width = some bytes ∧
              o = (op.finish H operands (base + ea) bytes view.shared).bind fun p => .done { stack := p.1 ++ rest, shared := p.2 }) ∨
            (∃ k < op.width, r.size ≤ ea + k ∧ ea + k < memoryReserveSize ∧ view.shared.mem (base + (ea + k)) = none) ∧
              ∃ u, o = .trap u ∨ o = .diverge u) := by
  obtain ⟨hr₀, -⟩ := Host.runtimeInit_ok hload hinit
  obtain ⟨hr, -⟩ := Host.run_ok hr₀ hrun
  obtain ⟨op, memArg, e, hpull, he, hperf⟩ := jitWasmOpcode_handles hlive hopcode hop h
  refine ⟨op, memArg, hpull, fun H W B σ view operands addr rest hview hB hlinks hops hstack hplaced => ?_⟩
  obtain ⟨o, ⟨hoff, rfl⟩, hends⟩ := (hperf H W view operands addr rest hops hstack _ _ _ he).2 σ B hview hB hlinks
  have start : (address W memArg addr).toNat = (W.param 0).toNat + effectiveAddress memArg addr := hplaced.address hoff
  have inside : effectiveAddress memArg addr + 1 < memoryReserveSize := effectiveAddress_lt hoff
  have only : (op.leaves H operands (address W memArg addr) rest view.shared).Leaves
      (Store.Only ⟨(address W memArg addr).toNat, op.width⟩ view.shared) View.shared := op.leaves_only hops
  rw [start] at only
  refine ⟨_, hends, only, ?_⟩
  by_cases hfit : ∀ k < op.width, effectiveAddress memArg addr + k < r.size
  · refine .inl ⟨hfit, fun hpos => ?_⟩
    have hle : effectiveAddress memArg addr + op.width ≤ r.size := by
      have last := hfit (op.width - 1) (by omega)
      omega
    have small : r.size ≤ memoryReserveSize := (hr.le_max.trans hr.limits.max_le).trans (by decide)
    have covers := hr.below.covers_iff.mpr (.inr hle)
    obtain ⟨bytes, hbytes⟩ := Option.isSome_iff_exists.mp (Memory.load_isSome.mpr covers)
    have found : view.shared.mem.load (address W memArg addr).toNat op.width = some bytes := by
      rw [start, hplaced.load (hle.trans small), hbytes]
    refine ⟨bytes, hbytes, ?_⟩
    rw [MemoryOp.leaves, MemoryOp.perform_found hops hpos found, start]
  · obtain ⟨k, hk, hout⟩ : ∃ k < op.width, r.size ≤ effectiveAddress memArg addr + k := by
      simpa only [not_forall, not_lt, exists_prop] using hfit
    have hpos : 0 < op.width := by omega
    obtain ⟨j, hj, hsize, hres, hnone⟩ := hplaced.lost (n := op.width) hr.below (hr.le_max.trans hr.limits.max_le)
      (Nat.lt_of_succ_lt inside) (by omega) hpos
    refine .inr ⟨⟨j, hj, hsize, hres, hnone⟩, ?_⟩
    have lost : view.shared.mem.load (address W memArg addr).toNat op.width = none := by
      rw [← Option.not_isSome_iff_eq_none, Memory.load_isSome, start]
      intro hc
      have mapped := hc j hj
      rw [Nat.add_assoc, hnone] at mapped
      cases mapped
    rw [MemoryOp.leaves, MemoryOp.perform_lost hops hpos lost]
    cases op with
    | wait is64 => exact ⟨_, .inr rfl⟩
    | _ => exact ⟨_, .inl rfl⟩

/-- In front of `i32.load offset=3`, with a constant on the stack. -/
def beforeLoad : JitState where
  code := ⟨0, [0x28, 2, 3]⟩
  func := { labels := [{ stack := [⟨some 0, .i32⟩] }] }
  builder := (({ params := [.ptr, .ptr] } : Builder).createBlock.setBlock 0).build (.iconst .i32 5)

/-- Nothing is declared yet. -/
theorem ok_of_nothing {c : JitContext} (hfunctions : c.functions = []) (hhelpers : ∀ k, c.helpers k = none) : c.Ok := by
  constructor
  · intro i f hf
    rw [hfunctions] at hf
    cases hf
  · intro k f hf
    rw [hhelpers] at hf
    cases hf

theorem beforeLoad_view (module : Wasm.WasmModule) (mem : Memory UInt8) (addr : Word) :
    View.Of { stack := [(.i32, addr)], shared := { mem } } { beforeLoad with ctx := { module } }.toEmitState
      { mem, reg := fun _ => addr } := by
  refine ⟨ok_of_nothing rfl fun _ => rfl, ⟨rfl, rfl⟩, fun f hf => False.elim hf, ?_, rfl⟩
  exact ⟨_, [], rfl, .cons ⟨rfl, 0, rfl, Nat.one_pos, rfl, Word.setWidth_fill 32 addr 0⟩ .nil⟩

/-- Nothing to link. -/
theorem links_empty (H : Platform) (W : World) (module : Wasm.WasmModule) : Links H.helper W { module } := by
  intro k f hf
  cases hf

theorem memory_access_isolated_load : ∃ r t,
    Host.run [.store 8 [1, 2, 3, 4]] (.fresh { memory := ⟨65536, 262144, false⟩ }) = some r ∧
    jitWasmOpcode beforeLoad = some ((), t) ∧
    Ends t.toEmitState (.done { stack := [(.i32, 0x04030201)], shared := ⟨r.memory, [⟨8, 4⟩]⟩ })
      (t.builder.exec {} (beforeLoad.builder.since t.builder) { mem := r.memory, reg := fun _ => 5 }) := by
  have loads : Wasm.wasmLoadModule Host.growingModule = some { memory := ⟨65536, 262144, false⟩ } := by decide +kernel
  have init : Host.runtimeInit { memory := ⟨65536, 262144, false⟩ } true true =
      .done (.fresh { memory := ⟨65536, 262144, false⟩ }) := rfl
  have runs : (Host.run [.store 8 [1, 2, 3, 4]] (.fresh { memory := ⟨65536, 262144, false⟩ })).map
      (fun r => (r.size, r.memory.load 8 4)) = some (65536, some [1, 2, 3, 4]) := by decide +kernel
  have accepted : (jitWasmOpcode beforeLoad).map (fun p => p.2.ctx) = some {} := rfl
  have instr : pullMemoryInstr beforeLoad.code = some ((.load .i32 .size4 .full, ⟨0, 2, 3⟩), ⟨3, []⟩) := by decide +kernel
  obtain ⟨r, hr, hbytes⟩ := Option.map_eq_some_iff.mp runs
  obtain ⟨hsize, hbytes⟩ := Prod.mk.inj hbytes
  obtain ⟨⟨_, t⟩, ht, hctx⟩ := Option.map_eq_some_iff.mp accepted
  have opcode : beforeLoad.code.data.head? = some 0x28 := rfl
  obtain ⟨op, memArg, hop, isolated⟩ := memory_access_isolated loads init hr rfl opcode (by decide) ht
  simp only [instr, Option.some.injEq, Prod.mk.injEq] at hop
  obtain ⟨⟨rfl, rfl⟩, -⟩ := hop
  have links : Links (Platform.helper { order_perm := fun _ _ => .refl _ }) {} t.ctx := by
    have empty : t.ctx = {} := hctx
    rw [empty]
    exact links_empty _ _ _
  obtain ⟨o, hends, -, ⟨-, hfound⟩ | ⟨⟨k, hk, hout, -⟩, -⟩⟩ := isolated { order_perm := fun _ _ => .refl _ } {} t.builder
    _ _ [] 5 [] (beforeLoad_view {} r.memory 5) (.refl _) links rfl rfl ⟨by decide, fun a _ => by simp⟩
  · obtain ⟨bytes, hb, rfl⟩ := hfound (by decide)
    obtain rfl := Option.some.inj (hbytes.symm.trans hb)
    exact ⟨r, t, hr, ht, hends⟩
  · rw [hsize] at hout
    have low : k < 4 := hk
    have ea : effectiveAddress ⟨0, 2, 3⟩ 5 = 8 := rfl
    omega

end SpidirWasm.Jit
