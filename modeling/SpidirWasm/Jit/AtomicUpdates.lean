import SpidirWasm.Jit.BulkRules
import SpidirWasm.Jit.LoadStore
import SpidirWasm.Jit.SubOpcodes
import SpidirWasm.Logic.Interleaving
import SpidirWasm.Logic.Layout
import SpidirWasm.Wasm.Atomics

/-! The atomic read-modify-write instructions. One of them replaces a cell by what WebAssembly
says and leaves what was there; threads that run them on one cell, each in one step, build on
each other's results. -/

namespace SpidirWasm.Jit

open Checked Leb128
open Spidir
open Wasm (AtomicOp RmwInstr leBytes leBytes_mod)

/-! ### The helpers -/

/-- The helpers of an operation. -/
def rmwOf : AtomicOp → RmwOp
  | .add => .add
  | .sub => .sub
  | .and => .and
  | .or => .or
  | .xor => .xor
  | .xchg => .xchg
  | .cmpxchg => .cmpxchg

/-- The low bytes of a word, as a number of that width. -/
theorem toBytes_low {n : ℕ} {x : Word} {y : BitVec (8 * n)} (h : x.setWidth (8 * n) = y) : x.toBytes n = leBytes n y.toNat := by
  have power : (256 : ℕ) ^ n = 2 ^ (8 * n) := (pow_mul 2 8 n).symm
  rw [toBytes_eq, ← h, BitVec.toNat_setWidth, ← power, leBytes_mod]

/-- A helper computes with the low bits of what it is passed. -/
theorem RmwOp.result_low {n m : ℕ} (hn : 8 * n ≤ m) (hm : m ≤ 64) (op : AtomicOp) (old : Word) (args : List Word) :
    ((rmwOf op).result n old (args.map fun x => Word.fill m x 0)).setWidth (8 * n) = op.next n (old.setWidth (8 * n)) args := by
  have h64 : 8 * n ≤ 64 := hn.trans hm
  have low (x : Word) : (Word.fill m x 0).setWidth (8 * n) = x.setWidth (8 * n) := Word.setWidth_fill_of_le hn x 0
  rcases args with _ | ⟨x, _ | ⟨y, _ | ⟨z, args⟩⟩⟩ <;> cases op <;> try rfl
  · exact (BitVec.setWidth_add _ _ h64).trans (congrArg _ (low x))
  · have sub : (old - Word.fill m x 0).setWidth (8 * n) = old.setWidth (8 * n) - (Word.fill m x 0).setWidth (8 * n) := by
      rw [BitVec.sub_eq_add_neg, BitVec.setWidth_add _ _ h64, BitVec.setWidth_neg_of_le h64, BitVec.sub_eq_add_neg]
    exact sub.trans (congrArg _ (low x))
  · exact BitVec.setWidth_and.trans (congrArg _ (low x))
  · exact BitVec.setWidth_or.trans (congrArg _ (low x))
  · exact BitVec.setWidth_xor.trans (congrArg _ (low x))
  · exact low x
  · change (if (Word.fill m x 0).setWidth (8 * n) = old.setWidth (8 * n) then Word.fill m y 0 else old).setWidth (8 * n) =
      if old.setWidth (8 * n) = x.setWidth (8 * n) then y.setWidth (8 * n) else old.setWidth (8 * n)
    rw [low x, apply_ite (BitVec.setWidth (8 * n)), low y]
    simp only [eq_comm]

/-! ### One instruction -/

/-- The code between two states leaves what the cell at the effective address was, and makes of
the cell what the instruction says. -/
def UpdatesCell (s t : JitState) (memArg : WasmMemArg) (i : RmwInstr) : Prop :=
  ∀ (H : Platform) (W : World) (B : Builder) (σ : Machine) (args : List Word) (addr : Word) (rest : List (ValueType × Word))
    (shared : Store) (linear : Memory UInt8) (size : ℕ), args.length = i.op.arity →
      View.Of { stack := (args.reverse.map fun x => (intType i.is64, x)) ++ (.i32, addr) :: rest, shared } s.toEmitState σ →
      t.builder.Extends B → Links H.helper W t.ctx → Placed (W.param 0) linear shared.mem → linear.Below size → size ≤ 2 ^ 32 →
      effectiveAddress memArg addr + i.bytes ≤ size →
      ∃ bytes u, linear.load (effectiveAddress memArg addr) i.bytes = some bytes ∧
        Ends t.toEmitState (.done { stack := (intType i.is64, BitVec.ofNat 64 (leBits bytes)) :: rest, shared := u })
          (B.exec W (s.builder.since t.builder) σ) ∧
        u.mem = shared.mem.write ((W.param 0).toNat + effectiveAddress memArg addr)
          (leBytes i.bytes (i.op.next i.bytes (BitVec.ofNat _ (leBits bytes)) args).toNat)

theorem rmwOp_atomicOps {k : ℕ} {op : RmwOp} (h : rmwOp k = some op) : ∃ a, Wasm.atomicOps[k]? = some a ∧ rmwOf a = op := by
  unfold rmwOp at h
  split at h <;> cases h <;> exact ⟨_, rfl, rfl⟩

theorem atomicWidth_shapes {k : ℕ} {w : AtomicWidth} (h : atomicWidth k = some w) :
    ∃ shape, Wasm.atomicShapes[k]? = some shape ∧ w.type = intType shape.1 ∧ w.bytes = shape.2 := by
  unfold atomicWidth at h
  split at h <;> cases h <;> exact ⟨_, rfl, rfl, rfl⟩

/-- The operation that the last byte of a sub-opcode selects. -/
theorem atomicOp_rmw {sub last : ℕ} {op : MemoryOp} (hsub : 0x1E ≤ sub ∧ sub ≤ 0x4E) (h : atomicOp sub last = some op) :
    0x1E ≤ last ∧ ∃ i w, RmwInstr.ofSub last = some i ∧ op = .rmw (rmwOf i.op) w ∧ w.type = intType i.is64 ∧ w.bytes = i.bytes := by
  obtain ⟨hlo, hhi⟩ := hsub
  unfold atomicOp at h
  rw [if_neg (by omega), if_neg (by omega), if_neg (by omega), if_neg (by omega)] at h
  by_cases hbinop : sub ≤ 0x47
  · rw [if_pos ⟨hlo, hbinop⟩] at h
    split_ifs at h with hlast
    obtain ⟨o, ho, h⟩ := Option.bind_eq_some_iff.mp h
    obtain ⟨w, hw, rfl⟩ := Option.map_eq_some_iff.mp h
    obtain ⟨a, ha, rfl⟩ := rmwOp_atomicOps ho
    obtain ⟨shape, hshape, htype, hbytes⟩ := atomicWidth_shapes hw
    exact ⟨hlast, ⟨a, shape.1, shape.2⟩, w, by rw [RmwInstr.ofSub, if_pos hlast, ha, Option.bind_some, hshape, Option.map_some],
      rfl, htype, hbytes⟩
  · rw [if_neg (by omega), if_pos (by omega)] at h
    split_ifs at h with hlast
    obtain ⟨w, hw, rfl⟩ := Option.map_eq_some_iff.mp h
    obtain ⟨shape, hshape, htype, hbytes⟩ := atomicWidth_shapes hw
    have bound := lt_of_atomicWidth hw
    have family : (last - 0x1E) / 7 = 6 ∧ (last - 0x1E) % 7 = last - 0x48 := by omega
    refine ⟨by omega, ⟨.cmpxchg, shape.1, shape.2⟩, w, ?_, rfl, htype, hbytes⟩
    rw [RmwInstr.ofSub, if_pos (by omega), family.1, family.2, hshape]
    rfl

/-- The operands above the address. -/
theorem update_types {i : RmwInstr} {w : AtomicWidth} {args : List Word} (htype : w.type = intType i.is64)
    (hargs : args.length = i.op.arity) :
    (args.reverse.map fun x => (intType i.is64, x)).map Prod.fst = (MemoryOp.rmw (rmwOf i.op) w).above := by
  rw [List.map_map, ← htype]
  cases hop : i.op <;> rw [hop] at hargs
  case cmpxchg =>
    obtain ⟨x, y, rfl⟩ := List.length_eq_two.mp hargs
    rfl
  all_goals
    obtain ⟨x, rfl⟩ := List.length_eq_one_iff.mp hargs
    rfl

/-- The operation at an address whose bytes are found. -/
theorem perform_update {H : Platform} {i : RmwInstr} {w : AtomicWidth} {args : List Word} {addr : Word} {bytes : List UInt8} {s : Store}
    (htype : w.type = intType i.is64) (hbytes : w.bytes = i.bytes) (hargs : args.length = i.op.arity)
    (hfound : s.mem.load addr.toNat i.bytes = some bytes) :
    ∃ u, (MemoryOp.rmw (rmwOf i.op) w).perform H (args.reverse.map fun x => (intType i.is64, x)) addr s =
        .done ([(intType i.is64, BitVec.ofNat 64 (leBits bytes))], u) ∧
      u.mem = s.mem.write addr.toNat (leBytes i.bytes (i.op.next i.bytes (BitVec.ofNat _ (leBits bytes)) args).toNat) := by
  have hpos : 0 < w.bytes := by cases w <;> decide
  have hwidth : (MemoryOp.rmw (rmwOf i.op) w).width = i.bytes := hbytes
  have hlen : bytes.length = i.bytes := (Memory.load_eq_some.mp hfound).1
  have hn : 8 * i.bytes ≤ (intType i.is64).width := by
    rw [← hbytes, ← htype]
    cases w <;> decide
  have old : Word.ofBytes bytes = BitVec.ofNat 64 (leBits bytes) := by
    have bound : bytes.length ≤ 8 := by
      have := (intType i.is64).width_le
      omega
    rw [← toNat_ofBytes bound, BitVec.ofNat_toNat, BitVec.setWidth_eq]
  have passed : (args.reverse.map fun x => (intType i.is64, x)).reverse.map MemoryOp.arg =
      args.map fun x => Word.fill (intType i.is64).width x 0 := by
    rw [← List.map_reverse, List.reverse_reverse, List.map_map]
    rfl
  have stored := toBytes_low (RmwOp.result_low hn (intType i.is64).width_le i.op (BitVec.ofNat 64 (leBits bytes)) args)
  rw [BitVec.setWidth_ofNat_of_le (hn.trans (intType i.is64).width_le)] at stored
  have effect : (MemoryOp.rmw (rmwOf i.op) w).effect H addr.toNat (args.reverse.map fun x => (intType i.is64, x)) bytes =
      some ([(intType i.is64, BitVec.ofNat 64 (leBits bytes))],
        some (leBytes i.bytes (i.op.next i.bytes (BitVec.ofNat _ (leBits bytes)) args).toNat)) := by
    simp only [MemoryOp.effect, passed, hbytes, old, stored, htype]
  rw [MemoryOp.perform_found (update_types htype hargs) hpos (hwidth ▸ hfound), MemoryOp.finish, effect]
  exact ⟨_, rfl, rfl⟩

variable {s t : JitState} {used rest : List UInt8}

/-- Unless it drops bits, a sub-opcode that is accepted is its last byte. -/
theorem last_of_exact {last : UInt8} (h : Groups used) (hlast : used.getLast? = some last) (hsmall : value used < 128)
    (hpos : 0 < last.toNat) : last.toNat = value used := by
  obtain ⟨low, hlow, hv⟩ := value_eq_last h hlast
  have byte := Groups.last_lt h hlast
  rcases Nat.eq_zero_or_pos (used.length - 1) with hk | hk
  · rw [hk] at hlow hv
    omega
  · have big : 128 ≤ 128 ^ (used.length - 1) := Nat.le_self_pow (by omega) 128
    have more : 128 ^ (used.length - 1) ≤ 128 ^ (used.length - 1) * last.toNat := Nat.le_mul_of_pos_right _ hpos
    omega

/-- The operation behind the prefix. -/
theorem pullMemoryInstr_atomic {code code' : Buffer} {data : List UInt8} {op : MemoryOp} {memArg : WasmMemArg}
    (hdata : code.data = 0xFE :: data) (h : pullMemoryInstr code = some ((op, memArg), code')) :
    ∃ sub code₁, bufferPullU32 ⟨0xFE, data⟩ = some (sub, code₁) ∧ jitPullMemarg code₁ = some (memArg, code') ∧
      atomicOp sub code₁.prev.toNat = some op := by
  have first : bufferPullU8 code = some (0xFE, ⟨0xFE, data⟩) := (bufferPullU8_eq_some _ _).mpr ⟨hdata, rfl⟩
  have prefixed : (0xFE : UInt8).toNat = 0xFE := rfl
  simp only [pullMemoryInstr, bind_apply, first, Option.bind_some, pullMemoryOp, prefixed, if_true] at h
  obtain ⟨sub, code₁, hsub, h⟩ := (bind_eq_some _ _ _ _).mp h
  simp only [pullAtomic, bufferPrev, read_bind, bind_eq_some, pure_eq_some] at h
  obtain ⟨memArg', code₂, hmem, op', code₃, hlift, hpair⟩ := h
  obtain ⟨_, hop, he⟩ := (lift_eq_some _ _ _).mp hlift
  obtain ⟨rfl, rfl⟩ := Prod.mk.inj he
  obtain ⟨hread, rfl⟩ := Prod.mk.inj hpair
  obtain ⟨rfl, rfl⟩ := Prod.mk.inj hread
  exact ⟨sub, code₁, hsub, hmem, hop⟩

/-- An accepted read-modify-write instruction, by the last byte of its sub-opcode. -/
theorem jitWasmOpcode_updates (hlive : s.live = true) (hdata : s.code.data = 0xFE :: (used ++ rest)) (hused : Groups used)
    (hsub : 0x1E ≤ subOpcode used ∧ subOpcode used ≤ 0x4E) (h : jitWasmOpcode s = some ((), t)) :
    ∃ last i memArg, used.getLast? = some last ∧ RmwInstr.ofSub last.toNat = some i ∧
      (value used < 2 ^ 32 → last.toNat = value used) ∧ jitPullMemarg ⟨last, rest⟩ = some (memArg, t.code) ∧ UpdatesCell s t memArg i := by
  obtain ⟨op, memArg, e, hpull, he, hperf⟩ := jitWasmOpcode_handles hlive (by rw [hdata]; rfl) (.inr rfl) h
  obtain ⟨sub, code, hsub', hmem, hop⟩ := pullMemoryInstr_atomic hdata hpull
  obtain ⟨used', hused', hdata', -, hlast, rfl⟩ := pullUnsigned_iff.mp hsub'
  obtain ⟨rfl, hrest⟩ := hused.unique hused' hdata'
  obtain ⟨last, data⟩ := code
  obtain rfl : rest = data := hrest
  obtain ⟨hlo, i, w, hi, rfl, htype, hbytes⟩ := atomicOp_rmw hsub hop
  refine ⟨last, i, memArg, hlast, hi, fun hvalue => ?_, hmem, ?_⟩
  · have exact : value used = subOpcode used := (Nat.mod_eq_of_lt hvalue).symm
    exact last_of_exact hused hlast (by omega) (Nat.lt_of_lt_of_le (by decide) hlo)
  · intro H W B σ args addr rest' shared linear n hargs hview hB hlinks hplaced hbelow hn hfit
    obtain ⟨o, ⟨hoff, rfl⟩, hends⟩ := (hperf H W _ _ addr rest' (update_types htype hargs) rfl _ _ _ he).2 σ B hview hB hlinks
    obtain ⟨bytes, hlinear, hfound⟩ := hplaced.found hbelow hn hfit
    obtain ⟨u, hperform, hu⟩ : ∃ u, _ ∧ _ := perform_update htype hbytes hargs (by rwa [hplaced.address hoff])
    rw [MemoryOp.leaves, hperform, Outcome.done_bind] at hends
    rw [hplaced.address hoff] at hu
    exact ⟨bytes, u, hlinear, hends, hu⟩

/-! ### Threads -/

/-- What a thread did to a cell: the operation, the type and the operands, and what it was left. -/
structure CellUpdate where
  op : AtomicOp
  is64 : Bool
  args : List Word
  old : Word

/-- The cell behind an update. -/
def CellUpdate.apply (n : ℕ) (c : BitVec (8 * n)) (u : CellUpdate) : BitVec (8 * n) := u.op.next n c u.args

/-- Every update was left the cell that the updates before it had made, filled up with zeros. -/
def Observes (n : ℕ) (c : BitVec (8 * n)) : List CellUpdate → Prop
  | [] => True
  | u :: us => u.old.setWidth (intType u.is64).width = c.setWidth (intType u.is64).width ∧ Observes n (u.apply n c) us

/-- An accepted read-modify-write instruction, by the last byte of its sub-opcode. -/
structure RmwSite (s t : JitState) (i : RmwInstr) (memArg : WasmMemArg) : Prop where
  live : s.live = true
  accepted : jitWasmOpcode s = some ((), t)
  code : ∃ used rest last, s.code.data = 0xFE :: (used ++ rest) ∧ Groups used ∧ (0x1E ≤ subOpcode used ∧ subOpcode used ≤ 0x4E) ∧
    used.getLast? = some last ∧ RmwInstr.ofSub last.toNat = some i ∧ jitPullMemarg ⟨last, rest⟩ = some (memArg, t.code)

theorem RmwSite.updates {i : RmwInstr} {memArg : WasmMemArg} (h : RmwSite s t i memArg) : UpdatesCell s t memArg i := by
  obtain ⟨used, rest, last, hdata, hused, hsub, hlast, hi, hmem⟩ := h.code
  obtain ⟨last', i', memArg', hlast', hi', -, hmem', updates⟩ := jitWasmOpcode_updates h.live hdata hused hsub h.accepted
  obtain rfl := Option.some.inj (hlast.symm.trans hlast')
  obtain rfl := Option.some.inj (hi.symm.trans hi')
  obtain ⟨rfl, -⟩ := Prod.mk.inj (Option.some.inj (hmem.symm.trans hmem'))
  exact updates

/-- A run of threads that share a memory, all at the cell of `n` bytes at `ea`: at each step one
of them executes one such instruction to its end. -/
inductive AtomicRun (H : Platform) (base : Word) (ea n : ℕ) : Memory UInt8 → List CellUpdate → Memory UInt8 → Prop where
  | nil (mem : Memory UInt8) : AtomicRun H base ea n mem [] mem
  | step {s t : JitState} {i : RmwInstr} {memArg : WasmMemArg} {W : World} {B : Builder} {σ τ : Machine} {args : List Word} {addr old : Word}
      {rest : List (ValueType × Word)} {shared u : Store} {updates : List CellUpdate} {mem : Memory UInt8}
      (site : RmwSite s t i memArg) (hargs : args.length = i.op.arity) (hbytes : i.bytes = n) (hea : effectiveAddress memArg addr = ea)
      (hbase : W.param 0 = base) (hlinks : Links H.helper W t.ctx) (hB : t.builder.Extends B)
      (hview : View.Of { stack := (args.reverse.map fun x => (intType i.is64, x)) ++ (.i32, addr) :: rest, shared } s.toEmitState σ)
      (hexec : B.exec W (s.builder.since t.builder) σ = .done τ)
      (hview' : View.Of { stack := (intType i.is64, old) :: rest, shared := u } t.toEmitState τ)
      (others : AtomicRun H base ea n u.mem updates mem) : AtomicRun H base ea n shared.mem (⟨i.op, i.is64, args, old⟩ :: updates) mem

/-- Two words that an operand shows. -/
theorem View.Of.same_top {σ : Machine} {x y : Word} {type : ValueType} {rest rest' : List (ValueType × Word)} {u u' : Store} {t : EmitState}
    (h : View.Of { stack := (type, x) :: rest, shared := u } t σ) (h' : View.Of { stack := (type, y) :: rest', shared := u' } t σ) :
    x.setWidth type.width = y.setWidth type.width := by
  obtain ⟨l, ls, hl, hstack⟩ := h.stack
  obtain ⟨l', ls', hl', hstack'⟩ := h'.stack
  obtain ⟨rfl, -⟩ := List.cons.inj (hl.symm.trans hl')
  generalize l.stack = stack at hstack hstack'
  obtain - | ⟨⟨-, hx⟩, -⟩ := hstack
  obtain - | ⟨⟨-, hy⟩, -⟩ := hstack'
  exact (hx.read (.refl _)).symm.trans (hy.read (.refl _))

/-- The number of a cell. -/
theorem leBits_cell {n : ℕ} (c : BitVec (8 * n)) : leBits (leBytes n c.toNat) = c.toNat := by
  have power : (256 : ℕ) ^ n = 2 ^ (8 * n) := (pow_mul 2 8 n).symm
  rw [Wasm.leBits_leBytes, power, Nat.mod_eq_of_lt c.isLt]

/-- The threads build on each other's results, and touch nothing else. -/
theorem AtomicRun.cell {H : Platform} {base : Word} {ea n size : ℕ} {mem mem' linear : Memory UInt8} {updates : List CellUpdate}
    {c : BitVec (8 * n)} (h : AtomicRun H base ea n mem updates mem') (hplaced : Placed base linear mem) (hbelow : linear.Below size)
    (hsize : size ≤ 2 ^ 32) (hfit : ea + n ≤ size) (hcell : linear.load ea n = some (leBytes n c.toNat)) :
    Observes n c updates ∧ mem' = mem.write (base.toNat + ea) (leBytes n (updates.foldl (CellUpdate.apply n) c).toNat) := by
  induction h generalizing linear c with
  | nil mem =>
    have same : mem.load (base.toNat + ea) n = some (leBytes n c.toNat) := by
      rw [hplaced.load ((hfit.trans hsize).trans (by decide)), hcell]
    exact ⟨trivial, (Memory.write_load same).symm⟩
  | @step s t i memArg W B σ τ args addr old rest shared u updates mem site hargs hbytes hea hbase hlinks hB hview hexec hview' others ih =>
    subst hbytes hea hbase
    obtain ⟨bytes, u', hload, hends, hu⟩ := site.updates H W B σ args addr rest shared linear size hargs hview hB hlinks hplaced hbelow hsize hfit
    obtain rfl := Option.some.inj (hcell.symm.trans hload)
    rw [leBits_cell, BitVec.ofNat_toNat, BitVec.setWidth_eq] at hu
    rw [leBits_cell, hexec] at hends
    obtain rfl : u = u' := hview'.shared.symm.trans hends.shared
    have hlen : (leBytes i.bytes (i.op.next i.bytes c args).toNat).length = i.bytes := Wasm.leBytes_length _ _
    have covers : linear.Covers (effectiveAddress memArg addr) (leBytes i.bytes (i.op.next i.bytes c args).toNat).length := by
      rw [hlen]
      exact hbelow.covers_iff.mpr (.inr hfit)
    have stored : (linear.write (effectiveAddress memArg addr) (leBytes i.bytes (i.op.next i.bytes c args).toNat)).load
        (effectiveAddress memArg addr) i.bytes = some (leBytes i.bytes (i.op.next i.bytes c args).toNat) := by
      have written := Memory.load_write_self linear (effectiveAddress memArg addr) (leBytes i.bytes (i.op.next i.bytes c args).toNat)
      rwa [hlen] at written
    rw [hu] at ih
    obtain ⟨observes, rfl⟩ := ih hplaced.write (hbelow.write covers) stored
    refine ⟨⟨?_, observes⟩, ?_⟩
    · rw [BitVec.ofNat_toNat] at hends
      exact (hview'.same_top hends).trans (BitVec.setWidth_setWidth_of_le _ (intType i.is64).width_le)
    · rw [Memory.write_write ((Wasm.leBytes_length _ _).trans hlen.symm), List.foldl_cons]
      rfl

/-- Every read-modify-write instruction that is accepted leaves the old cell and makes of it what the instruction says,
and in every run of threads that execute such instructions on one cell each of them works on what the ones before it
left; where they all do one operation that is no exchange, the order in which the threads take turns does not matter. -/
theorem atomic_updates (hlive : s.live = true) (hdata : s.code.data = 0xFE :: (used ++ rest)) (hused : Groups used)
    (hsub : 0x1E ≤ subOpcode used ∧ subOpcode used ≤ 0x4E) (h : jitWasmOpcode s = some ((), t)) :
    (∃ last i memArg, used.getLast? = some last ∧ RmwInstr.ofSub last.toNat = some i ∧
      (value used < 2 ^ 32 → last.toNat = value used) ∧ jitPullMemarg ⟨last, rest⟩ = some (memArg, t.code) ∧ UpdatesCell s t memArg i) ∧
    ∀ (H : Platform) (base : Word) (ea n size : ℕ) (mem mem' linear : Memory UInt8) (updates : List CellUpdate) (c : BitVec (8 * n)),
      AtomicRun H base ea n mem updates mem' → Placed base linear mem → linear.Below size → size ≤ 2 ^ 32 → ea + n ≤ size →
      linear.load ea n = some (leBytes n c.toNat) →
        Observes n c updates ∧ mem' = mem.write (base.toNat + ea) (leBytes n (updates.foldl (CellUpdate.apply n) c).toNat) ∧
        ∀ op, op ≠ .xchg → op ≠ .cmpxchg → (∀ u ∈ updates, u.op = op) → ∀ threads, Interleaves threads updates →
          updates.foldl (CellUpdate.apply n) c = threads.flatten.foldl (CellUpdate.apply n) c := by
  refine ⟨jitWasmOpcode_updates hlive hdata hused hsub h, ?_⟩
  intro H base ea n size mem mem' linear updates c hrun hplaced hbelow hsize hfit hcell
  obtain ⟨observes, hmem⟩ := hrun.cell hplaced hbelow hsize hfit hcell
  refine ⟨observes, hmem, fun op hx hc hop threads hthreads => hthreads.foldl_eq (fun c u hu v hv => ?_) c⟩
  rw [CellUpdate.apply, CellUpdate.apply, CellUpdate.apply, CellUpdate.apply, hop u hu, hop v hv]
  exact AtomicOp.next_comm hx hc _ _ _

/-- In front of an atomic instruction, with an address and a value on the stack. -/
def beforeAtomic (sub : UInt8) : JitState where
  code := ⟨0, [0xFE, sub, 0, 0]⟩
  func := { labels := [{ stack := [⟨some 1, .i32⟩, ⟨some 0, .i32⟩] }] }
  builder := (((({ params := [.ptr, .ptr] } : Builder).createBlock.setBlock 0).build (.iconst .i32 0x10A))).build (.iconst .i32 0x10A)

theorem beforeAtomic_view (sub : UInt8) (mem : Memory UInt8) :
    View.Of { stack := [(.i32, 0x10A), (.i32, 0x10A)], shared := { mem } } (beforeAtomic sub).toEmitState { mem, reg := fun _ => 0x10A } := by
  refine ⟨ok_of_nothing rfl fun _ => rfl, ⟨rfl, rfl⟩, fun f hf => False.elim hf, ?_, rfl⟩
  exact ⟨_, [], rfl, .cons ⟨rfl, 1, rfl, Nat.one_lt_two, rfl, Word.setWidth_fill 32 _ 0⟩
    (.cons ⟨rfl, 0, rfl, Nat.two_pos, rfl, Word.setWidth_fill 32 _ 0⟩ .nil)⟩

def someHost : Platform := ascending

/-- Where one helper is all that is called. -/
def helperWorld (k : HelperKind) : World := { call := fun _ => someHost.helper k }

theorem helperWorld_links {k : HelperKind} {f : FuncRef} {c : JitContext} (h : c.helpers = Function.update (fun _ => none) k (some f)) :
    Links someHost.helper (helperWorld k) c := by
  intro k' f' hf
  rw [h] at hf
  by_cases hk : k' = k
  · rw [hk]
    rfl
  · rw [Function.update_of_ne hk] at hf
    cases hf

def cellMemory : Memory UInt8 := onePage.write 0x10A [250]

theorem cellMemory_below : cellMemory.Below 65536 := onePage_below.write (onePage_below.covers_iff.mpr (.inr (by decide)))

/-- Two threads that add ten to a byte. -/
def addTen (old : Word) : CellUpdate := ⟨.add, false, [0x10A], old⟩

/-- A byte takes the low bits of what is added, and two threads that add to it take turns in either order. -/
theorem atomic_updates_carry : ∃ t u mem, jitWasmOpcode (beforeAtomic 0x20) = some ((), t) ∧
    Ends t.toEmitState (.done { stack := [(.i32, 250)], shared := u })
      (t.builder.exec (helperWorld (.atomicRmw .add .w1)) ((beforeAtomic 0x20).builder.since t.builder)
        { mem := cellMemory, reg := fun _ => 0x10A }) ∧
    u.mem 0x10A = some 4 ∧
    AtomicRun someHost 0 0x10A 1 cellMemory [addTen 250, addTen 4] mem ∧ mem 0x10A = some 14 ∧
    [addTen 250, addTen 4].foldl (CellUpdate.apply 1) 250 = [addTen 4, addTen 250].foldl (CellUpdate.apply 1) 250 := by
  have accepted : (jitWasmOpcode (beforeAtomic 0x20)).map (fun p => p.2.ctx.helpers) =
      some (Function.update (fun _ => none) (.atomicRmw .add .w1) (some ⟨true, 0, .i32, [.ptr, .i32]⟩)) := rfl
  obtain ⟨⟨_, t⟩, ht, hhelpers⟩ := Option.map_eq_some_iff.mp accepted
  obtain ⟨⟨last, i, memArg, hlast, hi, hvalue, hmem, updates⟩, runs⟩ := atomic_updates (s := beforeAtomic 0x20) (t := t) rfl rfl
    (.last (by decide)) (by decide) ht
  obtain rfl := Option.some.inj hlast
  obtain rfl : RmwInstr.mk .add false 1 = i := Option.some.inj hi
  have immediate : jitPullMemarg ⟨0x20, [0, 0]⟩ = some (⟨0, 0, 0⟩, ⟨0, []⟩) := by decide +kernel
  obtain ⟨rfl, -⟩ := Prod.mk.inj (Option.some.inj (immediate.symm.trans hmem))
  have site : RmwSite (beforeAtomic 0x20) t ⟨.add, false, 1⟩ ⟨0, 0, 0⟩ :=
    ⟨rfl, ht, [0x20], [0, 0], 0x20, rfl, .last (by decide), by decide, rfl, rfl, hmem⟩
  -- one turn of a thread, from a byte that is there
  have turn (mem : Memory UInt8) (b : UInt8) (hbelow : mem.Below 65536) (hload : mem.load 0x10A 1 = some [b]) : ∃ τ u,
      t.builder.exec (helperWorld (.atomicRmw .add .w1)) ((beforeAtomic 0x20).builder.since t.builder) { mem, reg := fun _ => 0x10A } = .done τ ∧
      View.Of { stack := [(.i32, BitVec.ofNat 64 (leBits [b]))], shared := u } t.toEmitState τ ∧
      u.mem = mem.write 0x10A (leBytes 1 (AtomicOp.add.next 1 (BitVec.ofNat _ (leBits [b])) [0x10A]).toNat) := by
    have placed : Placed ((helperWorld (.atomicRmw .add .w1)).param 0) mem mem := ⟨by decide, fun a _ => congrArg mem (Nat.zero_add a)⟩
    obtain ⟨bytes, u, hload', hends, hu⟩ := updates someHost _ t.builder _ [0x10A] 0x10A [] _ mem 65536 rfl
      (beforeAtomic_view 0x20 mem) (.refl _) (helperWorld_links hhelpers) placed hbelow (by decide) (by decide)
    obtain rfl : [b] = bytes := Option.some.inj (hload.symm.trans hload')
    generalize Builder.exec _ _ _ _ = o at hends ⊢
    cases o with
    | done τ => exact ⟨τ, u, rfl, hends, hu⟩
    | _ => cases hends
  have loaded : cellMemory.load 0x10A 1 = some [250] := by decide
  obtain ⟨τ, u, hexec, hview, hu⟩ := turn cellMemory 250 cellMemory_below loaded
  have below : u.mem.Below 65536 := by
    rw [hu]
    exact cellMemory_below.write (cellMemory_below.covers_iff.mpr (.inr (by decide)))
  have loaded' : u.mem.load 0x10A 1 = some [4] := by
    rw [hu]
    decide
  obtain ⟨τ', u', hexec', hview', hu'⟩ := turn u.mem 4 below loaded'
  have run : AtomicRun someHost 0 0x10A 1 cellMemory [addTen 250, addTen 4] u'.mem := by
    have second : AtomicRun someHost 0 0x10A 1 u.mem [addTen 4] u'.mem :=
      @AtomicRun.step _ _ _ _ _ t _ _ _ t.builder _ τ' [0x10A] 0x10A 4 [] { mem := u.mem } u' [] _ site rfl rfl rfl rfl
        (helperWorld_links hhelpers) (.refl _) (beforeAtomic_view 0x20 u.mem) hexec' hview' (.nil _)
    exact @AtomicRun.step _ _ _ _ _ t _ _ _ t.builder _ τ [0x10A] 0x10A 250 [] { mem := cellMemory } u _ _ site rfl rfl rfl rfl
      (helperWorld_links hhelpers) (.refl _) (beforeAtomic_view 0x20 cellMemory) hexec hview second
  obtain ⟨-, hmem', orders⟩ := runs someHost 0 0x10A 1 65536 cellMemory u'.mem cellMemory _ 250 run
    ⟨by decide, fun a _ => congrArg cellMemory (Nat.zero_add a)⟩ cellMemory_below (by decide) (by decide) loaded
  have threads : Interleaves [[addTen 4], [addTen 250]] [addTen 250, addTen 4] :=
    @Interleaves.step _ [[addTen 4]] [] _ _ _ (@Interleaves.step _ [] [[]] _ _ _ (.nil (by simp)))
  refine ⟨t, u, u'.mem, ht, ?_, by rw [hu]; decide, run, by rw [hmem']; decide, ?_⟩
  · rw [hexec]
    exact hview
  · exact orders .add (by decide) (by decide) (by simp [addTen]) _ threads

end SpidirWasm.Jit
