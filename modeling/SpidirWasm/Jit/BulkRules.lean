import SpidirWasm.Jit.Bulk

/-! The bulk operations against the rules of wasm. A bulk operation that leaves its bounds
traps and changes nothing; the code traps at the first byte that faults, and if there is no
byte, not at all. -/

namespace SpidirWasm.Jit

open Checked
open Spidir
open SpidirWasm.Host (Runtime memoryReserveSize)

/-- What a rule with bounds asks for: the new memory inside them, a trap that changes
nothing outside. -/
def Follows {α : Type} (inBounds : Prop) (before after : Memory UInt8) (mem : α → Memory UInt8) : Outcome Store α → Prop
  | .done a => inBounds ∧ mem a = after
  | .trap s => ¬inBounds ∧ s.mem = before
  | _ => False

theorem Follows.bind_iff {inBounds : Prop} {before after : Memory UInt8} {o : Outcome Store (Word × Store)} :
    Follows inBounds before after Store.mem (o.bind fun p => .done p.2) ↔ Follows inBounds before after (fun p => p.2.mem) o := by
  cases o <;> exact Iff.rfl

namespace Platform

variable {H : Platform} {dst : Word} {n : ℕ} {value value' : ℕ → Option UInt8} {s : Store}

theorem put_congr (h : ∀ i < n, value i = value' i) : H.put dst n value s = H.put dst n value' s := by
  rw [put, put, Memory.putBytes_congr fun i hi => h i (mem_order.mp hi)]

/-- In all orders, writing a range follows the rule if all of it can be written, or if
every byte that can be written has its value already. -/
theorem put_follows_iff : (∀ H : Platform, Follows (∀ i < n, s.mem.Puts dst.toNat value i) s.mem (overwrite dst.toNat n value s.mem)
      (fun p => p.2.mem) (H.put dst n value s)) ↔
    (∀ i < n, s.mem.Puts dst.toNat value i) ∨ ∀ i < n, s.mem.Puts dst.toNat value i → s.mem (dst.toNat + i) = value i := by
  by_cases hall : ∀ i < n, s.mem.Puts dst.toNat value i
  · refine ⟨fun _ => .inl hall, fun _ H => ?_⟩
    rw [put_done hall]
    exact ⟨hall, rfl⟩
  · have hsome : ∃ i < n, ¬s.mem.Puts dst.toNat value i := by
      simpa only [not_forall, exists_prop] using hall
    constructor
    · intro hfollows
      refine .inr fun i hi hput => ?_
      obtain ⟨mem, he, hbyte⟩ := put_startingAt hi hput hsome
      have rule := hfollows (startingAt i)
      rw [he] at rule
      obtain ⟨-, hsame⟩ := rule
      rw [← hbyte]
      exact (congrFun hsame _).symm
    · rintro (h | h)
      · exact absurd h hall
      · intro H
        obtain ⟨mem, he, hkept⟩ := put_trap (H := H) hsome
        rw [he]
        refine ⟨hall, ?_⟩
        funext a
        rcases hkept a with hsame | ⟨i, hi, rfl, hput, hval⟩
        · exact hsame
        · exact hval.trans (h i hi hput).symm

@[simp] theorem overwrite_zero (a : ℕ) (mem : Memory UInt8) : overwrite a 0 value mem = mem := by
  funext b
  exact if_neg (by omega)

end Platform

theorem u32_lt (x : Word) : u32 x < 2 ^ 32 := Nat.mod_lt _ (by decide)

/-- A helper sees the operand that it is passed. -/
@[simp] theorem u32_fill (x : Word) : u32 (Word.fill 32 x 0) = u32 x := by
  have low := congrArg BitVec.toNat (Word.setWidth_fill 32 x 0)
  rwa [BitVec.toNat_setWidth, BitVec.toNat_setWidth] at low

theorem u32_ofNat {k : ℕ} (h : k < 2 ^ 32) : u32 (BitVec.ofNat 64 k) = k := by
  rw [u32, BitVec.toNat_ofNat]
  omega

namespace BulkOp

/-- The byte that goes to the `i`-th byte of the destination, if there is one. -/
def source (op : BulkOp) (linear : Memory UInt8) (segment : List UInt8) (src : Word) (i : ℕ) : Option UInt8 :=
  match op with
  | copy => linear (u32 src + i)
  | fill => some ⟨src.setWidth 8⟩
  | init _ _ => segment[u32 src + i]?

/-- The bounds that wasm puts on an operation, on a memory of `size` bytes. -/
def InBounds (op : BulkOp) (size : ℕ) (segment : List UInt8) (n src dst : Word) : Prop :=
  u32 dst + u32 n ≤ size ∧
    match op with
    | copy => u32 src + u32 n ≤ size
    | fill => True
    | init _ _ => u32 src + u32 n ≤ segment.length

/-- The check that the code makes, against the length of the segment in the module. -/
def Admits (op : BulkOp) (n src : Word) : Prop :=
  match op with
  | init _ len => u32 src + u32 n ≤ len
  | _ => True

/-- The state has the segment of an `init`, or a null pointer in its place. -/
def Holds (op : BulkOp) (state : Word) (segment : Option (List UInt8)) (mem : Memory UInt8) : Prop :=
  match op with
  | init offset len => ∃ ptr : Word, mem.load (state + BitVec.ofNat 64 offset).toNat 8 = some (ptr.toBytes 8) ∧
    match segment with
    | none => ptr = 0
    | some bytes => bytes.length = len ∧ (ptr = 0 → bytes = []) ∧ ptr.toNat + len ≤ 2 ^ 64 ∧
      ∀ i < len, mem (ptr.toNat + i) = bytes[i]?
  | _ => True

/-- The operations that the missing checks do not harm. -/
def Harmless (op : BulkOp) (r : Runtime) (segment : List UInt8) (n src dst : Word) : Prop :=
  op.Admits n src → op.InBounds r.size segment n src dst ∨ 0 < u32 n ∧ ∀ i < u32 n, ∀ byte,
    op.source r.memory segment src i = some byte → u32 dst + i < r.size → r.memory (u32 dst + i) = some byte

section Range

variable {op : BulkOp} {base state : Word} {r : Runtime} {s : Store} {n src dst : Word} {value : ℕ → Option UInt8}
  {segment : List UInt8} {i : ℕ}

/-- The pointer to an operand. -/
theorem pointer {mem : Memory UInt8} (hp : Placed base r.memory mem) (x : Word) : (base + x.zext32).toNat = base.toNat + u32 x := by
  have low := u32_lt x
  have fits := hp.fits
  rw [BitVec.toNat_add, Word.toNat_zext32]
  simp only [u32, memoryReserveSize] at *
  omega

/-- A byte from an operand on. -/
theorem byteAt {mem : Memory UInt8} (hp : Placed base r.memory mem) (x : Word) (hi : i < u32 n) :
    mem ((base + x.zext32).toNat + i) = r.memory (u32 x + i) := by
  have low := u32_lt x
  have count := u32_lt n
  rw [pointer hp, Nat.add_assoc, hp.bytes]
  simp only [memoryReserveSize]
  omega

theorem puts_iff (hp : Placed base r.memory s.mem) (hr : r.Ok) (hi : i < u32 n) :
    s.mem.Puts (base + dst.zext32).toNat value i ↔ (value i).isSome ∧ u32 dst + i < r.size := by
  rw [Memory.Puts, byteAt hp dst hi, hr.below]

/-- Bounds in bytes. -/
theorem inBounds_iff (hr : r.Ok) (hn : 0 < u32 n) : op.InBounds r.size segment n src dst ↔
    ∀ i < u32 n, (op.source r.memory segment src i).isSome ∧ u32 dst + i < r.size := by
  have range : ∀ a b : ℕ, a + u32 n ≤ b ↔ ∀ i < u32 n, a + i < b := by
    intro a b
    refine ⟨fun h i hi => by omega, fun h => ?_⟩
    have last := h (u32 n - 1) (by omega)
    omega
  have below : ∀ a, (r.memory a).isSome ↔ a < r.size := hr.below
  rw [forall₂_and]
  cases op with
  | copy => simp only [InBounds, source, below, range, and_comm]
  | fill => simp only [InBounds, source, Option.isSome_some, implies_true, range, and_comm]
  | init offset len => simp only [InBounds, source, isSome_getElem?, range, and_comm]

/-- The code writes the bytes of its source, from a store that was only touched. -/
theorem put_iff (hp : Placed base r.memory s.mem) (hr : r.Ok) (hn : 0 < u32 n)
    (hvalue : ∀ i < u32 n, value i = op.source r.memory segment src i) :
    (∀ H : Platform, Follows (op.InBounds r.size segment n src dst) s.mem
      (Platform.overwrite (base.toNat + u32 dst) (u32 n) (op.source r.memory segment src) s.mem) Store.mem
      ((H.put (base + dst.zext32) (u32 n) value s).bind fun p => .done p.2)) ↔
    op.InBounds r.size segment n src dst ∨ ∀ i < u32 n, ∀ byte,
      op.source r.memory segment src i = some byte → u32 dst + i < r.size → r.memory (u32 dst + i) = some byte := by
  have bounds : op.InBounds r.size segment n src dst ↔
      ∀ i < u32 n, s.mem.Puts (base + dst.zext32).toNat (op.source r.memory segment src) i := by
    rw [inBounds_iff hr hn]
    exact forall₂_congr fun i hi => (puts_iff hp hr hi).symm
  have kept : (∀ i < u32 n, s.mem.Puts (base + dst.zext32).toNat (op.source r.memory segment src) i →
      s.mem ((base + dst.zext32).toNat + i) = op.source r.memory segment src i) ↔
      ∀ i < u32 n, ∀ byte, op.source r.memory segment src i = some byte → u32 dst + i < r.size → r.memory (u32 dst + i) = some byte := by
    refine forall₂_congr fun i hi => ?_
    rw [puts_iff hp hr hi, byteAt hp dst hi]
    constructor
    · intro h byte hbyte hlt
      rw [h ⟨by simp [hbyte], hlt⟩, hbyte]
    · rintro h ⟨hsome, hlt⟩
      obtain ⟨byte, hbyte⟩ := Option.isSome_iff_exists.mp hsome
      rw [h byte hbyte hlt, hbyte]
  simp only [Follows.bind_iff, Platform.put_congr hvalue, ← pointer hp dst]
  rw [bounds, Platform.put_follows_iff, kept]

/-- The rule for the code of an operation. -/
def Rule (op : BulkOp) (base : Word) (r : Runtime) (segment : List UInt8) (n src dst : Word) (before : Memory UInt8) {α : Type}
    (mem : α → Memory UInt8) (o : Outcome Store α) : Prop :=
  Follows (op.InBounds r.size segment n src dst) before
    (Platform.overwrite (base.toNat + u32 dst) (u32 n) (op.source r.memory segment src) before) mem o

/-- Code that skips an operation on no bytes. -/
theorem skip_iff (hn : u32 n = 0) :
    (∀ _ : Platform, op.Rule base r segment n src dst s.mem Store.mem (.done s)) ↔ op.InBounds r.size segment n src dst := by
  simp only [Rule, hn, Platform.overwrite_zero, Follows, and_true]
  exact ⟨fun h => h (Platform.startingAt 0), fun h _ => h⟩

theorem copy_iff (hp : Placed base r.memory s.mem) (hr : r.Ok) :
    (∀ H, copy.Rule base r segment n src dst s.mem Store.mem (copy.perform H base state n src dst s)) ↔
      copy.Harmless r segment n src dst := by
  simp only [perform, Platform.jitHelperMemoryCopy, u32_fill, Harmless, Admits, true_implies]
  by_cases hn : u32 n = 0
  · simp only [hn, ne_eq, not_true_eq_false, if_false, Outcome.done_bind, lt_self_iff_false, false_and, or_false]
    exact skip_iff hn
  · simp only [ne_eq, hn, not_false_eq_true, if_true, Nat.pos_of_ne_zero hn, true_and, Platform.copy]
    exact put_iff (s := (s.touch (base + src.zext32).toNat (u32 n)).touch (base + dst.zext32).toNat (u32 n)) hp hr
      (Nat.pos_of_ne_zero hn) fun i hi => byteAt hp src hi

theorem fill_iff (hp : Placed base r.memory s.mem) (hr : r.Ok) :
    (∀ H, fill.Rule base r segment n src dst s.mem Store.mem (fill.perform H base state n src dst s)) ↔
      fill.Harmless r segment n src dst := by
  simp only [perform, Platform.jitHelperMemoryFill, u32_fill, Harmless, Admits, true_implies]
  by_cases hn : u32 n = 0
  · simp only [hn, ne_eq, not_true_eq_false, if_false, Outcome.done_bind, lt_self_iff_false, false_and, or_false]
    exact skip_iff hn
  · simp only [ne_eq, hn, not_false_eq_true, if_true, Nat.pos_of_ne_zero hn, true_and, Platform.fill]
    refine put_iff (s := s.touch (base + dst.zext32).toNat (u32 n)) hp hr (Nat.pos_of_ne_zero hn) fun i hi => ?_
    rw [Word.setWidth_fill_of_le (by decide)]
    rfl

/-- A trap without a write follows the rule out of bounds. -/
theorem trap_iff {u : Store} (hu : u.mem = s.mem) (h : ¬op.InBounds r.size segment n src dst) :
    ∀ _ : Platform, op.Rule base r segment n src dst s.mem Store.mem (.trap u) := fun _ => ⟨h, hu⟩

/-- `memory.init` of a segment whose pointer is in its slot, or is null. -/
theorem init_iff {offset len : ℕ} {segment : Option (List UInt8)} (hp : Placed base r.memory s.mem) (hr : r.Ok)
    (hlen : len < 2 ^ 32) (hheld : (init offset len).Holds state segment s.mem) :
    (∀ H, (init offset len).Rule base r (segment.getD []) n src dst s.mem Store.mem ((init offset len).perform H base state n src dst s)) ↔
      (init offset len).Harmless r (segment.getD []) n src dst := by
  obtain ⟨ptr, hload, hheld⟩ := hheld
  have word : Word.ofBytes (ptr.toBytes 8) = ptr := by simp [Word.ofBytes_toBytes]
  have le : (segment.getD []).length ≤ len := by
    cases segment with
    | none => exact Nat.zero_le _
    | some bytes => exact hheld.1.le
  let u := s.touch (state + BitVec.ofNat 64 offset).toNat 8
  simp only [perform, MemoryOp.load_found hload, Outcome.done_bind, word, Platform.jitHelperMemoryInit, u32_fill, u32_ofNat hlen]
  by_cases hadmits : u32 src + u32 n ≤ len
  · have admits : (init offset len).Admits n src := hadmits
    simp only [if_pos hadmits, Harmless, admits, true_implies]
    by_cases hn : u32 n = 0
    · simp only [hn, ne_eq, not_true_eq_false, if_false, Outcome.done_bind, lt_self_iff_false, false_and, or_false]
      exact skip_iff (s := u) hn
    have hpos := Nat.pos_of_ne_zero hn
    simp only [ne_eq, hn, not_false_eq_true, if_true, hpos, true_and]
    by_cases hnull : ptr = 0
    · have empty : segment.getD [] = [] := by
        cases segment with
        | none => rfl
        | some bytes => exact hheld.2.1 hnull
      have out : ¬(init offset len).InBounds r.size [] n src dst := fun h => absurd h.2 (by simp; omega)
      simp only [hnull, not_true_eq_false, if_false, Outcome.trap_bind, empty]
      exact ⟨fun _ => .inr fun i _ byte hbyte => by simp [source] at hbyte, fun _ => trap_iff rfl out⟩
    · simp only [hnull, not_false_eq_true, if_true]
      cases segment with
      | none => exact absurd hheld hnull
      | some bytes =>
        obtain ⟨-, -, hfits, hbytes⟩ := hheld
        refine put_iff (s := (u.touch (ptr + BitVec.ofNat 64 (u32 src)).toNat (u32 n)).touch (base + dst.zext32).toNat (u32 n)) hp hr hpos
          fun i hi => ?_
        have start : (ptr + BitVec.ofNat 64 (u32 src)).toNat = ptr.toNat + u32 src := by
          have low := u32_lt src
          rw [BitVec.toNat_add, BitVec.toNat_ofNat]
          omega
        show s.mem ((ptr + BitVec.ofNat 64 (u32 src)).toNat + i) = bytes[u32 src + i]?
        rw [start, Nat.add_assoc, hbytes _ (by omega)]
  · simp only [if_neg hadmits, Outcome.trap_bind]
    have out : ¬(init offset len).InBounds r.size (segment.getD []) n src dst := fun h => hadmits (h.2.trans le)
    exact ⟨fun _ h => absurd h hadmits, fun _ => trap_iff rfl out⟩

/-- The length of a segment is a `uint32_t`. -/
def Fits : BulkOp → Prop
  | init _ len => len < 2 ^ 32
  | _ => True

/-- Every bulk operation follows its rule, whatever the order of the writes, where the
missing checks do no harm. -/
theorem perform_iff {segment : Option (List UInt8)} (hp : Placed base r.memory s.mem) (hr : r.Ok) (hfits : op.Fits)
    (hheld : op.Holds state segment s.mem) :
    (∀ H, op.Rule base r (segment.getD []) n src dst s.mem Store.mem (op.perform H base state n src dst s)) ↔
      op.Harmless r (segment.getD []) n src dst := by
  cases op with
  | copy => exact copy_iff hp hr
  | fill => exact fill_iff hp hr
  | init offset len => exact init_iff hp hr hfits hheld

end Range

end BulkOp

theorem segmentOp_fits {c : JitContext} {dataidx : ℕ} {op : BulkOp} (hm : c.module.Valid) (h : segmentOp c dataidx = some op) :
    op.Fits := by
  simp only [segmentOp, Option.bind_eq_bind, Option.pure_def, Option.bind_eq_some_iff, Option.some.injEq] at h
  obtain ⟨data, -, offset, -, segment, hsegment, rfl⟩ := h
  exact (hm.data segment (List.mem_of_getElem? hsegment)).length

theorem pullBulkOp_fits {c : JitContext} {code code' : Buffer} {op : BulkOp} (hm : c.module.Valid)
    (h : pullBulkOp c code = some (op, code')) : op.Fits := by
  simp only [pullBulkOp, bind_eq_some, check_eq_some] at h
  obtain ⟨_, _, -, _, _, -, sub, _, -, h⟩ := h
  split_ifs at h
  · simp only [bind_eq_some, lift_eq_some] at h
    obtain ⟨_, _, -, _, _, -, op', hop, he⟩ := h
    obtain ⟨rfl, -⟩ := Prod.mk.inj he
    exact segmentOp_fits hm hop
  · simp only [bind_eq_some, pure_eq_some] at h
    obtain ⟨_, _, -, _, _, -, he⟩ := h
    obtain ⟨rfl, -⟩ := Prod.mk.inj he
    trivial
  · simp only [bind_eq_some, pure_eq_some] at h
    obtain ⟨_, _, -, _, _, -, he⟩ := h
    obtain ⟨rfl, -⟩ := Prod.mk.inj he
    trivial

/-- The rule reads the store that a run ends with. -/
theorem Ends.rule_iff {t : EmitState} {o : Outcome Store Store} {e : Outcome Store Machine} {stack : List (ValueType × Word)}
    {op : BulkOp} {base : Word} {r : Runtime} {segment : List UInt8} {n src dst : Word} {before : Memory UInt8}
    (h : Ends t (o.bind fun s => .done { stack, shared := s }) e) :
    op.Rule base r segment n src dst before (fun σ : Machine => σ.mem) e ↔ op.Rule base r segment n src dst before Store.mem o := by
  rcases o with u | u | u | _ <;> rcases e with τ | u' | u' | _ <;> simp only [Outcome.done_bind, Outcome.trap_bind,
    Outcome.diverge_bind, Outcome.unknown_bind, Ends] at h
  · have same : τ.toStore = u := h.shared
    rw [← same]
    exact Iff.rfl
  · rw [h]
    exact Iff.rfl
  · exact Iff.rfl
  · exact Iff.rfl

/-- Every accepted bulk instruction, on every memory that a run reaches and for every state
of its segment: the code follows the rule of wasm, in whatever order the bytes are
written, if and only if the missing checks do no harm. -/
theorem bulk_rules_iff {data : List UInt8} {m : Wasm.WasmModule} {reserved committed : Bool}
    {r₀ r : Runtime} {ops : List Host.Op} (hload : Wasm.wasmLoadModule data = some m)
    (hinit : Host.runtimeInit m reserved committed = .done r₀) (hrun : Host.run ops r₀ = some r)
    {s t : JitState} {code code' : Buffer} {sub : ℕ} (hmodule : s.ctx.module = m) (hlive : s.live = true)
    (hopcode : bufferPullU8 s.code = some (bulkPrefix, code)) (hsub : bufferPullU32 code = some (sub, code'))
    (hbulk : sub = 8 ∨ sub = 10 ∨ sub = 11) (h : jitWasmOpcode s = some ((), t)) :
    ∃ op, pullBulkOp s.ctx s.code = some (op, t.code) ∧
      ∀ (W : Platform → World) B σ view n src dst rest base state segment,
        (∀ H, Links (Platform.helper H) (W H) t.ctx ∧ (W H).param 0 = base ∧ (W H).param 1 = state) →
        View.Of view s.toEmitState σ → t.builder.Extends B →
        view.stack = (.i32, n) :: (.i32, src) :: (.i32, dst) :: rest →
        Placed base r.memory view.shared.mem → op.Holds state segment view.shared.mem →
        ((∀ H, op.Rule base r (segment.getD []) n src dst view.shared.mem (fun τ => τ.mem)
            (B.exec (W H) (s.builder.since t.builder) σ)) ↔
          op.Harmless r (segment.getD []) n src dst) := by
  obtain ⟨hr₀, -⟩ := Host.runtimeInit_ok hload hinit
  obtain ⟨hr, -⟩ := Host.run_ok hr₀ hrun
  obtain ⟨l, hl, rfl, -⟩ := Wasm.wasmLoadModule_staged hload
  obtain ⟨op, e, hpull, he, hperf⟩ := jitWasmOpcode_bulk hlive hopcode hsub hbulk h
  have fits : op.Fits := pullBulkOp_fits (hmodule ▸ hl.toValid) hpull
  refine ⟨op, hpull, fun W B σ view n src dst rest base state segment hW hview hB hstack hp hheld => ?_⟩
  rw [← BulkOp.perform_iff hp hr fits hheld]
  refine forall_congr' fun H => ?_
  obtain ⟨hlinks, hbase, hstate⟩ := hW H
  obtain ⟨o, rfl, hends⟩ := (hperf H (W H) view n src dst rest hstack _ _ _ he).2 σ B hview hB hlinks
  rw [hends.rule_iff, hbase, hstate]

/-! A fill of two bytes. -/

/-- In front of `memory.fill`, with three constants on the stack. -/
def beforeFill : JitState where
  code := ⟨0, [0xFC, 11, 0]⟩
  ctx := { module := { memory := ⟨65536, 262144, false⟩ } }
  func := { labels := [{ stack := [⟨some 0, .i32⟩, ⟨some 1, .i32⟩, ⟨some 2, .i32⟩] }] }
  builder := (((({ params := [.ptr, .ptr] } : Builder).createBlock.setBlock 0).build (.iconst .i32 0)).build
    (.iconst .i32 0)).build (.iconst .i32 0)

/-- A machine with the operands 2, 7 and `dst`. -/
def fillMachine (mem : Memory UInt8) (dst : Word) : Machine where
  mem := mem
  reg n := if n = 0 then 2 else if n = 1 then 7 else dst

theorem beforeFill_view (mem : Memory UInt8) (dst : Word) :
    View.Of { stack := [(.i32, 2), (.i32, 7), (.i32, dst)], shared := { mem } } beforeFill.toEmitState
      (fillMachine mem dst) := by
  refine ⟨ok_of_nothing rfl fun _ => rfl, ⟨rfl, rfl⟩, fun f hf => False.elim hf, ⟨_, [], rfl, ?_⟩, rfl⟩
  exact .cons ⟨rfl, 0, rfl, by decide, rfl, Word.setWidth_fill 32 2 0⟩
    (.cons ⟨rfl, 1, rfl, by decide, rfl, Word.setWidth_fill 32 7 0⟩
    (.cons ⟨rfl, 2, rfl, by decide, rfl, Word.setWidth_fill 32 dst 0⟩ .nil))

/-- A world in which every call is one of `memory.fill`. -/
def fillWorld (H : Platform) : World where
  call _ := H.helper .memoryFill

theorem fillWorld_links (H : Platform) {t : JitState} (h : jitWasmOpcode beforeFill = some ((), t)) :
    Links H.helper (fillWorld H) t.ctx := by
  intro k f hf
  have only : (jitWasmOpcode beforeFill).map (fun p => p.2.ctx.helpers) =
      some (Function.update (fun _ => none) .memoryFill (some ⟨true, 0, .none, [.ptr, .i32, .i32]⟩)) := rfl
  have only' : t.ctx.helpers =
      Function.update (fun _ => none) .memoryFill (some ⟨true, 0, .none, [.ptr, .i32, .i32]⟩) := by
    simpa [h] using only
  rw [only'] at hf
  by_cases hk : k = .memoryFill
  · rw [hk]
    rfl
  · rw [Function.update_of_ne hk] at hf
    cases hf

/-- A host that writes from the first byte on. -/
def ascending : Platform where
  order_perm _ _ := .refl _

/-- Two bytes from the last one on: the first is written before the second faults. -/
theorem bulk_rules_fill_past_the_end : ∃ r t, Host.run [] (.fresh { memory := ⟨65536, 262144, false⟩ }) = some r ∧
    jitWasmOpcode beforeFill = some ((), t) ∧ pullBulkOp beforeFill.ctx beforeFill.code = some (.fill, t.code) ∧
    Links (Platform.helper ascending) (fillWorld ascending) t.ctx ∧ Placed 0 r.memory (fillMachine r.memory 65535).mem ∧
    View.Of { stack := [(.i32, 2), (.i32, 7), (.i32, 65535)], shared := { mem := r.memory } }
      beforeFill.toEmitState (fillMachine r.memory 65535) ∧
    ¬BulkOp.fill.Rule 0 r [] 2 7 65535 r.memory (fun τ => τ.mem)
      (t.builder.exec (fillWorld ascending) (beforeFill.builder.since t.builder) (fillMachine r.memory 65535)) := by
  let m : Wasm.WasmModule := { memory := ⟨65536, 262144, false⟩ }
  have accepted : (jitWasmOpcode beforeFill).map (fun p => (p.2.code,
      (p.2.builder.exec (fillWorld ascending) (beforeFill.builder.since p.2.builder)
        (fillMachine (Host.Runtime.fresh m).memory 65535)).trapped.bind (·.mem 65535))) = some (⟨0, []⟩, some 7) := by decide +kernel
  have before : (Host.Runtime.fresh m).memory 65535 = some 0 := by decide +kernel
  have instr : pullBulkOp beforeFill.ctx beforeFill.code = some (.fill, ⟨0, []⟩) := by decide +kernel
  obtain ⟨⟨_, t⟩, ht, he⟩ := Option.map_eq_some_iff.mp accepted
  obtain ⟨hcode, he⟩ := Prod.mk.inj he
  refine ⟨.fresh m, t, rfl, ht, ?_, fillWorld_links _ ht, ⟨by decide, fun a _ => ?_⟩, beforeFill_view _ _, ?_⟩
  · rw [instr, hcode]
  · exact congrArg _ (Nat.zero_add a)
  · intro rule
    dsimp only at he
    revert he rule
    cases t.builder.exec (fillWorld ascending) (beforeFill.builder.since t.builder)
        (fillMachine (Host.Runtime.fresh m).memory 65535) with
    | trap u =>
      rintro he ⟨-, hmem⟩
      have same : u.mem 65535 = (Host.Runtime.fresh m).memory 65535 := congrFun hmem _
      rw [before] at same
      have written : u.mem 65535 = some 7 := he
      cases same.symm.trans written
    | _ =>
      intro he
      cases he

/-- Two bytes inside the page. -/
theorem bulk_rules_iff_fill : ∃ r t, Host.run [] (.fresh { memory := ⟨65536, 262144, false⟩ }) = some r ∧
    jitWasmOpcode beforeFill = some ((), t) ∧ ∀ H : Platform, BulkOp.fill.Rule 0 r [] 2 7 16 r.memory (fun τ => τ.mem)
      (t.builder.exec (fillWorld H) (beforeFill.builder.since t.builder) (fillMachine r.memory 16)) := by
  have loads : Wasm.wasmLoadModule Host.growingModule = some { memory := ⟨65536, 262144, false⟩ } := by decide +kernel
  have init : Host.runtimeInit { memory := ⟨65536, 262144, false⟩ } true true =
      .done (.fresh { memory := ⟨65536, 262144, false⟩ }) := rfl
  have accepted : (jitWasmOpcode beforeFill).isSome := rfl
  have instr : pullBulkOp beforeFill.ctx beforeFill.code = some (.fill, ⟨0, []⟩) := by decide +kernel
  obtain ⟨⟨_, t⟩, ht⟩ := Option.isSome_iff_exists.mp accepted
  let r : Runtime := .fresh { memory := ⟨65536, 262144, false⟩ }
  have opcode : bufferPullU8 beforeFill.code = some (bulkPrefix, ⟨0xFC, [11, 0]⟩) := rfl
  have sub : bufferPullU32 ⟨0xFC, [11, 0]⟩ = some (11, ⟨11, [0]⟩) := by decide +kernel
  have runs : Host.run [] r = some r := rfl
  obtain ⟨op, hop, rule⟩ := bulk_rules_iff loads init runs rfl rfl opcode sub (.inr (.inr rfl)) ht
  rw [instr] at hop
  obtain ⟨rfl, -⟩ := Prod.mk.inj (Option.some.inj hop)
  have inBounds : BulkOp.fill.InBounds r.size [] 2 7 16 := ⟨by decide +kernel, trivial⟩
  refine ⟨r, t, rfl, ht, ?_⟩
  refine (rule fillWorld t.builder (fillMachine r.memory 16) _ 2 7 16 [] 0 0 none
    (fun H => ⟨fillWorld_links H ht, rfl, rfl⟩) (beforeFill_view _ _) (.refl _) rfl
    ⟨by decide, fun a _ => ?_⟩ trivial).mpr fun _ => .inl inBounds
  exact congrArg _ (Nat.zero_add a)

end SpidirWasm.Jit
