import Mathlib.Data.BitVec
import SpidirWasm.Jit.BulkRules
import SpidirWasm.Jit.StateOps

/-! Runs of an instance. Every slot of the state holds what the run put there last, or what
the image held, and no instruction touches the slot of another global or segment. -/

namespace SpidirWasm.Jit

open Spidir
open SpidirWasm.Host (memoryReserveSize)
open Wasm (WasmModule)

/-- An executed instruction, with its operands. -/
structure Event where
  op : StateOp
  operands : List (ValueType × Word) := []

/-- The value that an event sets a global to. -/
def Event.stored (index : ℕ) (e : Event) : Option Word :=
  match e.op, e.operands with
  | .set i, (_, x) :: _ => if i = index then some x else none
  | _, _ => none

/-- The last value that a run sets a global to. -/
def lastSet (es : List Event) (index : ℕ) : Option Word := es.reverse.findSome? (Event.stored index)

/-- Whether a run drops a segment. -/
def dropped (es : List Event) (dataidx : ℕ) : Bool := es.any fun e => e.op = .drop dataidx

/-- The value of a global after a run: the last one that it was set to, or else the
declared one. -/
def globalAfter (m : WasmModule) (es : List Event) (index : ℕ) : Word :=
  (lastSet es index).getD (BitVec.ofNat 64 ((m.globals[index]?.map fun global => global.value.bits).getD 0))

/-- The pointer to a segment after a run, which is null once it is dropped. -/
def pointerAfter (pointer : ℕ → Word) (es : List Event) (dataidx : ℕ) : Word :=
  if dropped es dataidx then 0 else pointer dataidx

/-- The code of an instruction on the state, run from a view of its operands and what is
below them. -/
structure Turn (H : Platform) (c : JitContext) (base state : Word) (e : Event) (rest : List (ValueType × Word)) (view : View)
    (s t : JitState) (o : Outcome Store Machine) : Prop where
  module : s.ctx.module = c.module
  globals : s.ctx.globals = c.globals
  data : s.ctx.data = c.data
  live : s.live = true
  reads : pullStateOp s.code = some (e.op, t.code)
  accepts : jitWasmOpcode s = some ((), t)
  operands : e.operands.map Prod.fst = e.op.takes c
  stack : view.stack = e.operands ++ rest
  runs : ∃ W B σ, View.Of view s.toEmitState σ ∧ t.builder.Extends B ∧ Links H.helper W t.ctx ∧ W.param 0 = base ∧
    W.param 1 = state ∧ o = B.exec W (s.builder.since t.builder) σ

/-- A run on an instance, by its events; between them the state is left alone. -/
inductive StateRun (c : JitContext) (stateSize : ℕ) (base state : Word) (start : Store) : List Event → Store → Prop
  | start : StateRun c stateSize base state start [] start
  | turn {H : Platform} {es : List Event} {e : Event} {rest : List (ValueType × Word)} {view : View} {s t : JitState} {τ : Machine} :
    StateRun c stateSize base state start es view.shared → Turn H c base state e rest view s t (.done τ) →
    StateRun c stateSize base state start (es ++ [e]) τ.toStore
  | other {es : List Event} {s u : Store} : StateRun c stateSize base state start es s →
    (∀ a < stateSize, u.mem (state.toNat + a) = s.mem (state.toNat + a)) → StateRun c stateSize base state start es u

/-- Where the state lies: in the address space, beside the reservation of the memory. -/
structure Beside (base state : Word) (stateSize : ℕ) : Prop where
  fits : state.toNat + stateSize ≤ 2 ^ 64
  reservation : base.toNat + memoryReserveSize ≤ 2 ^ 64
  disjoint : state.toNat + stateSize ≤ base.toNat ∨ base.toNat + memoryReserveSize ≤ state.toNat

/-! ### The content of the slots -/

/-- Every slot holds the low bytes of its word. -/
def JitContext.Represents (c : JitContext) (state : Word) (content : ℕ → Word) (mem : Memory UInt8) : Prop :=
  ∀ i offset size, c.slots[i]? = some (some (offset, size)) →
    mem.load (state.toNat + offset) size = some ((content i).toBytes size)

/-- What the slots hold after a run. -/
def JitContext.contentAfter (c : JitContext) (pointer : ℕ → Word) (es : List Event) (i : ℕ) : Word :=
  if i < c.globals.length then globalAfter c.module es i else pointerAfter pointer es (i - c.globals.length)

section Content

variable {c : JitContext} {stateSize : ℕ} {base state x : Word} {content : ℕ → Word} {mem mem' : Memory UInt8} {i j offset size : ℕ}
  {pointer : ℕ → Word} {es : List Event} {e : Event}

theorem JitContext.size_pos (hi : c.slots[i]? = some (some (offset, size))) : 0 < size := by
  have mem := List.mem_of_getElem? hi
  rw [JitContext.slots, List.mem_append, List.mem_map, List.mem_map] at mem
  rcases mem with ⟨g, -, hg⟩ | ⟨d, -, hd⟩
  · simp only [JitGlobal.slot, Option.bind_eq_some_iff, Option.map_eq_some_iff, Prod.mk.injEq] at hg
    obtain ⟨_, -, size', hsize, -, rfl⟩ := hg
    exact jitGetSpidirSize_pos hsize
  · simp only [JitData.slot, Option.map_eq_some_iff, Prod.mk.injEq] at hd
    obtain ⟨_, -, -, rfl⟩ := hd
    decide

/-- The code finds a slot by its offset. -/
theorem JitContext.HasState.address (h : c.HasState stateSize) (hb : Beside base state stateSize)
    (hi : c.slots[i]? = some (some (offset, size))) : (state + BitVec.ofNat 64 offset).toNat = state.toNat + offset := by
  have inside := (h.laid.inside hi).2.2
  have pos := c.size_pos hi
  have fits := hb.fits
  rw [BitVec.toNat_add, BitVec.toNat_ofNat]
  omega

/-- A store into a slot. -/
theorem JitContext.Represents.write (hr : c.Represents state content mem) (h : c.HasState stateSize)
    (hi : c.slots[i]? = some (some (offset, size))) :
    c.Represents state (Function.update content i x) (mem.write (state.toNat + offset) (x.toBytes size)) := by
  intro j offset' size' hj
  by_cases hij : j = i
  · subst hij
    obtain ⟨rfl, rfl⟩ := Prod.mk.inj (Option.some.inj (Option.some.inj (hi.symm.trans hj)))
    have written := Memory.load_write_self mem (state.toNat + offset) (x.toBytes size)
    rw [Word.length_toBytes] at written
    rw [Function.update_self, written]
  · rw [Function.update_of_ne hij, Memory.load_write_of_disjoint, hr j offset' size' hj]
    have apart := h.laid.disjoint hij hj hi
    rw [Word.length_toBytes]
    omega

/-- Nothing else matters. -/
theorem JitContext.Represents.frame (hr : c.Represents state content mem) (h : c.HasState stateSize)
    (hsame : ∀ a < stateSize, mem' (state.toNat + a) = mem (state.toNat + a)) : c.Represents state content mem' := by
  intro j offset size hj
  have inside := (h.laid.inside hj).2.2
  rw [← hr j offset size hj]
  apply Memory.load_congr
  intro i hi
  rw [Nat.add_assoc]
  exact hsame _ (by omega)

theorem lastSet_append (index : ℕ) : lastSet (es ++ [e]) index = (e.stored index).or (lastSet es index) := by
  rw [lastSet, List.reverse_append, List.reverse_singleton, List.singleton_append, List.findSome?_cons]
  cases e.stored index <;> rfl

theorem dropped_append (dataidx : ℕ) : dropped (es ++ [e]) dataidx = (dropped es dataidx || decide (e.op = .drop dataidx)) := by
  simp [dropped]

/-- A set changes one global. -/
theorem JitContext.contentAfter_set {operands : List (ValueType × Word)} {type : ValueType} (hi : i < c.globals.length) :
    c.contentAfter pointer (es ++ [⟨.set i, (type, x) :: operands⟩]) = Function.update (c.contentAfter pointer es) i x := by
  funext j
  by_cases hij : j = i
  · subst hij
    simp [contentAfter, hi, globalAfter, lastSet_append, Event.stored]
  · rw [Function.update_of_ne hij]
    simp [contentAfter, globalAfter, pointerAfter, lastSet_append, dropped_append, Event.stored, Ne.symm hij]

/-- A drop changes one segment. -/
theorem JitContext.contentAfter_drop {operands : List (ValueType × Word)} : c.contentAfter pointer (es ++ [⟨.drop i, operands⟩]) =
    Function.update (c.contentAfter pointer es) (c.globals.length + i) 0 := by
  funext j
  by_cases hij : j = c.globals.length + i
  · subst hij
    simp [contentAfter, pointerAfter, dropped_append]
  · rw [Function.update_of_ne hij]
    simp only [contentAfter]
    split_ifs with hj
    · simp [globalAfter, lastSet_append, Event.stored]
    · have other : i ≠ j - c.globals.length := by omega
      simp [pointerAfter, dropped_append, other]

theorem Event.stored_other (hset : ∀ i, e.op ≠ .set i) (index : ℕ) : e.stored index = none := by
  rw [Event.stored]
  split
  · rename_i i _ _ _ hop _
    exact absurd hop (hset i)
  · rfl

/-- The other instructions change nothing. -/
theorem JitContext.contentAfter_other (hset : ∀ i, e.op ≠ .set i) (hdrop : ∀ i, e.op ≠ .drop i) :
    c.contentAfter pointer (es ++ [e]) = c.contentAfter pointer es := by
  funext j
  simp [contentAfter, globalAfter, pointerAfter, lastSet_append, dropped_append, Event.stored_other hset, hdrop]

end Content

/-! ### One instruction -/

theorem StateOp.yields_congr {H : Platform} {c c' : JitContext} {base state : Word} {operands rest : List (ValueType × Word)}
    {s : Store} {o : Outcome Store View} {op : StateOp} (hmodule : c'.module = c.module) (hglobals : c'.globals = c.globals)
    (hdata : c'.data = c.data) (h : op.Yields H c' base state operands rest s o) : op.Yields H c base state operands rest s o := by
  cases op <;> simpa only [StateOp.Yields, hmodule, hglobals, hdata] using h

section Turns

variable {H : Platform} {c : JitContext} {stateSize : ℕ} {base state : Word} {e : Event} {rest : List (ValueType × Word)}
  {view : View} {s t : JitState} {o : Outcome Store Machine} {pointer : ℕ → Word} {es : List Event}

theorem Turn.outcome (h : Turn H c base state e rest view s t o) :
    ∃ o', e.op.Yields H c base state e.operands rest view.shared o' ∧ Ends t.toEmitState o' o := by
  obtain ⟨W, B, σ, hview, hB, hlinks, rfl, rfl, rfl⟩ := h.runs
  obtain ⟨-, m, hm, hperf⟩ := jitWasmOpcode_stateOp h.live h.reads h.accepts
  have takes : e.operands.map Prod.fst = e.op.takes s.ctx := by
    rw [h.operands]
    cases e.op <;> simp only [StateOp.takes, h.globals]
  obtain ⟨o', ho, hends⟩ := (hperf H W view e.operands rest takes h.stack _ _ _ hm).2 σ B hview hB hlinks
  exact ⟨o', StateOp.yields_congr h.module h.globals h.data ho, hends⟩

/-- What a run asks of the next instruction: a read yields the last value that was set, a
write succeeds, and `memory.init` hands its helper the pointer of the segment, or null. -/
def Event.Follows (H : Platform) (c : JitContext) (pointer : ℕ → Word) (base : Word) (es : List Event) (rest : List (ValueType × Word))
    (s : Store) (t : EmitState) (o : Outcome Store Machine) (e : Event) : Prop :=
  match e.op with
  | .get index => ∃ g u, c.globals[index]? = some g ∧ u.mem = s.mem ∧
    Ends t (.done { stack := (g.type, globalAfter c.module es index) :: rest, shared := u }) o
  | .init dataidx => ∃ segment n src dst u, c.module.data[dataidx]? = some segment ∧
    e.operands = [(.i32, n), (.i32, src), (.i32, dst)] ∧ u.mem = s.mem ∧
    Ends t ((H.jitHelperMemoryInit (base + Word.zext32 dst) (pointerAfter pointer es dataidx)
      (BitVec.ofNat 64 segment.data.length) src n u).bind fun p => .done { stack := rest, shared := p.2 }) o
  | _ => ∃ u, Ends t (.done { stack := rest, shared := u }) o

/-- What is known after a run: the slots hold their content, and no constant was set. -/
structure Tracks (c : JitContext) (state : Word) (pointer : ℕ → Word) (es : List Event) (mem : Memory UInt8) : Prop where
  slots : c.Represents state (c.contentAfter pointer es) mem
  constants : ∀ i g, c.globals[i]? = some g → g.slot = none → lastSet es i = none

/-- Only the low bits of an operand matter. -/
theorem Ends.retop {t : EmitState} {type : ValueType} {x y : Word} {u : Store}
    (h : Ends t (.done { stack := (type, y) :: rest, shared := u }) o) (hxy : y.setWidth type.width = x.setWidth type.width) :
    Ends t (.done { stack := (type, x) :: rest, shared := u }) o := by
  cases o with
  | done τ =>
    obtain ⟨hctx, hparams, hfacts, ⟨l, ls, hl, hstack⟩, hshared⟩ := h
    obtain ⟨v, vs, ⟨htype, n, hv, hn, hnode, hread⟩, hrest, he⟩ := List.forall₂_cons_right_iff.mp hstack
    refine ⟨hctx, hparams, hfacts, ⟨l, ls, hl, ?_⟩, hshared⟩
    rw [he]
    exact .cons ⟨htype, n, hv, hn, hnode, hread.trans hxy⟩ hrest
  | _ => cases h

/-- A slot is found where the code looks for it. -/
theorem Tracks.load {i offset size : ℕ} (ht : Tracks c state pointer es view.shared.mem) (hs : c.HasState stateSize)
    (hb : Beside base state stateSize) (hi : c.slots[i]? = some (some (offset, size))) :
    view.shared.mem.load (state + BitVec.ofNat 64 offset).toNat size = some ((c.contentAfter pointer es i).toBytes size) := by
  rw [hs.address hb hi]
  exact ht.slots i offset size hi

/-- A store into a slot succeeds. -/
theorem Tracks.store {i offset size : ℕ} (ht : Tracks c state pointer es view.shared.mem) (hs : c.HasState stateSize)
    (hb : Beside base state stateSize) (hi : c.slots[i]? = some (some (offset, size))) (x : Word) :
    view.shared.store (state + BitVec.ofNat 64 offset).toNat (x.toBytes size) =
      .done { view.shared.touch (state.toNat + offset) size with
        mem := view.shared.mem.write (state.toNat + offset) (x.toBytes size) } := by
  have found := ht.slots i offset size hi
  rw [hs.address hb hi, MemoryOp.store_of_load found (Word.length_toBytes _ _)]

theorem Turn.get_follows {index : ℕ} (h : Turn H c base state e rest view s t o) (he : e.op = .get index)
    (hs : c.HasState stateSize) (hb : Beside base state stateSize) (ht : Tracks c state pointer es view.shared.mem) :
    ∃ g u, c.globals[index]? = some g ∧ u.mem = view.shared.mem ∧
      Ends t.toEmitState (.done { stack := (g.type, globalAfter c.module es index) :: rest, shared := u }) o := by
  obtain ⟨o', ho, hends⟩ := h.outcome
  rw [he] at ho
  obtain ⟨global, g, hglobal, hg, ho⟩ := ho
  have slot := c.slots_global hg
  rcases hslot : g.slot with _ | ⟨offset, size⟩
  · simp only [hslot] at ho
    rw [ho] at hends
    refine ⟨g, view.shared, hg, rfl, ?_⟩
    rw [globalAfter, ht.constants index g hg hslot, hglobal]
    exact hends
  · simp only [hslot] at ho
    obtain ⟨hwidth, ho⟩ := ho
    rw [hslot] at slot
    rw [ho, MemoryOp.load_found (ht.load hs hb slot), Outcome.done_bind] at hends
    refine ⟨g, view.shared.touch (state + BitVec.ofNat 64 offset).toNat size, hg, rfl, hends.retop ?_⟩
    have content : c.contentAfter pointer es index = globalAfter c.module es index :=
      if_pos (List.getElem?_eq_some_iff.mp hg).1
    rw [content, Word.ofBytes_toBytes, hwidth, BitVec.setWidth_setWidth_of_le _ (ValueType.width_le _), BitVec.setWidth_eq]

theorem Turn.set_follows {index : ℕ} (h : Turn H c base state e rest view s t o) (he : e.op = .set index)
    (hs : c.HasState stateSize) (hb : Beside base state stateSize) (ht : Tracks c state pointer es view.shared.mem) :
    ∃ u, Tracks c state pointer (es ++ [e]) u.mem ∧ Ends t.toEmitState (.done { stack := rest, shared := u }) o := by
  obtain ⟨o', ho, hends⟩ := h.outcome
  rw [he] at ho
  obtain ⟨g, offset, size, x, hg, hslot, hoperands, ho⟩ := ho
  have slot : c.slots[index]? = some (some (offset, size)) := hslot ▸ c.slots_global hg
  have event : e = ⟨.set index, (g.type, x) :: []⟩ := by
    cases e
    cases he
    cases hoperands
    rfl
  rw [ho, ht.store hs hb slot, Outcome.done_bind] at hends
  refine ⟨_, ⟨?_, fun i g' hg' hnone => ?_⟩, hends⟩
  · rw [event, c.contentAfter_set (List.getElem?_eq_some_iff.mp hg).1]
    exact ht.slots.write hs slot
  · have other : index ≠ i := by
      rintro rfl
      rw [Option.some.inj (hg.symm.trans hg'), hnone] at hslot
      cases hslot
    rw [event, lastSet_append, ht.constants i g' hg' hnone]
    simp [Event.stored, other]

theorem Turn.drop_follows {dataidx : ℕ} (h : Turn H c base state e rest view s t o) (he : e.op = .drop dataidx)
    (hs : c.HasState stateSize) (hb : Beside base state stateSize) (ht : Tracks c state pointer es view.shared.mem) :
    ∃ u, Tracks c state pointer (es ++ [e]) u.mem ∧ Ends t.toEmitState (.done { stack := rest, shared := u }) o := by
  obtain ⟨o', ho, hends⟩ := h.outcome
  rw [he] at ho
  obtain ⟨j, offset, hj, hslot, ho⟩ := ho
  have slot : c.slots[c.globals.length + dataidx]? = some (some (offset, pointerSize)) := hslot ▸ c.slots_data hj
  have event : e = ⟨.drop dataidx, e.operands⟩ := by
    cases e
    cases he
    rfl
  rw [ho, ht.store hs hb slot, Outcome.done_bind] at hends
  refine ⟨_, ⟨?_, fun i g hg hnone => ?_⟩, hends⟩
  · rw [event, c.contentAfter_drop]
    exact ht.slots.write hs slot
  · rw [event, lastSet_append, ht.constants i g hg hnone]
    rfl

/-- The helper sees its operands in 32 bits. -/
theorem Platform.jitHelperMemoryInit_fill (dst ptr len src n : Word) (u : Store) :
    H.jitHelperMemoryInit dst ptr (Word.fill 32 len 0) (Word.fill 32 src 0) (Word.fill 32 n 0) u =
      H.jitHelperMemoryInit dst ptr len src n u := by
  simp only [Platform.jitHelperMemoryInit, u32_fill]

theorem Turn.init_follows {dataidx : ℕ} (h : Turn H c base state e rest view s t o) (he : e.op = .init dataidx)
    (hs : c.HasState stateSize) (hb : Beside base state stateSize) (ht : Tracks c state pointer es view.shared.mem) :
    ∃ segment n src dst u, c.module.data[dataidx]? = some segment ∧ e.operands = [(.i32, n), (.i32, src), (.i32, dst)] ∧
      u.mem = view.shared.mem ∧ Ends t.toEmitState ((H.jitHelperMemoryInit (base + Word.zext32 dst)
        (pointerAfter pointer es dataidx) (BitVec.ofNat 64 segment.data.length) src n u).bind fun p =>
          .done { stack := rest, shared := p.2 }) o := by
  obtain ⟨o', ho, hends⟩ := h.outcome
  rw [he] at ho
  obtain ⟨j, offset, segment, n, src, dst, hj, hslot, hsegment, hoperands, ho⟩ := ho
  have slot : c.slots[c.globals.length + dataidx]? = some (some (offset, pointerSize)) := hslot ▸ c.slots_data hj
  have content : c.contentAfter pointer es (c.globals.length + dataidx) = pointerAfter pointer es dataidx := by
    simp [JitContext.contentAfter]
  have found : view.shared.mem.load (state + BitVec.ofNat 64 offset).toNat 8 = _ := ht.load hs hb slot
  have word : Word.ofBytes ((pointerAfter pointer es dataidx).toBytes 8) = pointerAfter pointer es dataidx := by
    simp [Word.ofBytes_toBytes]
  rw [content] at found
  rw [ho, BulkOp.perform, MemoryOp.load_found found, Outcome.done_bind, Outcome.bind_assoc] at hends
  refine ⟨segment, n, src, dst, view.shared.touch (state + BitVec.ofNat 64 offset).toNat 8, hsegment, hoperands, rfl, ?_⟩
  simp only [word, Platform.jitHelperMemoryInit_fill] at hends
  exact hends

theorem Turn.follows (h : Turn H c base state e rest view s t o) (hs : c.HasState stateSize) (hb : Beside base state stateSize)
    (ht : Tracks c state pointer es view.shared.mem) : e.Follows H c pointer base es rest view.shared t.toEmitState o := by
  rw [Event.Follows]
  cases he : e.op with
  | get index => exact h.get_follows he hs hb ht
  | set index =>
    obtain ⟨u, -, hends⟩ := h.set_follows he hs hb ht
    exact ⟨u, hends⟩
  | init dataidx => exact h.init_follows he hs hb ht
  | drop dataidx =>
    obtain ⟨u, -, hends⟩ := h.drop_follows he hs hb ht
    exact ⟨u, hends⟩

/-- Writing a range changes nothing beside it. -/
theorem Platform.put_keeps {dst : Word} {n : ℕ} {value : ℕ → Option UInt8} {u : Store} :
    (H.put dst n value u).Leaves (fun v => ∀ a, a < dst.toNat ∨ dst.toNat + n ≤ a → v.mem a = u.mem a) Prod.snd := by
  by_cases hall : ∀ i < n, u.mem.Puts dst.toNat value i
  · rw [put_done hall]
    intro a ha
    exact if_neg (by omega)
  · obtain ⟨mem, he, hkept⟩ := put_trap (H := H) (by simpa only [not_forall, exists_prop] using hall)
    rw [he]
    intro a ha
    rcases hkept a with hsame | ⟨i, hi, rfl, -⟩
    · exact hsame
    · omega

/-- `memory.init` changes linear memory only. -/
theorem Platform.jitHelperMemoryInit_keeps {dst ptr len src n : Word} {u v : Store} {r : Word}
    (hfits : base.toNat + memoryReserveSize ≤ 2 ^ 64)
    (h : H.jitHelperMemoryInit (base + dst.zext32) ptr len src n u = .done (r, v)) {a : ℕ}
    (ha : a < base.toNat ∨ base.toNat + memoryReserveSize ≤ a) : v.mem a = u.mem a := by
  have start : (base + dst.zext32).toNat = base.toNat + u32 dst ∧ u32 dst + u32 n ≤ memoryReserveSize := by
    have hx := u32_lt dst
    have hn := u32_lt n
    rw [BitVec.toNat_add, Word.toNat_zext32]
    simp only [u32, memoryReserveSize] at *
    omega
  simp only [jitHelperMemoryInit] at h
  split_ifs at h
  · set touched := (u.touch (ptr + BitVec.ofNat 64 (u32 src)).toNat (u32 n)).touch (base + dst.zext32).toNat (u32 n)
    have kept : (H.put (base + dst.zext32) (u32 n) (fun i => u.mem ((ptr + BitVec.ofNat 64 (u32 src)).toNat + i))
        touched).Leaves (fun v => ∀ a, a < (base + dst.zext32).toNat ∨ (base + dst.zext32).toNat + u32 n ≤ a →
          v.mem a = touched.mem a) Prod.snd := put_keeps
    rw [show H.put _ _ _ _ = _ from h] at kept
    exact kept a (by omega)
  · cases h
    rfl

theorem Tracks.other {mem : Memory UInt8} (ht : Tracks c state pointer es mem) (hset : ∀ i, e.op ≠ .set i)
    (hdrop : ∀ i, e.op ≠ .drop i) : Tracks c state pointer (es ++ [e]) mem := by
  refine ⟨?_, fun i g hg hnone => ?_⟩
  · rw [c.contentAfter_other hset hdrop]
    exact ht.slots
  · rw [lastSet_append, Event.stored_other hset, ht.constants i g hg hnone, Option.or_none]

theorem Tracks.frame {mem mem' : Memory UInt8} (ht : Tracks c state pointer es mem) (hs : c.HasState stateSize)
    (hsame : ∀ a < stateSize, mem' (state.toNat + a) = mem (state.toNat + a)) : Tracks c state pointer es mem' :=
  ⟨ht.slots.frame hs hsame, ht.constants⟩

/-- An instruction that succeeds keeps track of the state. -/
theorem Turn.tracks {τ : Machine} (h : Turn H c base state e rest view s t (.done τ)) (hs : c.HasState stateSize)
    (hb : Beside base state stateSize) (ht : Tracks c state pointer es view.shared.mem) :
    Tracks c state pointer (es ++ [e]) τ.mem := by
  cases he : e.op with
  | get index =>
    obtain ⟨g, u, -, hmem, hends⟩ := h.get_follows he hs hb ht
    have shared : τ.toStore = u := hends.shared
    rw [shared, hmem]
    exact ht.other (by simp [he]) (by simp [he])
  | set index =>
    obtain ⟨u, ht', hends⟩ := h.set_follows he hs hb ht
    have shared : τ.toStore = u := hends.shared
    rw [shared]
    exact ht'
  | init dataidx =>
    obtain ⟨segment, n, src, dst, u, -, -, hmem, hends⟩ := h.init_follows he hs hb ht
    refine Tracks.other (ht.frame hs fun a ha => ?_) (by simp [he]) (by simp [he])
    rcases hinit : H.jitHelperMemoryInit (base + dst.zext32) (pointerAfter pointer es dataidx)
      (BitVec.ofNat 64 segment.data.length) src n u with ⟨r, v⟩ | _ | _ | _ <;> rw [hinit] at hends
    · have shared : τ.toStore = v := hends.shared
      have beside := hb.disjoint
      rw [shared, H.jitHelperMemoryInit_keeps hb.reservation hinit (by omega), hmem]
    all_goals cases hends
  | drop dataidx =>
    obtain ⟨u, ht', hends⟩ := h.drop_follows he hs hb ht
    have shared : τ.toStore = u := hends.shared
    rw [shared]
    exact ht'

/-- So does a run. -/
theorem StateRun.tracks {start u : Store} (h : StateRun c stateSize base state start es u) (hs : c.HasState stateSize)
    (hb : Beside base state stateSize) (ht : Tracks c state pointer [] start.mem) : Tracks c state pointer es u.mem := by
  induction h with
  | start => exact ht
  | turn _ turn ih => exact turn.tracks hs hb ih
  | other _ hsame ih => exact ih.frame hs hsame

end Turns

/-! ### Instances -/

section Instances

variable {c : JitContext} {stateSize : ℕ} {state : Word} {image mem : Memory UInt8} {pointer : ℕ → Word} {global : Wasm.WasmGlobal}
  {g : JitGlobal}

/-- A global has a slot of its size if it is mutable. -/
theorem Prepared.slot (h : Prepared global g) : g.slot.map Prod.snd = if global.mutable then valueSize global.value.kind else none := by
  have size := jitGetSpidirSize_of_value h.type
  have mutable := h.offset
  rcases hoffset : g.offset with _ | offset
  · rw [hoffset] at mutable
    simp [JitGlobal.slot, hoffset, ← mutable]
  · rw [hoffset] at mutable
    rw [JitGlobal.slot, hoffset, Option.bind_some, size, ← mutable]
    cases valueSize global.value.kind <;> rfl

/-- What is poked into a slot is its content before any run. -/
theorem JitContext.HasState.pokes_slot {i offset size : ℕ} (hs : c.HasState stateSize) (hi : c.slots[i]? = some (some (offset, size))) :
    (c.pokes pointer)[i]? = some (some (offset, (c.contentAfter pointer [] i).toBytes size)) := by
  have globals := hs.globals.length_eq
  have data := hs.data.length_eq
  obtain ⟨hlt, -⟩ := List.getElem?_eq_some_iff.mp hi
  simp only [slots, List.length_append, List.length_map] at hlt
  by_cases hglobal : i < c.globals.length
  · obtain ⟨g, hg⟩ : ∃ g, c.globals[i]? = some g := ⟨_, List.getElem?_eq_getElem hglobal⟩
    obtain ⟨global, hm⟩ : ∃ global, c.module.globals[i]? = some global :=
      ⟨_, List.getElem?_eq_getElem (globals ▸ hglobal)⟩
    have slot : g.slot = some (offset, size) := Option.some.inj ((slots_global hg).symm.trans hi)
    rw [pokes_global hm hg, globalPoke, slot, contentAfter, if_pos hglobal, globalAfter, hm]
    rfl
  · obtain ⟨k, rfl⟩ := Nat.exists_eq_add_of_le (Nat.le_of_not_lt hglobal)
    have hk : k < c.data.length := by omega
    obtain ⟨j, hj⟩ : ∃ j, c.data[k]? = some j := ⟨_, List.getElem?_eq_getElem hk⟩
    obtain ⟨d, hd⟩ : ∃ d, c.module.data[k]? = some d := ⟨_, List.getElem?_eq_getElem (data ▸ hk)⟩
    have slot : j.slot = some (offset, size) := Option.some.inj ((slots_data hj).symm.trans hi)
    rw [hs.pokes_data hd hj, dataPoke, slot, contentAfter, if_neg hglobal, Nat.add_sub_cancel_left]
    rfl

/-- An instance starts with the content of the empty run. -/
theorem tracks_start (hs : c.HasState stateSize) (hseed : ∀ a < stateSize, mem (state.toNat + a) = image a)
    (himage : ∀ (i offset : ℕ) (bytes : List UInt8), (c.pokes pointer)[i]? = some (some (offset, bytes)) →
      image.load offset bytes.length = some bytes) : Tracks c state pointer [] mem := by
  refine ⟨fun i offset size hi => ?_, fun _ _ _ _ => rfl⟩
  have inside := (hs.laid.inside hi).2.2
  have poke : (c.pokes pointer)[i]? = some (some (offset, (c.contentAfter pointer [] i).toBytes size)) := hs.pokes_slot hi
  have found := himage i offset _ poke
  rw [Word.length_toBytes] at found
  rw [← found]
  apply Memory.load_congr
  intro k hk
  rw [Nat.add_assoc]
  exact hseed _ (by omega)

end Instances

/-- Every module: its slots are aligned, disjoint and inside the state, and the image has the
initial value of each. In every run on an instance that starts from the image, a read yields
the last value that was set, or the initial one, and `memory.init` gets the segment that it names
unless that one was dropped. -/
theorem instance_state {data : List UInt8} {m : WasmModule} (hload : Wasm.wasmLoadModule data = some m) {c₀ : JitContext}
    (hmodule : c₀.module = m) (pointer : ℕ → Word) :
    ∃ c stateSize image, jitPrepareState c₀ = some (c, stateSize) ∧ jitBuildStateInit c stateSize pointer = some image ∧
      image.Below stateSize ∧
      (∀ (i : ℕ) (global : Wasm.WasmGlobal), m.globals[i]? = some global → ∃ g, c.globals[i]? = some g ∧ Prepared global g ∧
        g.slot.map Prod.snd = (if global.mutable then valueSize global.value.kind else none) ∧
        ∀ offset size, g.slot = some (offset, size) →
          image.load offset size = some (Word.toBytes size (BitVec.ofNat 64 global.value.bits))) ∧
      (∀ (i : ℕ) (segment : Wasm.DataSegment), m.data[i]? = some segment → ∃ j, c.data[i]? = some j ∧ j.slot.isSome = !segment.active ∧
        ∀ offset size, j.slot = some (offset, size) → size = pointerSize ∧ image.load offset size = some ((pointer i).toBytes size)) ∧
      (∀ i offset size : ℕ, c.slots[i]? = some (some (offset, size)) → size ∣ offset ∧ offset + size ≤ stateSize ∧
        ∀ j offset' size' : ℕ, i ≠ j → c.slots[j]? = some (some (offset', size')) →
          offset + size ≤ offset' ∨ offset' + size' ≤ offset) ∧
      ∀ base state start, Beside base state stateSize → (∀ a < stateSize, start.mem (state.toNat + a) = image a) →
        ∀ es s, StateRun c stateSize base state start es s →
          (∀ (i : ℕ) (global : Wasm.WasmGlobal), m.globals[i]? = some global → global.mutable = false → lastSet es i = none) ∧
          ∀ H e rest view x y o, view.shared = s → Turn H c base state e rest view x y o →
            e.Follows H c pointer base es rest s y.toEmitState o := by
  obtain ⟨l, hl, rfl, -⟩ := Wasm.wasmLoadModule_staged hload
  have valid : c₀.module.Valid := hmodule ▸ hl.toValid
  obtain ⟨⟨c, stateSize⟩, hprepare⟩ := jitPrepareState_isSome valid
  obtain ⟨hsame, hs⟩ := jitPrepareState_hasState hprepare
  have same : c.module = l.module := hsame.trans hmodule
  obtain ⟨image, hbuild, hbelow, himage⟩ := jitBuildStateInit_image hs pointer
  have initial : ∀ i offset size : ℕ, c.slots[i]? = some (some (offset, size)) →
      image.load offset size = some ((c.contentAfter pointer [] i).toBytes size) := by
    intro i offset size hi
    have found := himage i offset _ (hs.pokes_slot hi)
    rwa [Word.length_toBytes] at found
  refine ⟨c, stateSize, image, hprepare, hbuild, hbelow, ?_, ?_, ?_, ?_⟩
  · intro i global hglobal
    rw [← same] at hglobal
    obtain ⟨g, hg, hprepared⟩ := getElem?_of_forall₂ hs.globals hglobal
    refine ⟨g, hg, hprepared, hprepared.slot, fun offset size hslot => ?_⟩
    have found := initial i offset size (hslot ▸ c.slots_global hg)
    rw [JitContext.contentAfter, if_pos (List.getElem?_eq_some_iff.mp hg).1, globalAfter, hglobal] at found
    exact found
  · intro i segment hsegment
    rw [← same] at hsegment
    obtain ⟨j, hj, hoffset⟩ := getElem?_of_forall₂ hs.data hsegment
    refine ⟨j, hj, by rw [JitData.slot, Option.isSome_map, hoffset], fun offset size hslot => ?_⟩
    have found := initial (c.globals.length + i) offset size (hslot ▸ c.slots_data hj)
    rw [JitContext.contentAfter, if_neg (by omega), Nat.add_sub_cancel_left] at found
    refine ⟨?_, found⟩
    simp only [JitData.slot, Option.map_eq_some_iff, Prod.mk.injEq] at hslot
    obtain ⟨_, -, -, rfl⟩ := hslot
    rfl
  · intro i offset size hi
    obtain ⟨haligned, -, hinside⟩ := hs.laid.inside hi
    exact ⟨haligned, hinside, fun j offset' size' hij hj => hs.laid.disjoint hij hi hj⟩
  · intro base state start hb hseed es s hrun
    have tracks := hrun.tracks hs hb (tracks_start hs hseed himage)
    constructor
    · intro i global hglobal hmutable
      rw [← same] at hglobal
      obtain ⟨g, hg, hprepared⟩ := getElem?_of_forall₂ hs.globals hglobal
      have noSlot := hprepared.slot
      rw [hmutable, if_neg Bool.false_ne_true, Option.map_eq_none_iff] at noSlot
      exact tracks.constants i g hg noSlot
    · rintro H e rest view x y o rfl turn
      exact turn.follows hs hb tracks

/-- Two mutable globals, an `i32` that starts at 7 and an `i64` that starts at -1, and a passive segment. -/
def globalsModule : List UInt8 := [0x00, 0x61, 0x73, 0x6D, 0x01, 0x00, 0x00, 0x00,
  0x06, 0x0B, 0x02, 0x7F, 0x01, 0x41, 0x07, 0x0B, 0x7E, 0x01, 0x42, 0x7F, 0x0B,
  0x0B, 0x04, 0x01, 0x01, 0x01, 0x61]

/-- What it is loaded as. -/
def loadedGlobals : WasmModule where
  globals := [⟨⟨.i32, 7⟩, true⟩, ⟨⟨.i64, 2 ^ 64 - 1⟩, true⟩]
  data := [⟨0, [0x61], false⟩]

/-- The context that is prepared for it. -/
def preparedGlobals : JitContext where
  module := loadedGlobals
  globals := [⟨some 0, .i32⟩, ⟨some 8, .i64⟩]
  data := [⟨some 16⟩]

/-- In front of an instruction, behind a constant that may be its operand. -/
def beforeOp (code : List UInt8) (stack : List JitValue) : JitState where
  code := ⟨0, code⟩
  ctx := preparedGlobals
  func := { labels := [{ stack }] }
  builder := (({ params := [.ptr, .ptr] } : Builder).createBlock.setBlock 0).build (.iconst .i32 42)

/-- The state lies behind the reservation. -/
def behindReservation : World where
  param k := if k = 0 then 0 else 2 ^ 33

/-- What the code of an instruction comes to from a store. -/
def executed (s t : JitState) (shared : Store) : Outcome Store Machine :=
  t.builder.exec behindReservation (s.builder.since t.builder) { shared with reg := fun _ => 42 }

theorem beforeOp_turn {code : List UInt8} {stack : List JitValue} {e : Event} (shared : Store) {t : JitState} {after : Buffer}
    (h : (jitWasmOpcode (beforeOp code stack)).map (fun p => (p.2.ctx, p.2.code)) = some (preparedGlobals, after))
    (ht : jitWasmOpcode (beforeOp code stack) = some ((), t)) (hreads : pullStateOp ⟨0, code⟩ = some (e.op, after))
    (hoperands : e.operands.map Prod.fst = e.op.takes preparedGlobals)
    (hstack : List.Forall₂ (JitValue.Shows (beforeOp code stack).builder { shared with reg := fun _ => 42 }) stack e.operands) :
    Turn ascending preparedGlobals 0 (2 ^ 33) e [] { stack := e.operands, shared } (beforeOp code stack) t
      (executed (beforeOp code stack) t shared) := by
  rw [ht] at h
  obtain ⟨hctx, hcode⟩ := Prod.mk.inj (Option.some.inj h)
  have view : View.Of { stack := e.operands, shared } (beforeOp code stack).toEmitState { shared with reg := fun _ => 42 } :=
    ⟨ok_of_nothing rfl fun _ => rfl, ⟨rfl, rfl⟩, fun f hf => False.elim hf, ⟨_, [], rfl, hstack⟩, rfl⟩
  have links : Links (Platform.helper ascending) behindReservation t.ctx := by
    intro k f hf
    rw [show t.ctx = preparedGlobals from hctx] at hf
    cases hf
  have reads : pullStateOp (beforeOp code stack).code = some (e.op, t.code) := by
    rw [show t.code = after from hcode]
    exact hreads
  exact ⟨rfl, rfl, rfl, rfl, reads, ht, hoperands, (List.append_nil _).symm, _, _, _, view, .refl _, links, rfl, rfl, rfl⟩

/-- Behind a set of its neighbour and a drop of the segment, a global has its value. -/
theorem instance_state_get : ∃ image shared t, jitPrepareState { module := loadedGlobals } = some (preparedGlobals, 24) ∧
    jitBuildStateInit preparedGlobals 24 (fun _ => 4096) = some image ∧
    StateRun preparedGlobals 24 0 (2 ^ 33) { mem := fun a => image (a - 2 ^ 33) } [⟨.set 0, [(.i32, 42)]⟩, ⟨.drop 0, []⟩] shared ∧
    jitWasmOpcode (beforeOp [0x23, 1] []) = some ((), t) ∧
    ∃ u, Ends t.toEmitState (.done { stack := [(.i64, BitVec.ofNat 64 (2 ^ 64 - 1))], shared := u }) (executed (beforeOp [0x23, 1] []) t shared) := by
  have loads : Wasm.wasmLoadModule globalsModule = some loadedGlobals := by decide +kernel
  have prepared : jitPrepareState { module := loadedGlobals } = some (preparedGlobals, 24) := rfl
  obtain ⟨c, stateSize, image, hprepare, hbuild, -, -, -, -, hruns⟩ :=
    instance_state loads (show JitContext.module { module := loadedGlobals } = loadedGlobals from rfl) fun _ => 4096
  obtain ⟨rfl, rfl⟩ := Prod.mk.inj (Option.some.inj (prepared.symm.trans hprepare))
  have beside : Beside 0 (2 ^ 33) 24 := ⟨by decide, by decide, .inr (by decide)⟩
  have seeded : ∀ a < 24, image ((2 ^ 33 : Word).toNat + a - 2 ^ 33) = image a := by
    intro a _
    have base : (2 ^ 33 : Word).toNat = 2 ^ 33 := by decide
    rw [base]
    exact congrArg image (Nat.add_sub_cancel_left _ a)
  have next := hruns 0 (2 ^ 33) { mem := fun a => image (a - 2 ^ 33) } beside seeded
  -- a write is one more event of the run
  have write {es : List Event} {e : Event} {shared u : Store} {x y : JitState} {o : Outcome Store Machine}
      (hrun : StateRun preparedGlobals 24 0 (2 ^ 33) { mem := fun a => image (a - 2 ^ 33) } es shared)
      (turn : Turn ascending preparedGlobals 0 (2 ^ 33) e [] { stack := e.operands, shared } x y o)
      (hends : Ends y.toEmitState (.done { stack := [], shared := u }) o) :
      StateRun preparedGlobals 24 0 (2 ^ 33) { mem := fun a => image (a - 2 ^ 33) } (es ++ [e]) u := by
    cases o with
    | done τ =>
      have same : τ.toStore = u := hends.shared
      exact same ▸ .turn hrun turn
    | _ => cases hends
  have setAccepted : (jitWasmOpcode (beforeOp [0x24, 0] [⟨some 0, .i32⟩])).map (fun p => (p.2.ctx, p.2.code)) = some (preparedGlobals, ⟨0, []⟩) := rfl
  obtain ⟨⟨_, t₁⟩, ht₁, -⟩ := Option.map_eq_some_iff.mp setAccepted
  have set := beforeOp_turn (e := ⟨.set 0, [(.i32, 42)]⟩) { mem := fun a => image (a - 2 ^ 33) } setAccepted ht₁ (by decide +kernel) rfl
    (.cons ⟨rfl, 0, rfl, Nat.one_pos, rfl, Word.setWidth_fill 32 _ 0⟩ .nil)
  obtain ⟨u₁, hset⟩ := (next [] _ .start).2 _ _ _ _ _ _ _ rfl set
  have dropAccepted : (jitWasmOpcode (beforeOp [0xFC, 9, 0] [])).map (fun p => (p.2.ctx, p.2.code)) = some (preparedGlobals, ⟨0, []⟩) := rfl
  obtain ⟨⟨_, t₂⟩, ht₂, -⟩ := Option.map_eq_some_iff.mp dropAccepted
  have drop := beforeOp_turn (e := ⟨.drop 0, []⟩) u₁ dropAccepted ht₂ (by decide +kernel) rfl .nil
  have run₁ := write .start set hset
  obtain ⟨u₂, hdrop⟩ := (next _ _ run₁).2 _ _ _ _ _ _ _ rfl drop
  have run₂ := write run₁ drop hdrop
  have getAccepted : (jitWasmOpcode (beforeOp [0x23, 1] [])).map (fun p => (p.2.ctx, p.2.code)) = some (preparedGlobals, ⟨1, []⟩) := rfl
  obtain ⟨⟨_, t₃⟩, ht₃, -⟩ := Option.map_eq_some_iff.mp getAccepted
  have get := beforeOp_turn (e := ⟨.get 1, []⟩) u₂ getAccepted ht₃ (by decide +kernel) rfl .nil
  obtain ⟨g, u, hg, -, hends⟩ := (next _ _ run₂).2 _ _ _ _ _ _ _ rfl get
  cases hg
  exact ⟨image, u₂, t₃, prepared, hbuild, run₂, ht₃, u, hends⟩

end SpidirWasm.Jit
