import SpidirWasm.Jit.Helpers
import SpidirWasm.Logic.ByteWrites
import SpidirWasm.Spidir.Semantics

/-! What the helpers do that get a pointer: the bulk operations of `helpers.c`, the
atomic accesses, and the host's wait and notify. -/

namespace SpidirWasm.Jit

open Spidir

/-- What these helpers rest on: the order in which `memset`, `memmove` and `memcpy` write
the bytes at a destination, the futex calls at an address, and all the other helpers. -/
structure Platform where
  order : Word → ℕ → List ℕ := fun _ n => List.range n
  order_perm : ∀ dst n, (order dst n).Perm (List.range n)
  wake : Word → Word → Word := fun _ _ => 0
  wait : ℕ → List UInt8 → List Word → Option Word := fun _ _ _ => none
  other : HelperKind → List Word → Store → Outcome Store (Word × Store) := fun _ _ _ => .unknown

/-- A `uint32_t` argument. -/
def u32 (x : Word) : ℕ := x.toNat % 2 ^ 32

def AtomicWidth.bytes : AtomicWidth → ℕ
  | .w1 => 1
  | .w2 => 2
  | .w4 => 4
  | .w8 => 8

namespace Platform

variable (H : Platform)

/-- Write `n` bytes; the first one that faults is the last one that is tried. -/
def put (dst : Word) (n : ℕ) (value : ℕ → Option UInt8) (s : Store) : Outcome Store (Word × Store) :=
  match Memory.putBytes dst.toNat value (H.order dst n) s.mem with
  | .ok mem => .done (0, { s with mem })
  | .error mem => .trap { s with mem }

/-- `memmove`, and `memcpy` between ranges that do not overlap: the bytes are those of the
source before the call. -/
def copy (dst src : Word) (n : ℕ) (s : Store) : Outcome Store (Word × Store) :=
  H.put dst n (fun i => s.mem (src.toNat + i)) ((s.touch src.toNat n).touch dst.toNat n)

/-- `memset`. -/
def fill (dst : Word) (byte : UInt8) (n : ℕ) (s : Store) : Outcome Store (Word × Store) :=
  H.put dst n (fun _ => some byte) (s.touch dst.toNat n)

/-- `jit_helper_memory_copy`. -/
def jitHelperMemoryCopy (d src n : Word) (s : Store) : Outcome Store (Word × Store) :=
  if u32 n ≠ 0 then H.copy d src (u32 n) s else .done (0, s)

/-- `jit_helper_memory_fill`. -/
def jitHelperMemoryFill (d val n : Word) (s : Store) : Outcome Store (Word × Store) :=
  if u32 n ≠ 0 then H.fill d ⟨val.setWidth 8⟩ (u32 n) s else .done (0, s)

/-- `jit_helper_memory_init`, where a failed assertion is a trap. -/
def jitHelperMemoryInit (dst data dataLen offset length : Word) (s : Store) :
    Outcome Store (Word × Store) :=
  if u32 offset + u32 length ≤ u32 dataLen then
    if u32 length ≠ 0 then
      if data ≠ 0 then H.copy dst (data + BitVec.ofNat 64 (u32 offset)) (u32 length) s
      else .trap s
    else .done (0, s)
  else .trap s

end Platform

/-- What a read-modify-write helper of `n` bytes stores, from the old value and its other
arguments. -/
def RmwOp.result (n : ℕ) (old : Word) : RmwOp → List Word → Word
  | .add, [x] => old + x
  | .sub, [x] => old - x
  | .and, [x] => old &&& x
  | .or, [x] => old ||| x
  | .xor, [x] => old ^^^ x
  | .xchg, [x] => x
  | .cmpxchg, [expected, replacement] =>
    if expected.setWidth (8 * n) = old.setWidth (8 * n) then replacement else old
  | _, _ => old

def atomicLoad (n : ℕ) (addr : Word) (s : Store) : Outcome Store (Word × Store) :=
  (s.load addr.toNat n).bind fun (bytes, s) => .done (Word.ofBytes bytes, s)

def atomicStore (n : ℕ) (addr value : Word) (s : Store) : Outcome Store (Word × Store) :=
  (s.store addr.toNat (value.toBytes n)).bind fun s => .done (0, s)

/-- The old value is returned, whether or not a compare-exchange took place. -/
def atomicRmw (op : RmwOp) (n : ℕ) (addr : Word) (args : List Word) (s : Store) :
    Outcome Store (Word × Store) :=
  (s.load addr.toNat n).bind fun (bytes, s) =>
    let old := Word.ofBytes bytes
    (s.store addr.toNat ((op.result n old args).toBytes n)).bind fun s => .done (old, s)

/-- `wasm_host_atomic_wait_4`: a futex call that cannot read its word fails, and so do
others, and they are repeated for ever. -/
def Platform.wait4 (H : Platform) (addr : Word) (args : List Word) (s : Store) : Outcome Store (Word × Store) :=
  match s.mem.load addr.toNat 4 with
  | none => .diverge (s.touch addr.toNat 4)
  | some bytes =>
    match H.wait addr.toNat bytes args with
    | none => .diverge (s.touch addr.toNat 4)
    | some r => .done (r, s.touch addr.toNat 4)

/-- A helper call; the 64-bit wait is an assertion that fails. -/
def Platform.helper (H : Platform) : HelperKind → List Word → Store → Outcome Store (Word × Store)
  | .memoryCopy, [d, src, n], s => H.jitHelperMemoryCopy d src n s
  | .memoryFill, [d, val, n], s => H.jitHelperMemoryFill d val n s
  | .memoryInit, [dst, data, dataLen, offset, length], s =>
    H.jitHelperMemoryInit dst data dataLen offset length s
  | .trap, _, s => .trap s
  | .atomicNotify, [addr, count], s => .done (H.wake addr count, s)
  | .atomicWait4, addr :: args, s => H.wait4 addr args s
  | .atomicWait8, _, s => .trap s
  | .atomicLoad w, [addr], s => atomicLoad w.bytes addr s
  | .atomicStore w, [addr, value], s => atomicStore w.bytes addr value s
  | .atomicRmw op w, addr :: args, s => atomicRmw op w.bytes addr args s
  | kind, args, s => H.other kind args s

/-! ### Bytes in any order -/

namespace Platform

variable {H : Platform} {dst : Word} {n i : ℕ} {value : ℕ → Option UInt8} {s : Store}

theorem mem_order : i ∈ H.order dst n ↔ i < n := by
  rw [(H.order_perm dst n).mem_iff, List.mem_range]

theorem nodup_order : (H.order dst n).Nodup := (H.order_perm dst n).nodup_iff.mpr List.nodup_range

/-- The memory with `n` other bytes from `dst` on. -/
def overwrite (dst n : ℕ) (value : ℕ → Option UInt8) (mem : Memory UInt8) : Memory UInt8 :=
  fun a => if dst ≤ a ∧ a < dst + n then value (a - dst) else mem a

/-- Bytes that can all be written are all written. -/
theorem put_done (h : ∀ i < n, s.mem.Puts dst.toNat value i) :
    H.put dst n value s = .done (0, { s with mem := overwrite dst.toNat n value s.mem }) := by
  have all : ∀ i ∈ H.order dst n, s.mem.Puts dst.toNat value i := fun i hi => h i (mem_order.mp hi)
  have written := Memory.putBytes_ok all nodup_order
  have same : (fun a => if dst.toNat ≤ a ∧ a - dst.toNat ∈ H.order dst n then
      value (a - dst.toNat) else s.mem a) = overwrite dst.toNat n value s.mem := by
    funext a
    rw [overwrite]
    congr 1
    rw [mem_order, eq_iff_iff]
    omega
  rw [put, written, same]

/-- Otherwise the call traps, and memory holds some of the bytes that could be written. -/
theorem put_trap (h : ∃ i < n, ¬s.mem.Puts dst.toNat value i) :
    ∃ mem, H.put dst n value s = .trap { s with mem } ∧ ∀ a, mem a = s.mem a ∨
      ∃ i < n, a = dst.toNat + i ∧ s.mem.Puts dst.toNat value i ∧ mem a = value i := by
  obtain ⟨i, hi, hbad⟩ := h
  have listed : i ∈ H.order dst n := mem_order.mpr hi
  obtain ⟨mem, he⟩ := Memory.putBytes_eq_error listed hbad
  refine ⟨mem, by rw [put, he], fun a => ?_⟩
  rcases (Memory.putBytes_error he).2 a with hsame | ⟨j, hj, hrest⟩
  · exact .inl hsame
  · exact .inr ⟨j, mem_order.mp hj, hrest⟩

/-- A host that writes the byte `i` first. -/
def startingAt (i : ℕ) : Platform where
  order _ n := if i < n then i :: (List.range n).erase i else List.range n
  order_perm _ n := by
    split_ifs with h
    · exact (List.perm_cons_erase (List.mem_range.mpr h)).symm
    · exact .refl _

/-- It has written that byte when it traps. -/
theorem put_startingAt (hi : i < n) (hput : s.mem.Puts dst.toNat value i)
    (h : ∃ i < n, ¬s.mem.Puts dst.toNat value i) :
    ∃ mem, (startingAt i).put dst n value s = .trap { s with mem } ∧ mem (dst.toNat + i) = value i := by
  obtain ⟨j, hj, hbad⟩ := h
  have listed : j ∈ (startingAt i).order dst n := mem_order.mpr hj
  obtain ⟨mem, he⟩ := Memory.putBytes_eq_error listed hbad
  refine ⟨mem, by rw [put, he], ?_⟩
  have order : (startingAt i).order dst n = i :: (List.range n).erase i := if_pos hi
  rw [order] at he
  exact Memory.putBytes_first hput he

end Platform

end SpidirWasm.Jit
