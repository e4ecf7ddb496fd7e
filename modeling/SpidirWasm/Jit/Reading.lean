import SpidirWasm.Jit.Function
import SpidirWasm.Logic.Consumes

/-! Every reader of the translator reads the front of the code and looks no further, and so
does every handler, since what it emits does not depend on the code at all. -/

namespace SpidirWasm.Jit

open Checked
open Wasm (FuncType)

/-- The same cursor in front of other bytes. -/
def withData (data : List UInt8) (b : Buffer) : Buffer := ⟨b.prev, data⟩

abbrev Pull.Consumes {α : Type} (m : Pull α) : Prop := SpidirWasm.Consumes Buffer.data withData m

/-- The code that a handler has not read. -/
def JitState.unread (s : JitState) : List UInt8 := s.code.data

/-- The same state in front of other code. -/
def JitState.withUnread (data : List UInt8) (s : JitState) : JitState := { s with code := withData data s.code }

abbrev Handler.Consumes {α : Type} (m : Handler α) : Prop := SpidirWasm.Consumes JitState.unread JitState.withUnread m

/-! ### Readers -/

instance : Pull.Consumes bufferPullU8 where
  consumes b byte b' h := by
    obtain ⟨hdata, hprev⟩ := (bufferPullU8_eq_some _ _).mp h
    exact ⟨[byte], hdata, fun rest => (bufferPullU8_eq_some _ _).mpr ⟨rfl, hprev⟩⟩

instance : Pull.Consumes bufferPrev := .nothing
  (fun _ _ _ h => by rw [(Prod.mk.inj ((read_eq_some _ _ _).mp h)).2])
  fun _ _ _ _ h => by
    obtain ⟨rfl, rfl⟩ := Prod.mk.inj ((read_eq_some _ _ _).mp h)
    rfl

instance (n : ℕ) : Pull.Consumes (bufferPull n) where
  consumes b bytes b' h := by
    obtain ⟨hn, he⟩ := (bufferPull_eq_some _ _ _).mp h
    obtain ⟨rfl, rfl⟩ := Prod.mk.inj he
    have hlen : (b.data.take n).length = n := List.length_take_of_le hn
    refine ⟨b.data.take n, (List.take_append_drop _ _).symm, fun rest => (bufferPull_eq_some _ _ _).mpr ⟨?_, ?_⟩⟩
    · rw [withData, List.length_append, hlen]
      exact Nat.le_add_right _ _
    · simp only [withData, List.take_left' hlen, List.drop_left' hlen]

theorem lebLoop_consumes {w limit result shift out n : ℕ} {bs rest : List UInt8} {last : UInt8}
    (h : lebLoop w limit result shift bs = some (out, n, last, rest)) :
    ∃ used, bs = used ++ rest ∧ ∀ rest', lebLoop w limit result shift (used ++ rest') = some (out, n, last, rest') := by
  induction bs generalizing result shift with
  | nil => cases h
  | cons byte bs ih =>
    simp only [lebLoop] at h
    split_ifs at h with hlimit hmore
    · obtain ⟨used, rfl, run⟩ := ih h
      refine ⟨byte :: used, rfl, fun rest' => ?_⟩
      rw [List.cons_append, lebLoop, if_pos hlimit, if_pos hmore, run]
    · simp only [Option.some.injEq, Prod.mk.injEq] at h
      obtain ⟨rfl, rfl, rfl, rfl⟩ := h
      refine ⟨[byte], rfl, fun rest' => ?_⟩
      rw [List.singleton_append, lebLoop, if_pos hlimit, if_neg hmore]

instance (w limit : ℕ) : Pull.Consumes (pullUnsigned w limit) where
  consumes b n b' h := by
    obtain ⟨⟨out, shift, last, rest⟩, hl, he⟩ := Option.map_eq_some_iff.mp h
    obtain ⟨rfl, rfl⟩ := Prod.mk.inj he
    obtain ⟨used, hdata, run⟩ := lebLoop_consumes hl
    exact ⟨used, hdata, fun rest' => Option.map_eq_some_iff.mpr ⟨(out, shift, last, rest'), run rest', rfl⟩⟩

instance (w limit : ℕ) : Pull.Consumes (pullSigned w limit) where
  consumes b n b' h := by
    obtain ⟨⟨out, shift, last, rest⟩, hl, he⟩ := Option.map_eq_some_iff.mp h
    obtain ⟨rfl, rfl⟩ := Prod.mk.inj he
    obtain ⟨used, hdata, run⟩ := lebLoop_consumes hl
    exact ⟨used, hdata, fun rest' => Option.map_eq_some_iff.mpr ⟨(out, shift, last, rest'), run rest', rfl⟩⟩

instance : Pull.Consumes bufferPullU32 := by unfold bufferPullU32; infer_instance

instance : Pull.Consumes bufferPullU64 := by unfold bufferPullU64; infer_instance

instance : Pull.Consumes bufferPullI32 := by unfold bufferPullI32; infer_instance

instance : Pull.Consumes bufferPullI64 := by unfold bufferPullI64; infer_instance

instance : Pull.Consumes bufferPullValType := by unfold bufferPullValType; infer_instance

instance : Pull.Consumes pullMemidx := by unfold pullMemidx; infer_instance

instance : Pull.Consumes jitPullMemarg := by unfold jitPullMemarg; infer_instance

instance : Pull.Consumes jitWasmPullBlockType := by unfold jitWasmPullBlockType; infer_instance

instance : Pull.Consumes jitSkipLeb where
  consumes b _ b' h := by
    have skip {bs rest : List UInt8} {last : UInt8} (h : skipLeb bs = some (last, rest)) :
        ∃ used, bs = used ++ rest ∧ ∀ rest', skipLeb (used ++ rest') = some (last, rest') := by
      induction bs with
      | nil => cases h
      | cons byte bs ih =>
        rw [skipLeb] at h
        split_ifs at h with hmore
        · obtain ⟨used, rfl, run⟩ := ih h
          refine ⟨byte :: used, rfl, fun rest' => ?_⟩
          rw [List.cons_append, skipLeb, if_pos hmore, run]
        · obtain ⟨rfl, rfl⟩ := Prod.mk.inj (Option.some.inj h)
          refine ⟨[byte], rfl, fun rest' => ?_⟩
          rw [List.singleton_append, skipLeb, if_neg hmore]
    obtain ⟨⟨last, rest⟩, hl, he⟩ := Option.map_eq_some_iff.mp h
    obtain ⟨-, rfl⟩ := Prod.mk.inj he
    obtain ⟨used, hdata, run⟩ := skip hl
    exact ⟨used, hdata, fun rest' => Option.map_eq_some_iff.mpr ⟨(last, rest'), run rest', rfl⟩⟩

instance (op : ℕ) : Pull.Consumes (jitSkipImmediates op) := by unfold jitSkipImmediates; infer_instance

/-! ### Handlers -/

instance {α : Type} (m : Pull α) [Pull.Consumes m] : Handler.Consumes (pull m) :=
  .zoom m (fun _ => rfl) (fun _ _ => rfl) (fun _ _ => rfl) fun _ _ _ _ => rfl

instance {α : Type} (m : Emit α) : Handler.Consumes (emit m) := .nothing
  (fun s a t h => by
    obtain ⟨_, e, -, he⟩ := (emit_eq_some m s (a, t)).mp h
    obtain ⟨-, rfl⟩ := Prod.mk.inj he
    rfl)
  fun s a t rest h => by
    obtain ⟨_, e, hm, he⟩ := (emit_eq_some m s (a, t)).mp h
    obtain ⟨rfl, rfl⟩ := Prod.mk.inj he
    exact (emit_eq_some m _ _).mpr ⟨a, e, hm, rfl⟩

instance : Handler.Consumes jitWasmNop := by unfold jitWasmNop; infer_instance

instance : Handler.Consumes jitWasmDrop := by unfold jitWasmDrop; infer_instance

instance : Handler.Consumes jitWasmSelect := by unfold jitWasmSelect; infer_instance

instance : Handler.Consumes jitWasmCall := by unfold jitWasmCall; infer_instance

instance : Handler.Consumes jitWasmCallIndirect := by unfold jitWasmCallIndirect; infer_instance

instance : Handler.Consumes jitWasmLocalGet := by unfold jitWasmLocalGet; infer_instance

instance : Handler.Consumes jitWasmLocalSet := by unfold jitWasmLocalSet; infer_instance

instance : Handler.Consumes jitWasmLocalTee := by unfold jitWasmLocalTee; infer_instance

instance : Handler.Consumes jitWasmGlobalGet := by unfold jitWasmGlobalGet; infer_instance

instance : Handler.Consumes jitWasmGlobalSet := by unfold jitWasmGlobalSet; infer_instance

instance : Handler.Consumes jitWasmLoad := by unfold jitWasmLoad; infer_instance

instance : Handler.Consumes jitWasmStore := by unfold jitWasmStore; infer_instance

instance : Handler.Consumes jitWasmMemorySize := by unfold jitWasmMemorySize; infer_instance

instance : Handler.Consumes jitWasmMemoryGrow := by unfold jitWasmMemoryGrow; infer_instance

instance : Handler.Consumes jitWasmMemoryInit := by unfold jitWasmMemoryInit; infer_instance

instance : Handler.Consumes jitWasmDataDrop := by unfold jitWasmDataDrop; infer_instance

instance : Handler.Consumes jitWasmMemoryCopy := by unfold jitWasmMemoryCopy; infer_instance

instance : Handler.Consumes jitWasmMemoryFill := by unfold jitWasmMemoryFill; infer_instance

instance : Handler.Consumes jitWasmI32Const := by unfold jitWasmI32Const; infer_instance

instance : Handler.Consumes jitWasmI64Const := by unfold jitWasmI64Const; infer_instance

instance : Handler.Consumes jitWasmF32Const := by unfold jitWasmF32Const; infer_instance

instance : Handler.Consumes jitWasmF64Const := by unfold jitWasmF64Const; infer_instance

instance : Handler.Consumes jitWasmCmpi := by unfold jitWasmCmpi; infer_instance

instance : Handler.Consumes jitWasmCmpf := by unfold jitWasmCmpf; infer_instance

instance : Handler.Consumes jitWasmIconv := by unfold jitWasmIconv; infer_instance

instance : Handler.Consumes jitWasmTruncSat := by unfold jitWasmTruncSat; infer_instance

instance : Handler.Consumes jitWasmItof := by unfold jitWasmItof; infer_instance

instance : Handler.Consumes jitWasmFconv := by unfold jitWasmFconv; infer_instance

instance : Handler.Consumes jitWasmBitcast := by unfold jitWasmBitcast; infer_instance

instance : Handler.Consumes jitWasmShift := by unfold jitWasmShift; infer_instance

instance : Handler.Consumes jitWasmUnaryopf := by unfold jitWasmUnaryopf; infer_instance

instance : Handler.Consumes jitWasmBinopf := by unfold jitWasmBinopf; infer_instance

instance : Handler.Consumes jitWasmUnaryopi := by unfold jitWasmUnaryopi; infer_instance

instance : Handler.Consumes jitWasmBinopi := by unfold jitWasmBinopi; infer_instance

instance : Handler.Consumes jitWasmAtomicNotify := by unfold jitWasmAtomicNotify; infer_instance

instance : Handler.Consumes jitWasmAtomicWait := by unfold jitWasmAtomicWait; infer_instance

instance : Handler.Consumes jitWasmAtomicStore := by unfold jitWasmAtomicStore; infer_instance

instance : Handler.Consumes jitWasmAtomicLoad := by unfold jitWasmAtomicLoad; infer_instance

instance : Handler.Consumes jitWasmAtomicRmwCmpexchg := by unfold jitWasmAtomicRmwCmpexchg; infer_instance

instance : Handler.Consumes jitWasmAtomicRmwBinop := by unfold jitWasmAtomicRmwBinop; infer_instance

instance : Handler.Consumes jitWasmAtomicPrefix := by unfold jitWasmAtomicPrefix; infer_instance

instance : Handler.Consumes jitWasmFcPrefix := by unfold jitWasmFcPrefix; infer_instance

/-- The handlers that stay in their block. -/
instance (op : ℕ) : Handler.Consumes ((dataHandler op).getD fail) := by
  unfold dataHandler
  repeat refine .switch inferInstance ?_
  exact .fail

instance pullTargets_consumes (n : ℕ) : Handler.Consumes (pullTargets n) := by
  induction n with
  | zero => unfold pullTargets; infer_instance
  | succ n ih => unfold pullTargets; infer_instance

instance : Handler.Consumes jitWasmUnreachable := by unfold jitWasmUnreachable; infer_instance

instance : Handler.Consumes jitWasmBlock := by unfold jitWasmBlock; infer_instance

instance : Handler.Consumes jitWasmLoop := by unfold jitWasmLoop; infer_instance

instance : Handler.Consumes jitWasmBr := by unfold jitWasmBr; infer_instance

instance : Handler.Consumes jitWasmBrIf := by unfold jitWasmBrIf; infer_instance

instance : Handler.Consumes jitWasmBrTable := by unfold jitWasmBrTable; infer_instance

instance : Handler.Consumes jitWasmReturn := by unfold jitWasmReturn; infer_instance

instance (op : ℕ) : Handler.Consumes (jitLiveOpcode op) := by
  unfold jitLiveOpcode
  split <;> infer_instance

instance (op : ℕ) : Handler.Consumes (jitSkipUnreachable op) := by unfold jitSkipUnreachable; infer_instance

instance : Handler.Consumes jitWasmOpcode := by unfold jitWasmOpcode; infer_instance

instance : Handler.Consumes addLocalGroup := by unfold addLocalGroup; infer_instance

instance (type : FuncType) : Handler.Consumes (jitEnterFunction type) := by unfold jitEnterFunction; infer_instance

end SpidirWasm.Jit
