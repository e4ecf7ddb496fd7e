import SpidirWasm.Jit.MemoryAccess
import SpidirWasm.Jit.SubOpcodes
import SpidirWasm.Wasm.SectionFormat

/-! Which memory arguments are accepted. The argument is decoded in one place, and all that
a handler then looks at is its offset, so that whether a handler accepts an argument is
the same question for all of them. -/

namespace SpidirWasm.Jit

open Checked Leb128
open Spidir (Value)
open Wasm (Token Whole)

/-- The integers of a memory argument: from 64 on, the flags announce a memory index. -/
def memArgTokens (flags index offset : ℕ) : List Token :=
  if 64 ≤ flags then [.u32 flags, .u32 index, .u64 offset] else [.u32 flags, .u64 offset]

/-- What `jit_pull_memarg` makes of them. -/
def memArg (flags index offset : ℕ) : Option WasmMemArg :=
  if 64 ≤ flags then if flags - 64 < 64 then some ⟨index, flags - 64, offset⟩ else none else some ⟨0, flags, offset⟩

variable {flags index offset : ℕ} {enc rest : List UInt8}

theorem memArg_lt (h : flags < 128) (index offset : ℕ) : ∃ a, memArg flags index offset = some a ∧ a.offset = offset := by
  unfold memArg
  split_ifs with hindex hflags
  · exact ⟨_, rfl, rfl⟩
  · omega
  · exact ⟨_, rfl, rfl⟩

theorem memArg_ge (h : 128 ≤ flags) (index offset : ℕ) : memArg flags index offset = none := by
  rw [memArg, if_pos (by omega), if_neg (by omega)]

theorem jitPullMemarg_enc (h : Whole (memArgTokens flags index offset) enc) (p : UInt8) (rest : List UInt8) :
    jitPullMemarg ⟨p, enc ++ rest⟩ = (memArg flags index offset).map fun a => (a, ⟨enc.getLast?.getD p, rest⟩) := by
  obtain ⟨pieces, hpieces, rfl⟩ := h
  have taken : Wasm.Taken (memArgTokens flags index offset) ⟨p, pieces.flatten ++ rest⟩ ⟨pieces.flatten.getLast?.getD p, rest⟩ :=
    Wasm.taken_iff.mpr ⟨pieces, hpieces, rfl, rfl⟩
  rw [memArgTokens] at taken
  rw [jitPullMemarg, memArg]
  by_cases hindex : 64 ≤ flags
  · rw [if_pos hindex] at taken ⊢
    obtain ⟨b, hb, c, hc, d, hd, rfl⟩ := taken
    rw [bind_apply, Wasm.bufferPullU32_iff.mpr hb, Option.bind_some, if_pos hindex, bind_apply, Wasm.bufferPullU32_iff.mpr hc,
      Option.bind_some, check_bind, bind_apply, Wasm.bufferPullU64_iff.mpr hd]
    split_ifs <;> rfl
  · rw [if_neg hindex] at taken ⊢
    obtain ⟨b, hb, c, hc, rfl⟩ := taken
    simp only [bind_apply, Wasm.bufferPullU32_iff.mpr hb, Option.bind_some, if_neg hindex, Wasm.bufferPullU64_iff.mpr hc]
    rfl

/-! ### What a handler looks at -/

theorem addMemOffset_run (memOffset : ℕ) (v : Value) (e : EmitState) :
    if memOffset ≤ 2 ^ 32 - 1 then ∃ o t, addMemOffset memOffset v e = some (o, t) ∧ t.ctx = e.ctx else addMemOffset memOffset v e = none := by
  by_cases h0 : memOffset = 0
  · subst h0
    exact ⟨v, e, rfl, rfl⟩
  · rw [addMemOffset, if_neg h0, check_bind]
    split_ifs
    · exact ⟨_, _, rfl, rfl⟩
    · rfl

/-- An address is computed where the offset fits 32 bits, and touches the builder alone. -/
theorem jitWasmCalculateAddr_run (a : WasmMemArg) (v : Value) (e : EmitState) :
    if a.offset ≤ 2 ^ 32 - 1 then ∃ addr t, jitWasmCalculateAddr a v e = some (addr, t) ∧ t.ctx = e.ctx
    else jitWasmCalculateAddr a v e = none := by
  obtain ⟨v', e', hctx, hrun⟩ : ∃ v' e', e'.ctx = e.ctx ∧ jitWasmCalculateAddr a v e = (addMemOffset a.offset v' e').bind fun r =>
      (build (.param 0) >>= fun memBase => build (.ptroff memBase r.1)) r.2 := ⟨_, _, rfl, rfl⟩
  have added := addMemOffset_run a.offset v' e'
  rw [hrun]
  split_ifs at added ⊢
  · obtain ⟨o, t, ho, ht⟩ := added
    rw [ho]
    exact ⟨_, _, rfl, ht.trans hctx⟩
  · rw [added]
    rfl

/-- A program that looks at the offset of an argument alone, and accepts the argument where it accepts the plain one, if the offset
fits 32 bits. -/
structure OffsetGuarded (K : WasmMemArg → Emit Unit) : Prop where
  isSome_iff : ∀ a e, (K a e).isSome ↔ (K {} e).isSome ∧ a.offset ≤ 2 ^ 32 - 1
  congr : ∀ a b, a.offset = b.offset → K a = K b

namespace OffsetGuarded

/-- Nothing in front of the address looks at the argument. -/
theorem bind {α : Type} {m : Emit α} {K : WasmMemArg → α → Emit Unit} (h : ∀ x, OffsetGuarded fun a => K a x) :
    OffsetGuarded fun a => m >>= K a := by
  refine ⟨fun a e => ?_, fun a b hab => congrArg (m >>= ·) (funext fun x => (h x).congr a b hab)⟩
  change ((m e).bind fun r => K a r.1 r.2).isSome ↔ ((m e).bind fun r => K {} r.1 r.2).isSome ∧ _
  cases m e with
  | none => simp
  | some r => exact (h r.1).isSome_iff a r.2

/-- What follows the address depends on the context alone. -/
theorem address {after : Value → Emit Unit} {P : JitContext → Prop} (h : ∀ addr e, (after addr e).isSome ↔ P e.ctx) (v : Value) :
    OffsetGuarded fun a => jitWasmCalculateAddr a v >>= after := by
  refine ⟨fun a e => ?_, fun a b hab => by rw [jitWasmCalculateAddr, jitWasmCalculateAddr, hab]⟩
  have plain : ((jitWasmCalculateAddr {} v >>= after) e).isSome ↔ P e.ctx := h _ _
  change ((jitWasmCalculateAddr a v e).bind fun r => after r.1 r.2).isSome ↔ ((jitWasmCalculateAddr {} v >>= after) e).isSome ∧ _
  rw [plain]
  have computed := jitWasmCalculateAddr_run a v e
  split_ifs at computed with ha
  · obtain ⟨addr, t, hrun, ht⟩ := computed
    rw [hrun, Option.bind_some, h, ht]
    exact (and_iff_left ha).symm
  · rw [computed, Option.bind_none]
    exact ⟨fun h => absurd h (by decide), fun h => absurd h.2 ha⟩

end OffsetGuarded

/-- A handler that pulls an argument, behind an opcode that it may read back, and guards its offset. -/
def Guards (m : Handler Unit) : Prop :=
  ∃ K : UInt8 → WasmMemArg → Emit Unit, (∀ p, OffsetGuarded (K p)) ∧
    ∀ s, m s = (pull jitPullMemarg >>= fun a => emit (K s.code.prev a)) s

namespace Guards

theorem plain {K : WasmMemArg → Emit Unit} (h : OffsetGuarded K) : Guards (do
    let memArg ← pull jitPullMemarg
    emit (K memArg)) := ⟨fun _ => K, fun _ => h, fun _ => rfl⟩

theorem selected {K : UInt8 → WasmMemArg → Emit Unit} (h : ∀ p, OffsetGuarded (K p)) : Guards (do
    let opcode ← pull bufferPrev
    let memArg ← pull jitPullMemarg
    emit (K opcode memArg)) := ⟨K, h, fun _ => rfl⟩

end Guards

/-- A call of a helper succeeds if the helper can be declared. -/
theorem callHelper_isSome {kind : HelperKind} {args : List Value} {f : Value → Emit Unit} (hf : ∀ v e, (f v e).isSome) (e : EmitState) :
    ((callHelper kind args >>= f) e).isSome ↔ (jitGetHelper kind e.ctx).isSome := by
  change ((((jitGetHelper kind e.ctx).map fun r => (r.1, { e with ctx := r.2 })).bind fun r =>
    build (.call r.1 args) r.2).bind fun r => f r.1 r.2).isSome ↔ _
  cases h : jitGetHelper kind e.ctx with
  | none => simp
  | some r => exact iff_of_true (hf _ _) rfl

/-- A helper is called with the address, and its result is used. -/
theorem OffsetGuarded.called {kind : HelperKind} {args : Value → List Value} {f : Value → Emit Unit} (hf : ∀ v e, (f v e).isSome)
    (v : Value) : OffsetGuarded fun a => jitWasmCalculateAddr a v >>= fun addr => callHelper kind (args addr) >>= f :=
  .address (P := fun ctx => (jitGetHelper kind ctx).isSome) (fun _ => callHelper_isSome hf) v

theorem jitWasmLoad_guards : Guards jitWasmLoad := .selected fun _ => .bind fun ⟨_, _, extend⟩ => .bind fun v =>
  .address (P := fun _ => True) (fun addr e => by cases extend <;> exact iff_true_intro rfl) v

theorem jitWasmStore_guards : Guards jitWasmStore := .selected fun _ => .bind fun ⟨_, _⟩ => .bind fun _ => .bind fun v =>
  .address (P := fun _ => True) (fun _ _ => iff_true_intro rfl) v

theorem jitWasmAtomicNotify_guards : Guards jitWasmAtomicNotify := .plain <| .bind fun _ => .bind fun v => .called (fun _ _ => rfl) v

theorem jitWasmAtomicWait_guards : Guards jitWasmAtomicWait := .selected fun _ => .bind fun ⟨_, _⟩ => .bind fun _ => .bind fun _ =>
  .bind fun v => .called (fun _ _ => rfl) v

theorem jitWasmAtomicStore_guards : Guards jitWasmAtomicStore := .selected fun _ => .bind fun _ => .bind fun _ => .bind fun _ =>
  .bind fun v => .called (fun _ _ => rfl) v

theorem jitWasmAtomicLoad_guards : Guards jitWasmAtomicLoad := .selected fun _ => .bind fun _ => .bind fun _ =>
  .bind fun v => .called (fun _ _ => rfl) v

theorem jitWasmAtomicRmwCmpexchg_guards : Guards jitWasmAtomicRmwCmpexchg := .selected fun _ => .bind fun _ => .bind fun _ =>
  .bind fun _ => .bind fun _ => .bind fun v => .called (fun _ _ => rfl) v

theorem jitWasmAtomicRmwBinop_guards : Guards jitWasmAtomicRmwBinop := .selected fun _ => .bind fun _ => .bind fun _ =>
  .bind fun _ => .bind fun _ => .bind fun v => .called (fun _ _ => rfl) v

/-! ### The instructions -/

/-- What stands in front of the argument of a load, a store or an atomic access. -/
inductive MemoryLead : List UInt8 → Prop
  | access {opcode : UInt8} (h : 0x28 ≤ opcode.toNat ∧ opcode.toNat ≤ 0x3E) : MemoryLead [opcode]
  | atomic {sub : ℕ} {used : List UInt8} (hsub : (Token.u32 sub).Read used) (h : sub ≤ 0x02 ∨ 0x10 ≤ sub ∧ sub ≤ 0x4E) :
      MemoryLead (0xFE :: used)

/-- The translator accepts the instruction that the code goes on with. -/
def Accepts (s : JitState) (code : List UInt8) : Prop := (translation jitWasmOpcode s code).isSome

variable {s : JitState} {lead : List UInt8}

theorem behind_argument {K : UInt8 → WasmMemArg → Emit Unit} (h : Whole (memArgTokens flags index offset) enc) (s : JitState)
    (last : UInt8) (rest : List UInt8) :
    behind (pull jitPullMemarg >>= fun a => emit (K last a)) s last (enc ++ rest) =
      (memArg flags index offset).bind fun a => (K last a s.toEmitState).map fun r => (r.2, rest) := by
  change (((jitPullMemarg ⟨last, enc ++ rest⟩).map fun r => (r.1, { s with code := r.2 })).bind fun r =>
    ((K last r.1 r.2.toEmitState).map fun x => (x.1, { r.2 with toEmitState := x.2 }))).map _ = _
  rw [jitPullMemarg_enc h]
  cases memArg flags index offset with
  | none => rfl
  | some a =>
    cases hK : K last a s.toEmitState with
    | none => simp [hK]
    | some r => simp [hK]

theorem Guards.behind_eq {m : Handler Unit} {K : UInt8 → WasmMemArg → Emit Unit}
    (hrun : ∀ s, m s = (pull jitPullMemarg >>= fun a => emit (K s.code.prev a)) s)
    (h : Whole (memArgTokens flags index offset) enc) (s : JitState) (last : UInt8) (rest : List UInt8) :
    behind m s last (enc ++ rest) = (memArg flags index offset).bind fun a => (K last a s.toEmitState).map fun r => (r.2, rest) := by
  rw [← behind_argument h, behind, hrun]
  rfl

/-- The flags and the offset of a plain argument. -/
theorem whole_plain : Whole (memArgTokens 0 0 0) [0, 0] := by
  have zero : (Token.u32 0).Read [0] ∧ (Token.u64 0).Read [0] := ⟨⟨.last (by decide), by decide, rfl⟩, .last (by decide), by decide, rfl⟩
  exact ⟨[[0], [0]], .cons zero.1 (.cons zero.2 .nil), rfl⟩

theorem behind_isSome {m : Handler Unit} (hm : Guards m) (h : Whole (memArgTokens flags index offset) enc) (s : JitState) (last : UInt8)
    (rest : List UInt8) : (behind m s last (enc ++ rest)).isSome ↔ (behind m s last ([0, 0] ++ rest)).isSome ∧
      flags < 128 ∧ offset ≤ 2 ^ 32 - 1 := by
  obtain ⟨K, hK, hrun⟩ := hm
  have plain : memArg 0 0 0 = some {} := rfl
  rw [Guards.behind_eq hrun h, Guards.behind_eq hrun whole_plain, plain, Option.bind_some, Option.isSome_map]
  by_cases hflags : flags < 128
  · obtain ⟨a, ha, rfl⟩ := memArg_lt hflags index offset
    rw [ha, Option.bind_some, Option.isSome_map, (hK last).isSome_iff]
    exact and_congr_right fun _ => (and_iff_right hflags).symm
  · rw [memArg_ge (by omega) index offset, Option.bind_none]
    simp [hflags]

/-- A live label goes on with the handler of the opcode. -/
theorem translation_live (hlive : s.live = true) (opcode : UInt8) (data : List UInt8) :
    translation jitWasmOpcode s (opcode :: data) = behind (jitLiveOpcode opcode.toNat) s opcode data := by
  obtain ⟨l, ls, hls, hterm⟩ := live_labels hlive
  have label : labelAt 0 s.toEmitState = some (l, s.toEmitState) := (labelAt_eq_some _ _ _).mpr ⟨l, by rw [hls]; rfl, rfl⟩
  have run (r : Unit × JitState) : jitWasmOpcode { s with code := ⟨s.code.prev, opcode :: data⟩ } = some r ↔
      jitLiveOpcode opcode.toNat { s with code := ⟨opcode, data⟩ } = some r := by
    change (emit (labelAt 0) >>= fun label => if label.terminated then jitSkipUnreachable opcode.toNat else jitLiveOpcode opcode.toNat)
      { s with code := ⟨opcode, data⟩ } = some r ↔ _
    rw [emit_bind_eq_some]
    constructor
    · rintro ⟨l', e, hl', hrun⟩
      obtain ⟨rfl, rfl⟩ := Prod.mk.inj (Option.some.inj (label.symm.trans hl'))
      rwa [hterm, if_neg Bool.false_ne_true] at hrun
    · intro hrun
      exact ⟨l, _, label, by rwa [hterm, if_neg Bool.false_ne_true]⟩
  rw [translation, behind, Option.ext run]

/-- The handlers behind the prefix of the atomic instructions. -/
theorem atomic_guards {sub : ℕ} (h : sub ≤ 0x02 ∨ 0x10 ≤ sub ∧ sub ≤ 0x4E) :
    ∃ m, Guards m ∧ ∀ {used : List UInt8} {last : UInt8}, Groups used → 7 * (used.length - 1) ≤ 28 → used.getLast? = some last →
      sub = subOpcode used → ∀ s data, translation jitWasmAtomicPrefix s (used ++ data) = behind m s last data := by
  have dispatch {m : Handler Unit} (hm : (if sub = 0x00 then jitWasmAtomicNotify
      else if 0x01 ≤ sub ∧ sub ≤ 0x02 then jitWasmAtomicWait
      else if 0x10 ≤ sub ∧ sub ≤ 0x16 then jitWasmAtomicLoad
      else if 0x17 ≤ sub ∧ sub ≤ 0x1D then jitWasmAtomicStore
      else if 0x1E ≤ sub ∧ sub ≤ 0x47 then jitWasmAtomicRmwBinop
      else if 0x48 ≤ sub ∧ sub ≤ 0x4E then jitWasmAtomicRmwCmpexchg
      else fail) = m) {used : List UInt8} {last : UInt8} (hu : Groups used) (hlen : 7 * (used.length - 1) ≤ 28)
      (hlast : used.getLast? = some last) (hsub : sub = subOpcode used) (s : JitState) (data : List UInt8) :
      translation jitWasmAtomicPrefix s (used ++ data) = behind m s last data := by
    subst hsub hm
    exact translation_pull hu hlen hlast
  split_ifs at dispatch
  · exact ⟨_, jitWasmAtomicNotify_guards, dispatch rfl⟩
  · exact ⟨_, jitWasmAtomicWait_guards, dispatch rfl⟩
  · exact ⟨_, jitWasmAtomicLoad_guards, dispatch rfl⟩
  · exact ⟨_, jitWasmAtomicStore_guards, dispatch rfl⟩
  · exact ⟨_, jitWasmAtomicRmwBinop_guards, dispatch rfl⟩
  · exact ⟨_, jitWasmAtomicRmwCmpexchg_guards, dispatch rfl⟩
  · omega

/-- Behind the opcode of an access stands a handler that guards the offset. -/
theorem exists_guards (hlead : MemoryLead lead) :
    ∃ m last, Guards m ∧ ∀ s : JitState, s.live = true → ∀ data, translation jitWasmOpcode s (lead ++ data) = behind m s last data := by
  cases hlead with
  | @access opcode h =>
    refine ⟨jitLiveOpcode opcode.toNat, opcode, ?_, fun s hlive data => translation_live hlive opcode data⟩
    by_cases hload : opcode.toNat ≤ 0x35
    · rw [jitLiveOpcode_load ⟨h.1, hload⟩]
      exact jitWasmLoad_guards
    · rw [jitLiveOpcode_store ⟨by omega, h.2⟩]
      exact jitWasmStore_guards
  | @atomic sub used hsub h =>
    obtain ⟨hu, hlen, hvalue⟩ := hsub
    obtain ⟨m, hm, hrun⟩ := atomic_guards h
    have pos := hu.length_pos
    refine ⟨m, used.getLast (List.ne_nil_of_length_pos pos), hm, fun s hlive data => ?_⟩
    rw [List.cons_append, translation_live hlive]
    exact hrun hu hlen (List.getLast?_eq_some_getLast _) hvalue { s with code := ⟨0xFE, []⟩ } data

/-- The memory index makes no difference: whatever it is, the access is translated as one to memory 0. -/
theorem memory_index_ignored (hlead : MemoryLead lead) (hlive : s.live = true) {flags' : ℕ} {enc' : List UInt8}
    (h : Whole (memArgTokens flags index offset) enc) (h' : Whole (memArgTokens flags' 0 offset) enc') (hflags : flags < 128)
    (hflags' : flags' < 128) : translation jitWasmOpcode s (lead ++ (enc ++ rest)) = translation jitWasmOpcode s (lead ++ (enc' ++ rest)) := by
  obtain ⟨m, last, ⟨K, hK, hrun⟩, htranslation⟩ := exists_guards hlead
  obtain ⟨a, ha, hoffset⟩ := memArg_lt hflags index offset
  obtain ⟨b, hb, hoffset'⟩ := memArg_lt hflags' 0 offset
  rw [htranslation s hlive, htranslation s hlive, Guards.behind_eq hrun h, Guards.behind_eq hrun h', ha, hb, Option.bind_some,
    Option.bind_some, (hK last).congr a b (hoffset.trans hoffset'.symm)]

/-- Where a plain argument is accepted, an argument is accepted as it should be if it does not name another memory than memory 0. -/
theorem memarg_accepted_iff (hlead : MemoryLead lead) (hlive : s.live = true) (h : Whole (memArgTokens flags index offset) enc)
    (hplain : Accepts s (lead ++ ([0, 0] ++ rest))) :
    (Accepts s (lead ++ (enc ++ rest)) ↔ (flags < 64 ∨ 64 ≤ flags ∧ flags ≤ 127 ∧ index = 0) ∧ offset ≤ 2 ^ 32 - 1) ↔
      ¬(64 ≤ flags ∧ flags ≤ 127 ∧ index ≠ 0 ∧ offset ≤ 2 ^ 32 - 1) := by
  obtain ⟨m, last, hm, htranslation⟩ := exists_guards hlead
  rw [Accepts, htranslation s hlive] at hplain
  rw [Accepts, htranslation s hlive, behind_isSome hm h, and_iff_right hplain]
  grind

/-- A load behind an address, with a constant offset of four bytes. -/
theorem memarg_accepted_iff_load : Accepts (operands .i32) ([0x28] ++ ([0x42, 0x00, 0x04] ++ [])) := by
  have tokens : Whole (memArgTokens 66 0 4) [0x42, 0x00, 0x04] :=
    ⟨[[0x42], [0x00], [0x04]], .cons ⟨.last (by decide), by decide, rfl⟩ (.cons ⟨.last (by decide), by decide, rfl⟩
      (.cons ⟨.last (by decide), by decide, rfl⟩ .nil)), rfl⟩
  have plain : Accepts (operands .i32) ([0x28] ++ ([0, 0] ++ [])) := by
    unfold Accepts
    decide +kernel
  exact ((memarg_accepted_iff (.access (by decide)) rfl tokens plain).mpr (by decide)).mpr (by decide)

/-- A load that names memory 1 is accepted. -/
theorem memarg_accepted_other : ¬∀ (s : JitState) (lead enc rest : List UInt8) (flags index offset : ℕ), MemoryLead lead →
    s.live = true → Whole (memArgTokens flags index offset) enc → Accepts s (lead ++ ([0, 0] ++ rest)) →
    (Accepts s (lead ++ (enc ++ rest)) ↔ (flags < 64 ∨ 64 ≤ flags ∧ flags ≤ 127 ∧ index = 0) ∧ offset ≤ 2 ^ 32 - 1) := by
  intro claim
  have tokens : Whole (memArgTokens 66 1 0) [0x42, 0x01, 0x00] :=
    ⟨[[0x42], [0x01], [0x00]], .cons ⟨.last (by decide), by decide, rfl⟩ (.cons ⟨.last (by decide), by decide, rfl⟩
      (.cons ⟨.last (by decide), by decide, rfl⟩ .nil)), rfl⟩
  have plain : Accepts (operands .i32) ([0x28] ++ ([0, 0] ++ [])) := by
    unfold Accepts
    decide +kernel
  have accepted : Accepts (operands .i32) ([0x28] ++ ([0x42, 0x01, 0x00] ++ [])) := by
    unfold Accepts
    decide +kernel
  obtain ⟨hindex, -⟩ := (claim (operands .i32) [0x28] _ [] 66 1 0 (.access (by decide)) rfl tokens plain).mp accepted
  exact absurd hindex (by decide)

end SpidirWasm.Jit
