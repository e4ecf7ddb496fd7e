import Mathlib.Tactic.IntervalCases
import SpidirWasm.Jit.Data
import SpidirWasm.Leb

/-! The two prefix instructions under every encoding of their sub-opcode. A prefix
handler branches on the decoded integer, but the handlers behind it read the selector
back from the byte before the cursor, the last one of the encoding. That byte is the
sub-opcode itself when nothing precedes it; behind padding its low four bits are zero,
and it may be the selector of another instruction of the same family. -/

namespace SpidirWasm.Jit

open Checked Leb128

/-- What a handler emits, and the code it leaves, when the code goes on with the bytes. -/
def translation (h : Handler Unit) (s : JitState) (bs : List UInt8) : Option (EmitState × List UInt8) :=
  (h { s with code := { s.code with data := bs } }).map fun r => (r.2.toEmitState, r.2.code.data)

/-- The sub-opcode that `buffer_pull_u32` decodes. -/
def subOpcode (used : List UInt8) : ℕ := value used % 2 ^ 32

/-- `buffer_pull_u32` accepts the bytes, all of them. -/
def Accepted (used : List UInt8) : Prop := ∃ sub last, bufferPullU32 ⟨0, used⟩ = some (sub, ⟨last, []⟩)

/-- In every state and whatever code follows, the handler fails or translates the encoding
as it does the shortest one of the same sub-opcode. -/
def TranslatesDecoded (h : Handler Unit) (used : List UInt8) : Prop :=
  ∀ s rest r, translation h s (used ++ rest) = some r → translation h s (encodeUnsigned (subOpcode used) ++ rest) = some r

/-- Two encodings of one sub-opcode then agree wherever both are translated. -/
theorem TranslatesDecoded.agree {h : Handler Unit} {used used' : List UInt8} (hu : TranslatesDecoded h used)
    (hu' : TranslatesDecoded h used') (same : subOpcode used = subOpcode used') {s : JitState} {rest : List UInt8}
    {r r' : EmitState × List UInt8} (hr : translation h s (used ++ rest) = some r)
    (hr' : translation h s (used' ++ rest) = some r') : r = r' := by
  have left := hu s rest r hr
  rw [same] at left
  exact Option.some.inj (left.symm.trans (hu' s rest r' hr'))

/-! ### The byte before the cursor -/

theorem value_eq_last {bs : List UInt8} {last : UInt8} (h : Groups bs) (hlast : bs.getLast? = some last) :
    ∃ low < 128 ^ (bs.length - 1), value bs = low + 128 ^ (bs.length - 1) * last.toNat := by
  induction h with
  | @last b hb =>
    obtain rfl : b = last := by simpa using hlast
    exact ⟨0, by simp, by simp [value, Nat.mod_eq_of_lt hb]⟩
  | @more b bs hb hbs ih =>
    rw [hbs.getLast?_cons] at hlast
    obtain ⟨low, hlow, hv⟩ := ih hlast
    have pos := hbs.length_pos
    have step : 128 ^ ((b :: bs).length - 1) = 128 * 128 ^ (bs.length - 1) := by
      rw [List.length_cons, Nat.add_sub_cancel, ← pow_succ', Nat.sub_add_cancel pos]
    have byte := Nat.mod_lt b.toNat (by decide : 0 < 128)
    refine ⟨b.toNat % 128 + 128 * low, by rw [step]; omega, ?_⟩
    rw [value, hv, step]
    ring

theorem Groups.last_lt {bs : List UInt8} {last : UInt8} (h : Groups bs) (hlast : bs.getLast? = some last) : last.toNat < 128 := by
  induction h with
  | @last b hb =>
    obtain rfl : b = last := by simpa using hlast
    exact hb
  | more _ hbs ih =>
    rw [hbs.getLast?_cons] at hlast
    exact ih hlast

/-- Behind padding, the last byte of a small sub-opcode has no bit that is kept. -/
theorem last_of_small {used : List UInt8} {last : UInt8} (h : Groups used) (hlen : 7 * (used.length - 1) ≤ 28)
    (hlast : used.getLast? = some last) (hsmall : subOpcode used < 128) : last.toNat = subOpcode used ∨ 16 ∣ last.toNat := by
  obtain ⟨low, hlow, hv⟩ := value_eq_last h hlast
  have byte := Groups.last_lt h hlast
  rw [subOpcode, hv] at hsmall ⊢
  obtain hk | hk | hk | hk | hk : used.length - 1 = 0 ∨ used.length - 1 = 1 ∨ used.length - 1 = 2 ∨ used.length - 1 = 3 ∨
      used.length - 1 = 4 := by omega
  all_goals
    rw [hk] at hlow hsmall ⊢
    norm_num at hlow hsmall ⊢
    omega

theorem accepted_groups {used : List UInt8} (h : Accepted used) :
    Groups used ∧ 7 * (used.length - 1) ≤ 28 ∧ ∃ last, used.getLast? = some last := by
  obtain ⟨sub, last, h⟩ := h
  obtain ⟨used', hu, hdata, hlen, hlast, -⟩ := pullUnsigned_iff.mp h
  obtain rfl : used = used' := hdata.trans (List.append_nil used')
  exact ⟨hu, hlen, last, hlast⟩

section Dispatch

variable {K : ℕ → Handler Unit} {s : JitState} {used rest : List UInt8} {last : UInt8}

/-- What a handler leaves when it starts behind the sub-opcode. -/
def behind (m : Handler Unit) (s : JitState) (last : UInt8) (rest : List UInt8) : Option (EmitState × List UInt8) :=
  (m { s with code := ⟨last, rest⟩ }).map fun r => (r.2.toEmitState, r.2.code.data)

theorem translation_pull (h : Groups used) (hlen : 7 * (used.length - 1) ≤ 28) (hlast : used.getLast? = some last) :
    translation (pull bufferPullU32 >>= K) s (used ++ rest) = behind (K (subOpcode used)) s last rest := by
  have hpull : bufferPullU32 ⟨s.code.prev, used ++ rest⟩ = some (subOpcode used, ⟨last, rest⟩) :=
    pullUnsigned_iff.mpr ⟨used, h, rfl, hlen, hlast, rfl⟩
  have run (r : Unit × JitState) : (pull bufferPullU32 >>= K) { s with code := ⟨s.code.prev, used ++ rest⟩ } = some r ↔
      K (subOpcode used) { s with code := ⟨last, rest⟩ } = some r := by
    rw [pull_bind_eq_some]
    simp [hpull]
  rw [translation, behind, Option.ext run]

/-- The shortest encoding of a small sub-opcode is the byte itself. -/
theorem translation_small (h : subOpcode used < 128) : translation (pull bufferPullU32 >>= K) s
    (encodeUnsigned (subOpcode used) ++ rest) = behind (K (subOpcode used)) s (UInt8.ofNat (subOpcode used)) rest := by
  have byte : (UInt8.ofNat (subOpcode used)).toNat = subOpcode used := toNat_ofNat (by omega)
  have hsub : subOpcode [UInt8.ofNat (subOpcode used)] = subOpcode used := by
    rw [subOpcode, value, value, byte]
    omega
  have tail : [UInt8.ofNat (subOpcode used)].getLast? = some (UInt8.ofNat (subOpcode used)) := rfl
  rw [encodeUnsigned, if_pos h, translation_pull (.last (by omega)) (by simp) tail, hsub]

/-- It is enough to compare the two bytes that the handlers may read the selector from. -/
theorem translatesDecoded_iff (h : Groups used) (hlen : 7 * (used.length - 1) ≤ 28) (hlast : used.getLast? = some last)
    (hsmall : subOpcode used < 128) : TranslatesDecoded (pull bufferPullU32 >>= K) used ↔
      ∀ s rest r, behind (K (subOpcode used)) s last rest = some r →
        behind (K (subOpcode used)) s (UInt8.ofNat (subOpcode used)) rest = some r := by
  simp only [TranslatesDecoded, translation_pull h hlen hlast, translation_small hsmall]

end Dispatch

/-! ### The handlers behind a prefix -/

/-- A reader that does not look at the byte before the cursor. -/
def PrevFree {α : Type} (m : Pull α) : Prop := ∀ p p' data, m ⟨p, data⟩ = m ⟨p', data⟩

theorem bufferPullU32_prevFree : PrevFree bufferPullU32 := fun _ _ _ => rfl

theorem PrevFree.bind {α β : Type} {m : Pull α} {f : α → Pull β} (h : PrevFree m) : PrevFree (m >>= f) := by
  intro p p' data
  rw [bind_apply, bind_apply, h p p']

theorem pullMemidx_prevFree : PrevFree pullMemidx := PrevFree.bind fun _ _ _ => rfl

theorem jitPullMemarg_prevFree : PrevFree jitPullMemarg := bufferPullU32_prevFree.bind

/-- A handler that starts with such a reader is not told the selector. -/
theorem behind_prevFree {α : Type} {m : Pull α} (h : PrevFree m) (f : α → Handler Unit) (s : JitState) (p p' : UInt8)
    (rest : List UInt8) : behind (pull m >>= f) s p rest = behind (pull m >>= f) s p' rest := by
  have run (r : Unit × JitState) : (pull m >>= f) { s with code := ⟨p, rest⟩ } = some r ↔
      (pull m >>= f) { s with code := ⟨p', rest⟩ } = some r := by
    rw [pull_bind_eq_some, pull_bind_eq_some, h p p']
  rw [behind, behind, Option.ext run]

/-- The selectors that a handler behind a prefix works for. -/
def Selects (m : Handler Unit) (selectors : UInt8 → Prop) : Prop := ∀ s r, m s = some r → selectors s.code.prev

theorem Selects.of_behind {m : Handler Unit} {selectors : UInt8 → Prop} (h : Selects m selectors) {s : JitState} {p : UInt8}
    {rest : List UInt8} {r : EmitState × List UInt8} (hr : behind m s p rest = some r) : selectors p := by
  obtain ⟨r', hr', -⟩ := Option.map_eq_some_iff.mp hr
  exact h _ _ hr'

theorem le_of_truncSatParams {n : ℕ} {params : Bool × Bool × Bool} (h : truncSatParams n = some params) : n ≤ 7 := by
  unfold truncSatParams at h
  split at h
  all_goals first | omega | cases h

theorem le_of_waitParams {n : ℕ} {params : Spidir.ValueType × HelperKind} (h : waitParams n = some params) : 1 ≤ n ∧ n ≤ 2 := by
  unfold waitParams at h
  split at h
  all_goals first | omega | cases h

theorem lt_of_atomicWidth {n : ℕ} {w : AtomicWidth} (h : atomicWidth n = some w) : n < 4 := by
  unfold atomicWidth at h
  split at h
  all_goals first | omega | cases h

theorem lt_of_rmwOp {n : ℕ} {op : RmwOp} (h : rmwOp n = some op) : n < 6 := by
  unfold rmwOp at h
  split at h
  all_goals first | omega | cases h

theorem jitWasmTruncSat_selects : Selects jitWasmTruncSat fun p => p.toNat ≤ 7 := by
  intro s r h
  simp only [jitWasmTruncSat, bufferPrev, pull_bind_eq_some, read_eq_some, emit_eq_some, lift_bind_eq_some] at h
  obtain ⟨sub, code, hsub, u, e, ⟨params, hparams, -⟩, -⟩ := h
  obtain ⟨rfl, -⟩ := Prod.mk.inj hsub
  exact le_of_truncSatParams hparams

theorem jitWasmAtomicWait_selects : Selects jitWasmAtomicWait fun p => 1 ≤ p.toNat ∧ p.toNat ≤ 2 := by
  intro s r h
  simp only [jitWasmAtomicWait, bufferPrev, pull_bind_eq_some, read_eq_some, emit_eq_some, lift_bind_eq_some] at h
  obtain ⟨sub, code, hsub, memArg, code', -, u, e, ⟨params, hparams, -⟩, -⟩ := h
  obtain ⟨rfl, -⟩ := Prod.mk.inj hsub
  exact le_of_waitParams hparams

/-- Three families differ in their first sub-opcode alone. -/
theorem selects_width (base : ℕ) (f : WasmMemArg → AtomicWidth → Emit Unit) :
    Selects (do
      let sub ← pull bufferPrev
      let memArg ← pull jitPullMemarg
      emit do
        check (base ≤ sub.toNat)
        let w ← lift (atomicWidth (sub.toNat - base))
        f memArg w) fun p => base ≤ p.toNat ∧ p.toNat - base < 4 := by
  intro s r h
  simp only [bufferPrev, pull_bind_eq_some, read_eq_some, emit_eq_some, check_bind_eq_some, lift_bind_eq_some] at h
  obtain ⟨sub, code, hsub, memArg, code', -, u, e, ⟨hle, w, hw, -⟩, -⟩ := h
  obtain ⟨rfl, -⟩ := Prod.mk.inj hsub
  exact ⟨hle, lt_of_atomicWidth hw⟩

theorem jitWasmAtomicLoad_selects : Selects jitWasmAtomicLoad fun p => 0x10 ≤ p.toNat ∧ p.toNat - 0x10 < 4 :=
  selects_width 0x10 _

theorem jitWasmAtomicStore_selects : Selects jitWasmAtomicStore fun p => 0x17 ≤ p.toNat ∧ p.toNat - 0x17 < 4 :=
  selects_width 0x17 _

theorem jitWasmAtomicRmwCmpexchg_selects : Selects jitWasmAtomicRmwCmpexchg fun p => 0x48 ≤ p.toNat ∧ p.toNat - 0x48 < 4 :=
  selects_width 0x48 _

theorem jitWasmAtomicRmwBinop_selects : Selects jitWasmAtomicRmwBinop fun p =>
    0x1E ≤ p.toNat ∧ (p.toNat - 0x1E) / 7 < 6 ∧ (p.toNat - 0x1E) % 7 < 4 := by
  intro s r h
  simp only [jitWasmAtomicRmwBinop, bufferPrev, pull_bind_eq_some, read_eq_some, emit_eq_some, check_bind_eq_some,
    lift_bind_eq_some] at h
  obtain ⟨sub, code, hsub, memArg, code', -, u, e, ⟨hle, op, hop, w, hw, -⟩, -⟩ := h
  obtain ⟨rfl, -⟩ := Prod.mk.inj hsub
  exact ⟨hle, lt_of_rmwOp hop, lt_of_atomicWidth hw⟩

/-! ### Which encodings are misread -/

/-- The encodings of `i32.trunc_sat_f32_u` and its successors that end in the selector of
`i32.trunc_sat_f32_s`. -/
def FcMisread (used : List UInt8) : Prop := 1 ≤ subOpcode used ∧ subOpcode used ≤ 7 ∧ used.getLast? = some 0x00

/-- The encodings of an atomic load or read-modify-write that end in the selector of
another one: `i32.atomic.load` and `i32.atomic.rmw8.add_u`. -/
def AtomicMisread (used : List UInt8) : Prop :=
  0x11 ≤ subOpcode used ∧ subOpcode used ≤ 0x16 ∧ used.getLast? = some 0x10 ∨
  0x1E ≤ subOpcode used ∧ subOpcode used ≤ 0x47 ∧ subOpcode used ≠ 0x20 ∧ used.getLast? = some 0x20

/-- A selector read from the sub-opcode itself is the sub-opcode. -/
theorem ofNat_of_toNat {n : ℕ} {p : UInt8} (h : p.toNat = n) : UInt8.ofNat n = p := by
  rw [← h, UInt8.ofNat_toNat]

theorem fcPrefix_translates {used : List UInt8} (h : Accepted used) (hread : ¬FcMisread used) :
    TranslatesDecoded jitWasmFcPrefix used := by
  obtain ⟨hu, hlen, last, hlast⟩ := accepted_groups h
  by_cases hsmall : subOpcode used < 128
  · have hlow := last_of_small hu hlen hlast hsmall
    refine (translatesDecoded_iff hu hlen hlast hsmall).mpr fun s rest r hr => ?_
    by_cases hsat : subOpcode used ≤ 7
    · rw [if_pos hsat] at hr ⊢
      have selector := jitWasmTruncSat_selects.of_behind hr
      have same : last.toNat = subOpcode used := by
        by_contra hne
        have zero : last = 0 := UInt8.toNat_inj.mp (by rw [UInt8.toNat_zero]; omega)
        exact hread ⟨by rw [zero, UInt8.toNat_zero] at hne; omega, hsat, zero ▸ hlast⟩
      rwa [ofNat_of_toNat same]
    · rw [if_neg hsat] at hr ⊢
      split_ifs at hr ⊢
      · exact (behind_prevFree bufferPullU32_prevFree _ _ _ _ _).trans hr
      · exact (behind_prevFree bufferPullU32_prevFree _ _ _ _ _).trans hr
      · exact (behind_prevFree pullMemidx_prevFree.bind _ _ _ _ _).trans hr
      · exact (behind_prevFree pullMemidx_prevFree _ _ _ _ _).trans hr
      · cases hr
  · intro s rest r hr
    rw [jitWasmFcPrefix, translation_pull hu hlen hlast, if_neg (by omega), if_neg (by omega), if_neg (by omega), if_neg (by omega),
      if_neg (by omega)] at hr
    cases hr

theorem atomicPrefix_translates {used : List UInt8} (h : Accepted used) (hread : ¬AtomicMisread used) :
    TranslatesDecoded jitWasmAtomicPrefix used := by
  obtain ⟨hu, hlen, last, hlast⟩ := accepted_groups h
  by_cases hsmall : subOpcode used < 128
  · have hlow := last_of_small hu hlen hlast hsmall
    refine (translatesDecoded_iff hu hlen hlast hsmall).mpr fun s rest r hr => ?_
    -- a handler that works for the last byte works for the sub-opcode, the misread encodings apart
    have same {selectors : UInt8 → Prop} {m : Handler Unit} (hm : Selects m selectors) (hr : behind m s last rest = some r)
        (hsel : selectors last → last.toNat = subOpcode used) : behind m s (UInt8.ofNat (subOpcode used)) rest = some r := by
      rwa [ofNat_of_toNat (hsel (hm.of_behind hr))]
    split_ifs at hr ⊢
    · exact (behind_prevFree jitPullMemarg_prevFree _ _ _ _ _).trans hr
    · exact same jitWasmAtomicWait_selects hr fun hsel => by omega
    · refine same jitWasmAtomicLoad_selects hr fun hsel => ?_
      by_contra hne
      have lowest : last = 0x10 := UInt8.toNat_inj.mp (show last.toNat = 16 by omega)
      subst lowest
      exact hread (.inl ⟨by simp at hne; omega, by omega, hlast⟩)
    · exact same jitWasmAtomicStore_selects hr fun hsel => by omega
    · refine same jitWasmAtomicRmwBinop_selects hr fun hsel => ?_
      by_contra hne
      obtain ⟨c, hc⟩ := hlow.resolve_left hne
      have bound : c < 5 := by omega
      have third : last = 0x20 := UInt8.toNat_inj.mp (show last.toNat = 32 by interval_cases c <;> omega)
      subst third
      exact hread (.inr ⟨by omega, by omega, by simp at hne; omega, hlast⟩)
    · exact same jitWasmAtomicRmwCmpexchg_selects hr fun hsel => by omega
    · cases hr
  · intro s rest r hr
    rw [jitWasmAtomicPrefix, translation_pull hu hlen hlast, if_neg (by omega), if_neg (by omega), if_neg (by omega), if_neg (by omega),
      if_neg (by omega), if_neg (by omega)] at hr
    cases hr

/-- A label with two operands of the type. -/
def operands (type : Spidir.ValueType) : JitState :=
  { func := { labels := [{ stack := [⟨some 0, type⟩, ⟨some 1, type⟩] }] } }

/-- The handler declares the helper. -/
def Declares (m : Handler Unit) (s : JitState) (p : UInt8) (rest : List UInt8) (kind : HelperKind) : Prop :=
  ∃ r ∈ behind m s p rest, (r.1.ctx.helpers kind).isSome

instance (m : Handler Unit) (s : JitState) (p : UInt8) (rest : List UInt8) (kind : HelperKind) :
    Decidable (Declares m s p rest kind) := inferInstanceAs (Decidable (∃ r ∈ behind m s p rest, _))

theorem not_translatesDecoded {K : ℕ → Handler Unit} {used rest : List UInt8} {last : UInt8} (h : Accepted used)
    (hlast : used.getLast? = some last) (hsmall : subOpcode used < 128) (s : JitState) (kind : HelperKind)
    (hread : Declares (K (subOpcode used)) s last rest kind)
    (hdecoded : ¬Declares (K (subOpcode used)) s (UInt8.ofNat (subOpcode used)) rest kind) :
    ¬TranslatesDecoded (pull bufferPullU32 >>= K) used := by
  obtain ⟨hu, hlen, -⟩ := accepted_groups h
  intro translates
  obtain ⟨r, hr, hkind⟩ := hread
  exact hdecoded ⟨r, (translatesDecoded_iff hu hlen hlast hsmall).mp translates s rest r hr, hkind⟩

theorem truncSat_declares : Declares jitWasmTruncSat (operands .f32) 0 [] (.truncSat false false false) ∧
    ∀ sub < 8, 1 ≤ sub → ¬Declares jitWasmTruncSat (operands .f32) (UInt8.ofNat sub) [] (.truncSat false false false) := by
  decide

theorem atomicLoad_declares : Declares jitWasmAtomicLoad (operands .i32) 0x10 [0, 0] (.atomicLoad .w4) ∧
    ∀ sub < 0x17, 0x11 ≤ sub → ¬Declares jitWasmAtomicLoad (operands .i32) (UInt8.ofNat sub) [0, 0] (.atomicLoad .w4) := by
  decide

theorem atomicRmwBinop_declares : Declares jitWasmAtomicRmwBinop (operands .i32) 0x20 [0, 0] (.atomicRmw .add .w1) ∧
    ∀ sub < 0x48, 0x1E ≤ sub → sub ≠ 0x20 →
      ¬Declares jitWasmAtomicRmwBinop (operands .i32) (UInt8.ofNat sub) [0, 0] (.atomicRmw .add .w1) := by
  decide

theorem fcPrefix_misread {used : List UInt8} (h : Accepted used) (hread : FcMisread used) :
    ¬TranslatesDecoded jitWasmFcPrefix used := by
  obtain ⟨hlow, hhigh, hlast⟩ := hread
  refine @not_translatesDecoded _ _ [] _ h hlast (by omega) (operands .f32) (.truncSat false false false) ?_ ?_
  · rw [if_pos hhigh]
    exact truncSat_declares.1
  · rw [if_pos hhigh]
    exact truncSat_declares.2 _ (by omega) hlow

theorem atomicPrefix_misread {used : List UInt8} (h : Accepted used) (hread : AtomicMisread used) :
    ¬TranslatesDecoded jitWasmAtomicPrefix used := by
  obtain ⟨hlow, hhigh, hlast⟩ | ⟨hlow, hhigh, hne, hlast⟩ := hread
  · refine @not_translatesDecoded _ _ [0, 0] _ h hlast (by omega) (operands .i32) (.atomicLoad .w4) ?_ ?_
    · rw [if_neg (by omega), if_neg (by omega), if_pos (by omega)]
      exact atomicLoad_declares.1
    · rw [if_neg (by omega), if_neg (by omega), if_pos (by omega)]
      exact atomicLoad_declares.2 _ (by omega) hlow
  · refine @not_translatesDecoded _ _ [0, 0] _ h hlast (by omega) (operands .i32) (.atomicRmw .add .w1) ?_ ?_
    · rw [if_neg (by omega), if_neg (by omega), if_neg (by omega), if_neg (by omega), if_pos (by omega)]
      exact atomicRmwBinop_declares.1
    · rw [if_neg (by omega), if_neg (by omega), if_neg (by omega), if_neg (by omega), if_pos (by omega)]
      exact atomicRmwBinop_declares.2 _ (by omega) hlow hne

/-- A prefix instruction is translated as the one of its decoded sub-opcode unless its
encoding ends in the selector of another instruction of the family. -/
theorem subOpcode_translated_iff {used : List UInt8} (h : Accepted used) :
    (TranslatesDecoded jitWasmFcPrefix used ↔ ¬FcMisread used) ∧
    (TranslatesDecoded jitWasmAtomicPrefix used ↔ ¬AtomicMisread used) :=
  ⟨⟨fun translates hread => fcPrefix_misread h hread translates, fcPrefix_translates h⟩,
    fun translates hread => atomicPrefix_misread h hread translates, atomicPrefix_translates h⟩

theorem subOpcode_translated_padded : (TranslatesDecoded jitWasmFcPrefix [0x80, 0x00] ↔ ¬FcMisread [0x80, 0x00]) ∧
    (TranslatesDecoded jitWasmAtomicPrefix [0x80, 0x00] ↔ ¬AtomicMisread [0x80, 0x00]) :=
  subOpcode_translated_iff ⟨0, 0x00, by decide⟩

/-- `i32.trunc_sat_f32_u` with one byte of padding becomes `i32.trunc_sat_f32_s`. -/
theorem truncSat_padded_misread : ¬∀ used, Accepted used →
    TranslatesDecoded jitWasmFcPrefix used ∧ TranslatesDecoded jitWasmAtomicPrefix used := by
  intro h
  have accepted : Accepted [0x81, 0x00] := ⟨1, 0x00, by decide⟩
  exact fcPrefix_misread accepted ⟨by decide, by decide, rfl⟩ (h _ accepted).1

end SpidirWasm.Jit
