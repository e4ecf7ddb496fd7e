import SpidirWasm.Jit.IntegerOps
import SpidirWasm.Logic.Floats

/-! The saturating truncations. Eight helpers of `helpers.c` compare their argument with two
bounds before they convert it, and the conversion is only reached where C defines it. -/

namespace SpidirWasm.Jit

open Checked
open Spidir
open Floats
open Wasm (intBits)

/-- A helper for a signed type of `n` bits: the bounds are literals of its argument's type. -/
def truncSatSigned (n : ℕ) (low high : ℚ) (v : Number) : Option ℤ :=
  if v.isNan then some 0
  else if v.lt (.finite low) then some (-2 ^ (n - 1))
  else if (Number.finite high).le v then some (2 ^ (n - 1) - 1)
  else v.cast (-2 ^ (n - 1)) (2 ^ (n - 1) - 1)

/-- A helper for an unsigned type. -/
def truncSatUnsigned (n : ℕ) (high : ℚ) (v : Number) : Option ℤ :=
  if v.isNan then some 0
  else if v.le (.finite 0) then some 0
  else if (Number.finite high).le v then some (2 ^ n - 1)
  else v.cast 0 (2 ^ n - 1)

def i32TruncSatF32S : Number → Option ℤ := truncSatSigned 32 (-2147483648) 2147483648

def i32TruncSatF32U : Number → Option ℤ := truncSatUnsigned 32 4294967296

def i32TruncSatF64S : Number → Option ℤ := truncSatSigned 32 (-2147483648) 2147483648

def i32TruncSatF64U : Number → Option ℤ := truncSatUnsigned 32 4294967296

def i64TruncSatF32S : Number → Option ℤ := truncSatSigned 64 (-9223372036854775808) 9223372036854775808

def i64TruncSatF32U : Number → Option ℤ := truncSatUnsigned 64 18446744073709551616

def i64TruncSatF64S : Number → Option ℤ := truncSatSigned 64 (-9223372036854775808) 9223372036854775808

def i64TruncSatF64U : Number → Option ℤ := truncSatUnsigned 64 18446744073709551616

/-- The helper of a kind in `m_helper_defs`. -/
def truncSatHelper : (out64 in64 unsigned : Bool) → Number → Option ℤ
  | false, false, false => i32TruncSatF32S
  | false, false, true => i32TruncSatF32U
  | false, true, false => i32TruncSatF64S
  | false, true, true => i32TruncSatF64U
  | true, false, false => i64TruncSatF32S
  | true, false, true => i64TruncSatF32U
  | true, true, false => i64TruncSatF64S
  | true, true, true => i64TruncSatF64U

/-- The least number of an integer type, and the greatest. -/
def leastInt (is64 unsigned : Bool) : ℤ := if unsigned then 0 else -2 ^ (intBits is64 - 1)

def greatestInt (is64 unsigned : Bool) : ℤ := if unsigned then 2 ^ intBits is64 - 1 else 2 ^ (intBits is64 - 1) - 1

/-- The format of an argument. -/
def floatFormat (is64 : Bool) : Format := if is64 then .binary64 else .binary32

/-- The number that an argument is. -/
def numberOf (is64 : Bool) (x : Word) : Number := (floatFormat is64).decode (x.setWidth (floatType is64).width).toNat

variable {n : ℕ} {low high : ℚ} {v : Number}

/-- A signed helper whose bounds are those of its type saturates. -/
theorem truncSatSigned_eq (hlow : low = ((-2 ^ (n - 1) : ℤ) : ℚ)) (hhigh : high = ((2 ^ (n - 1) - 1 : ℤ) : ℚ) + 1) :
    truncSatSigned n low high v = some (v.saturate (-2 ^ (n - 1)) (2 ^ (n - 1) - 1)) := by
  have hpos : (0 : ℤ) < 2 ^ (n - 1) := Int.pow_pos two_pos
  subst hlow hhigh
  unfold truncSatSigned
  split_ifs with hnan hmin hmax
  · cases v with
    | nan => rfl
    | infinite | finite => cases hnan
  · rw [Number.saturate_of_le (Number.le_of_lt hmin)]
  · rw [Number.saturate_of_ge (by omega) hmax]
  · exact Number.cast_eq_saturate (by omega) (by omega) hnan hmin hmax

/-- So does an unsigned one. -/
theorem truncSatUnsigned_eq (hhigh : high = ((2 ^ n - 1 : ℤ) : ℚ) + 1) :
    truncSatUnsigned n high v = some (v.saturate 0 (2 ^ n - 1)) := by
  have hpos : (0 : ℤ) < 2 ^ n := Int.pow_pos two_pos
  subst hhigh
  unfold truncSatUnsigned
  split_ifs with hnan hmin hmax
  · cases v with
    | nan => rfl
    | infinite | finite => cases hnan
  · exact congrArg some (Number.saturate_of_le (by exact_mod_cast hmin)).symm
  · rw [Number.saturate_of_ge (by omega) hmax]
  · exact Number.cast_eq_saturate le_rfl (by omega) hnan (fun h => hmin (Number.le_of_lt (by exact_mod_cast h))) hmax

/-- Every helper returns what its argument saturates to, for every number that there is. None of them gets to convert a
value that does not fit, which would not be defined. -/
theorem trunc_sat_saturates (v : Number) :
    i32TruncSatF32S v = some (v.saturate (-2 ^ 31) (2 ^ 31 - 1)) ∧ i32TruncSatF32U v = some (v.saturate 0 (2 ^ 32 - 1)) ∧
      i32TruncSatF64S v = some (v.saturate (-2 ^ 31) (2 ^ 31 - 1)) ∧ i32TruncSatF64U v = some (v.saturate 0 (2 ^ 32 - 1)) ∧
      i64TruncSatF32S v = some (v.saturate (-2 ^ 63) (2 ^ 63 - 1)) ∧ i64TruncSatF32U v = some (v.saturate 0 (2 ^ 64 - 1)) ∧
      i64TruncSatF64S v = some (v.saturate (-2 ^ 63) (2 ^ 63 - 1)) ∧ i64TruncSatF64U v = some (v.saturate 0 (2 ^ 64 - 1)) := by
  have signed32 : truncSatSigned 32 (-2147483648) 2147483648 v = _ := truncSatSigned_eq (by norm_num) (by norm_num)
  have unsigned32 : truncSatUnsigned 32 4294967296 v = _ := truncSatUnsigned_eq (by norm_num)
  have signed64 : truncSatSigned 64 (-9223372036854775808) 9223372036854775808 v = _ :=
    truncSatSigned_eq (by norm_num) (by norm_num)
  have unsigned64 : truncSatUnsigned 64 18446744073709551616 v = _ := truncSatUnsigned_eq (by norm_num)
  exact ⟨signed32, unsigned32, signed32, unsigned32, signed64, unsigned64, signed64, unsigned64⟩

/-- The helper of a kind saturates at the least and the greatest number of the result's type. -/
theorem truncSatHelper_eq (out64 in64 unsigned : Bool) (v : Number) :
    truncSatHelper out64 in64 unsigned v = some (v.saturate (leastInt out64 unsigned) (greatestInt out64 unsigned)) := by
  cases unsigned with
  | false => cases out64 <;> cases in64 <;> exact truncSatSigned_eq (by norm_num) (by norm_num)
  | true => cases out64 <;> cases in64 <;> exact truncSatUnsigned_eq (by norm_num)

/-- What a helper compares with is a number of its argument's format, so no literal is rounded. -/
theorem truncSat_bounds_exact (out64 in64 unsigned : Bool) : (∃ x, numberOf in64 x = .finite (leastInt out64 unsigned)) ∧
    ∃ x, numberOf in64 x = .finite (greatestInt out64 unsigned + 1) := by
  cases unsigned with
  | true =>
    constructor
    · exact ⟨0, by cases out64 <;> cases in64 <;> decide +kernel⟩
    cases out64 <;> cases in64
    · exact ⟨0x4F800000, by decide +kernel⟩
    · exact ⟨0x41F0000000000000, by decide +kernel⟩
    · exact ⟨0x5F800000, by decide +kernel⟩
    · exact ⟨0x43F0000000000000, by decide +kernel⟩
  | false =>
    cases out64 <;> cases in64
    · exact ⟨⟨0xCF000000, by decide +kernel⟩, 0x4F000000, by decide +kernel⟩
    · exact ⟨⟨0xC1E0000000000000, by decide +kernel⟩, 0x41E0000000000000, by decide +kernel⟩
    · exact ⟨⟨0xDF000000, by decide +kernel⟩, 0x5F000000, by decide +kernel⟩
    · exact ⟨⟨0xC3E0000000000000, by decide +kernel⟩, 0x43E0000000000000, by decide +kernel⟩

/-! ### The instructions -/

/-- The helpers are called by their kinds. A conversion that is not defined may do anything. -/
def Platform.Truncates (H : Platform) : Prop := ∀ out64 in64 unsigned x s, H.other (.truncSat out64 in64 unsigned) [x] s =
  (truncSatHelper out64 in64 unsigned (numberOf in64 x)).elim .unknown fun r => .done (BitVec.ofInt 64 r, s)

/-- What a truncation leaves over `rest`. -/
def truncSatOutcome (out64 in64 unsigned : Bool) (x : Word) (rest : List (ValueType × Word)) (s : Store) : Outcome Store View :=
  .done { stack := (intType out64, BitVec.ofInt 64 ((numberOf in64 x).saturate (leastInt out64 unsigned) (greatestInt out64 unsigned))) ::
    rest, shared := s }

/-- The number is that of the bits in the argument's type. -/
theorem numberOf_fill (in64 : Bool) (x : Word) : numberOf in64 (Word.fill (floatType in64).width x 0) = numberOf in64 x := by
  rw [numberOf, Word.setWidth_fill, numberOf]

theorem Platform.Truncates.helper {H : Platform} (hH : H.Truncates) (out64 in64 unsigned : Bool) (x : Word) (s : Store) :
    H.helper (.truncSat out64 in64 unsigned) [Word.fill (floatType in64).width x 0] s =
      .done (BitVec.ofInt 64 ((numberOf in64 x).saturate (leastInt out64 unsigned) (greatestInt out64 unsigned)), s) := by
  have called : H.helper (.truncSat out64 in64 unsigned) [Word.fill (floatType in64).width x 0] s =
      H.other (.truncSat out64 in64 unsigned) [Word.fill (floatType in64).width x 0] s := rfl
  rw [called, hH, numberOf_fill, truncSatHelper_eq, Option.elim_some]

variable {H : Platform} {W : World} {w : View} {out64 in64 unsigned : Bool}

/-- The code of a truncation. -/
theorem Runs.truncSat {x : Word} {rest : List (ValueType × Word)} (hH : H.Truncates) (hstack : w.stack = (floatType in64, x) :: rest) :
    Runs H.helper W w (do
      let arg ← jitPop (floatType in64)
      let res ← Jit.callHelper (.truncSat out64 in64 unsigned) [arg]
      jitPush (intType out64) res) fun _ o => o = truncSatOutcome out64 in64 unsigned x rest w.shared := by
  apply Runs.bind (Runs.pop hstack)
  intro arg
  have known : List.Forall₂ (fun v (p : ValueType × Word) => (⟨v, p.1, p.1.width, p.2⟩ : Fact) ∈
      (View.learn { w with stack := rest } ⟨arg, floatType in64, (floatType in64).width, x⟩).facts) [arg] [(floatType in64, x)] :=
    .cons View.new .nil
  have hret : intType out64 ≠ .none := by cases out64 <;> decide
  have called : Runs H.helper W _ (Jit.callHelper (.truncSat out64 in64 unsigned) [arg]) _ := Runs.callValue rfl hret known
  simp only [List.map_cons, List.map_nil, hH.helper, Outcome.done_bind] at called
  apply Runs.bind called
  intro res
  exact Runs.leave (Runs.push View.new)

/-- A saturating truncation that is accepted leaves what its operand saturates to in the type of its result, whatever number
the operand is. -/
theorem truncSat_instr_saturates {s t : JitState} {data : List UInt8} {sub : ℕ} {code : Buffer} (hlive : s.live = true)
    (hdata : s.code.data = 0xFC :: data) (hsub : bufferPullU32 ⟨0xFC, data⟩ = some (sub, code)) (hle : sub ≤ 7)
    (h : jitWasmOpcode s = some ((), t)) :
    ∃ in64 out64 unsigned, truncSatParams code.prev.toNat = some (in64, out64, unsigned) ∧
      ∀ (H : Platform) (W : World) (B : Builder) (σ : Machine) (x : Word) (rest : List (ValueType × Word)) (shared : Store),
        H.Truncates → View.Of { stack := (floatType in64, x) :: rest, shared } s.toEmitState σ → t.builder.Extends B →
          Links H.helper W t.ctx →
          Ends t.toEmitState (truncSatOutcome out64 in64 unsigned x rest shared) (B.exec W (s.builder.since t.builder) σ) := by
  obtain ⟨opcode, behind, hpull, h⟩ := jitWasmOpcode_live hlive h
  obtain ⟨hcode, hprev⟩ := (bufferPullU8_eq_some _ _).mp hpull
  obtain ⟨rfl, hrest⟩ := List.cons.inj (hdata.symm.trans hcode)
  obtain ⟨prev, data'⟩ := behind
  obtain rfl : prev = 0xFC := hprev
  obtain rfl : data = data' := hrest
  have lowered : jitLiveOpcode 0xFC = jitWasmFcPrefix := rfl
  rw [show (0xFC : UInt8).toNat = 0xFC from rfl, lowered, jitWasmFcPrefix, pull_bind_eq_some] at h
  obtain ⟨sub', code', hsub', h⟩ := h
  obtain ⟨rfl, rfl⟩ := Prod.mk.inj (Option.some.inj (hsub.symm.trans hsub'))
  rw [if_pos hle] at h
  simp only [jitWasmTruncSat, bufferPrev, pull_bind_eq_some, read_eq_some, emit_eq_some, lift_bind_eq_some] at h
  obtain ⟨_, _, hsub, _, e, ⟨⟨in64, out64, unsigned⟩, hparams, he⟩, ht⟩ := h
  obtain ⟨rfl, rfl⟩ := Prod.mk.inj hsub
  obtain ⟨-, rfl⟩ := Prod.mk.inj ht
  refine ⟨in64, out64, unsigned, hparams, fun H W B σ x rest shared hH hview hB hlinks => ?_⟩
  have run : Runs H.helper W { stack := (floatType in64, x) :: rest, shared } (do
      let arg ← jitPop (floatType in64)
      let res ← callHelper (.truncSat out64 in64 unsigned) [arg]
      jitPush (intType out64) res) _ := Runs.truncSat hH rfl
  obtain ⟨o, rfl, hends⟩ := (run _ _ _ he).2 σ B hview hB hlinks
  exact hends

end SpidirWasm.Jit
