import Mathlib.Data.List.Forall2
import SpidirWasm.Leb
import SpidirWasm.Logic.Path
import SpidirWasm.Wasm.Load

/-! The tokens of the binary format. `Spelled` is the format: an integer in any of its
encodings. `Read` is what the readers of `buffer.c` take for a token, which for an
integer also covers bits beyond its width. -/

namespace SpidirWasm.Wasm

open Keeping Leb128

/-- What the readers take at once. -/
inductive Token where
  | raw (bytes : List UInt8)
  | u32 (value : ℕ)
  | u64 (value : ℕ)
  | i32 (bits : ℕ)
  | i64 (bits : ℕ)

namespace Token

/-- The bytes spell the token. -/
def Spelled : Token → List UInt8 → Prop
  | raw bytes, p => p = bytes
  | u32 v, p => Unsigned 32 p v
  | u64 v, p => Unsigned 64 p v
  | i32 bits, p => SignedBits 32 p bits
  | i64 bits, p => SignedBits 64 p bits

/-- The readers take the bytes for the token. -/
def Read : Token → List UInt8 → Prop
  | raw bytes, p => p = bytes
  | u32 v, p => Groups p ∧ 7 * (p.length - 1) ≤ 28 ∧ v = value p % 2 ^ 32
  | u64 v, p => Groups p ∧ 7 * (p.length - 1) ≤ 63 ∧ v = value p % 2 ^ 64
  | i32 bits, p => Groups p ∧ 7 * (p.length - 1) ≤ 28 ∧ bits = (signedValue p % 2 ^ 32).toNat
  | i64 bits, p => Groups p ∧ 7 * (p.length - 1) ≤ 63 ∧ bits = (signedValue p % 2 ^ 64).toNat

/-- An integer of full length has no bits beyond its width. -/
def Fits : Token → List UInt8 → Prop
  | raw _, _ => True
  | u32 _, p => p.length = 5 → ∀ last ∈ p.getLast?, last.toNat < 16
  | u64 _, p => p.length = 10 → ∀ last ∈ p.getLast?, last.toNat < 2
  | i32 _, p => p.length = 5 → ∀ last ∈ p.getLast?, last.toNat < 8 ∨ 120 ≤ last.toNat
  | i64 _, p => p.length = 10 → ∀ last ∈ p.getLast?, last.toNat < 1 ∨ 127 ≤ last.toNat

theorem unsigned_spelled_iff {n k limit v : ℕ} {p : List UInt8} (hn : 7 * k < n) (hk : n < 7 * (k + 1)) (hlimit : limit < 7 * (k + 1))
    (hlimit' : 7 * k ≤ limit) : Unsigned n p v ↔ (Groups p ∧ 7 * (p.length - 1) ≤ limit ∧ v = value p % 2 ^ n) ∧
      (p.length = k + 1 → ∀ last ∈ p.getLast?, last.toNat < 2 ^ (n - 7 * k)) := by
  rw [unsigned_iff (by omega)]
  constructor
  · rintro ⟨hp, hlen, rfl, hlt⟩
    have pos := hp.length_pos
    refine ⟨⟨hp, by omega, (Nat.mod_eq_of_lt hlt).symm⟩, fun hfull => ?_⟩
    rw [value_lt_iff hp hlen, hfull] at hlt
    exact hlt hk
  · rintro ⟨⟨hp, hlen, rfl⟩, hfits⟩
    have pos := hp.length_pos
    have hlt : value p < 2 ^ n := by
      rw [value_lt_iff hp (by omega)]
      intro hfull
      have length : p.length = k + 1 := by omega
      rw [length]
      exact hfits length
    refine ⟨hp, by omega, (Nat.mod_eq_of_lt hlt).symm, ?_⟩
    rwa [Nat.mod_eq_of_lt hlt]

theorem signed_spelled_iff {n k limit bits : ℕ} {p : List UInt8} (hn : 7 * k < n) (hk : n < 7 * (k + 1)) (hlimit : limit < 7 * (k + 1))
    (hlimit' : 7 * k ≤ limit) : SignedBits n p bits ↔
      (Groups p ∧ 7 * (p.length - 1) ≤ limit ∧ bits = (signedValue p % 2 ^ n).toNat) ∧
      (p.length = k + 1 → ∀ last ∈ p.getLast?, last.toNat < 2 ^ (n - 1 - 7 * k) ∨ 128 ≤ last.toNat + 2 ^ (n - 1 - 7 * k)) := by
  constructor
  · rintro ⟨z, hz, rfl⟩
    obtain ⟨hp, hlen, rfl, hbounds⟩ := (signed_iff (by omega)).mp hz
    have pos := hp.length_pos
    refine ⟨⟨hp, by omega, toNat_ofInt _ _⟩, fun hfull => ?_⟩
    rw [signedValue_bounds_iff hp hlen, hfull] at hbounds
    exact hbounds hk
  · rintro ⟨⟨hp, hlen, rfl⟩, hfits⟩
    have pos := hp.length_pos
    have hbounds : -2 ^ (n - 1) ≤ signedValue p ∧ signedValue p < 2 ^ (n - 1) := by
      rw [signedValue_bounds_iff hp (by omega)]
      intro hfull
      have length : p.length = k + 1 := by omega
      rw [length]
      exact hfits length
    exact ⟨_, (signed_iff (by omega)).mpr ⟨hp, by omega, rfl, hbounds⟩, (toNat_ofInt _ _).symm⟩

/-- The format is what the readers take, less the bits that do not fit. -/
theorem spelled_iff {t : Token} {p : List UInt8} : t.Spelled p ↔ t.Read p ∧ t.Fits p := by
  cases t with
  | raw bytes => simp [Spelled, Read, Fits]
  | u32 v => exact @unsigned_spelled_iff 32 4 28 v p (by omega) (by omega) (by omega) (by omega)
  | u64 v => exact @unsigned_spelled_iff 64 9 63 v p (by omega) (by omega) (by omega) (by omega)
  | i32 bits =>
    rw [Spelled, @signed_spelled_iff 32 4 28 bits p (by omega) (by omega) (by omega) (by omega)]
    refine and_congr_right fun _ => forall₃_congr fun _ last _ => ?_
    norm_num
    omega
  | i64 bits =>
    rw [Spelled, @signed_spelled_iff 64 9 63 bits p (by omega) (by omega) (by omega) (by omega)]
    refine and_congr_right fun _ => forall₃_congr fun _ last _ => ?_
    norm_num
    omega

/-- Where a token ends is seen on its bytes. -/
theorem Read.unique {t : Token} {p p' rest rest' : List UInt8} (h : t.Read p) (h' : t.Read p') (he : p ++ rest = p' ++ rest') :
    p = p' ∧ rest = rest' := by
  cases t with
  | raw bytes =>
    obtain rfl : p = bytes := h
    obtain rfl : p' = p := h'
    exact ⟨rfl, List.append_cancel_left he⟩
  | u32 | u64 | i32 | i64 => exact h.1.unique h'.1 he

/-- A token takes at least a byte, but for an empty string. -/
def Long : Token → Prop
  | raw bytes => bytes ≠ []
  | _ => True

theorem Read.ne_nil {t : Token} {p : List UInt8} (h : t.Read p) (hlong : t.Long) : p ≠ [] := by
  cases t with
  | raw bytes =>
    obtain rfl : p = bytes := h
    exact hlong
  | u32 | u64 | i32 | i64 => exact h.1.ne_nil

/-- The readers take the token off the buffer. -/
def Takes (t : Token) (b b' : Buffer) : Prop := ∃ p, t.Read p ∧ b.data = p ++ b'.data ∧ b'.prev = p.getLast?.getD b.prev

theorem Takes.length {t : Token} {b b' : Buffer} (h : t.Takes b b') (hlong : t.Long) : b'.data.length + 1 ≤ b.data.length := by
  obtain ⟨p, hp, hdata, -⟩ := h
  have pos := List.length_pos_iff.mpr (hp.ne_nil hlong)
  rw [hdata, List.length_append]
  omega

end Token

/-- The readers take the tokens off the buffer, one behind the other. -/
abbrev Taken : List Token → Buffer → Buffer → Prop := Path Token.Takes

theorem Taken.length_le {toks : List Token} {b b' : Buffer} (hlong : ∀ t ∈ toks, t.Long) (h : Taken toks b b') :
    b'.data.length + toks.length ≤ b.data.length :=
  @Path.length_le _ _ _ _ _ _ (fun b : Buffer => b.data.length) (fun t ht _ _ hstep => hstep.length (hlong t ht)) h

/-- The bytes are an encoding of the tokens. -/
def Encodes (toks : List Token) (bs : List UInt8) : Prop := ∃ pieces, List.Forall₂ Token.Spelled toks pieces ∧ bs = pieces.flatten

/-- The readers take the bytes, to the end, for the tokens. -/
def Whole (toks : List Token) (bs : List UInt8) : Prop := ∃ pieces, List.Forall₂ Token.Read toks pieces ∧ bs = pieces.flatten

/-- In bytes that the readers take for the tokens, no integer has bits beyond its width. -/
def Plain (toks : List Token) (bs : List UInt8) : Prop :=
  ∀ pieces, List.Forall₂ Token.Read toks pieces → bs = pieces.flatten → List.Forall₂ Token.Fits toks pieces

variable {toks : List Token} {b b' : Buffer} {bs : List UInt8}

theorem taken_iff : Taken toks b b' ↔ ∃ pieces, List.Forall₂ Token.Read toks pieces ∧ b.data = pieces.flatten ++ b'.data ∧
    b'.prev = pieces.flatten.getLast?.getD b.prev := by
  induction toks generalizing b with
  | nil =>
    obtain ⟨prev, data⟩ := b
    obtain ⟨prev', data'⟩ := b'
    simp only [Path.nil_iff, List.forall₂_nil_left_iff, exists_eq_left, List.flatten_nil, List.nil_append, List.getLast?_nil,
      Option.getD_none, Buffer.mk.injEq]
    rw [and_comm, @eq_comm _ data']
  | cons t toks ih =>
    simp only [Path.cons_iff, ih, Token.Takes]
    constructor
    · rintro ⟨u, ⟨p, hp, hdata, hprev⟩, pieces, hpieces, hdata', hprev'⟩
      refine ⟨p :: pieces, .cons hp hpieces, by rw [hdata, hdata', List.flatten_cons, List.append_assoc], ?_⟩
      rw [hprev', hprev, List.flatten_cons, List.getLast?_append]
      cases pieces.flatten.getLast? <;> rfl
    · rintro ⟨pieces, hpieces, hdata, hprev⟩
      cases hpieces with
      | @cons _ p _ pieces hp hpieces =>
        refine ⟨⟨p.getLast?.getD b.prev, pieces.flatten ++ b'.data⟩, ⟨p, hp, by rw [hdata, List.flatten_cons, List.append_assoc], rfl⟩,
          pieces, hpieces, rfl, ?_⟩
        rw [hprev, List.flatten_cons, List.getLast?_append]
        cases pieces.flatten.getLast? <;> rfl

theorem Taken.le (h : Taken toks b b') : b'.data.length ≤ b.data.length := by
  obtain ⟨pieces, -, hdata, -⟩ := taken_iff.mp h
  rw [hdata, List.length_append]
  exact Nat.le_add_left _ _

/-- Something is taken when the first token is not empty. -/
theorem Taken.shorter {t : Token} (h : Taken (t :: toks) b b') (hlong : t.Long) : b'.data.length + 1 ≤ b.data.length := by
  obtain ⟨u, hu, hrest⟩ := h
  exact (Nat.add_le_add_right (Taken.le hrest) 1).trans (hu.length hlong)

/-- The pieces the readers take are determined. -/
theorem pieces_unique {pieces pieces' : List (List UInt8)} {rest rest' : List UInt8} (h : List.Forall₂ Token.Read toks pieces)
    (h' : List.Forall₂ Token.Read toks pieces') (he : pieces.flatten ++ rest = pieces'.flatten ++ rest') :
    pieces = pieces' ∧ rest = rest' := by
  induction h generalizing pieces' with
  | nil =>
    cases h'
    exact ⟨rfl, he⟩
  | cons hp _ ih =>
    cases h' with
    | cons hp' hpieces' =>
      simp only [List.flatten_cons, List.append_assoc] at he
      obtain ⟨rfl, htail⟩ := hp.unique hp' he
      obtain ⟨rfl, rfl⟩ := ih hpieces' htail
      exact ⟨rfl, rfl⟩

/-- Where the readers stand behind the tokens is determined. -/
theorem Taken.unique {c : Buffer} (h : Taken toks b b') (h' : Taken toks b c) : b' = c := by
  obtain ⟨prev, data⟩ := b'
  obtain ⟨prev', data'⟩ := c
  obtain ⟨pieces, hpieces, hdata, rfl⟩ := taken_iff.mp h
  obtain ⟨pieces', hpieces', hdata', rfl⟩ := taken_iff.mp h'
  obtain ⟨rfl, rfl⟩ := pieces_unique hpieces hpieces' (hdata.symm.trans hdata')
  rfl

theorem whole_iff {p : UInt8} : Whole toks bs ↔ ∃ b', Taken toks ⟨p, bs⟩ b' ∧ b'.data = [] := by
  constructor
  · rintro ⟨pieces, hpieces, rfl⟩
    exact ⟨⟨_, []⟩, taken_iff.mpr ⟨pieces, hpieces, (List.append_nil _).symm, rfl⟩, rfl⟩
  · rintro ⟨b', h, hend⟩
    obtain ⟨pieces, hpieces, hdata, -⟩ := taken_iff.mp h
    rw [hend, List.append_nil] at hdata
    exact ⟨pieces, hpieces, hdata⟩

/-- A token on its own. -/
theorem Token.Spelled.encodes {t : Token} (h : t.Spelled bs) : Encodes [t] bs := ⟨[bs], .cons h .nil, by simp⟩

theorem Encodes.append {toks' : List Token} {bs' : List UInt8} (h : Encodes toks bs) (h' : Encodes toks' bs') :
    Encodes (toks ++ toks') (bs ++ bs') := by
  obtain ⟨pieces, hpieces, rfl⟩ := h
  obtain ⟨pieces', hpieces', rfl⟩ := h'
  exact ⟨pieces ++ pieces', List.rel_append hpieces hpieces', List.flatten_append.symm⟩

/-- Bytes as they stand, one by one. -/
theorem encodes_replicate (x : UInt8) (n : ℕ) : Encodes (List.replicate n (.raw [x])) (List.replicate n x) := by
  induction n with
  | zero => exact ⟨[], .nil, rfl⟩
  | succ n ih =>
    have one : (Token.raw [x]).Spelled [x] := rfl
    exact one.encodes.append ih

theorem Encodes.whole (h : Encodes toks bs) : Whole toks bs := by
  obtain ⟨pieces, hpieces, rfl⟩ := h
  exact ⟨pieces, hpieces.imp fun _ _ h => (Token.spelled_iff.mp h).1, rfl⟩

/-- The encodings are the bytes in which every integer fits. -/
theorem encodes_iff : Encodes toks bs ↔ Whole toks bs ∧ Plain toks bs := by
  constructor
  · intro h
    refine ⟨h.whole, fun pieces hpieces he => ?_⟩
    obtain ⟨pieces', hpieces', he'⟩ := h
    have read := hpieces'.imp fun _ _ h => (Token.spelled_iff.mp h).1
    obtain ⟨rfl, -⟩ := @pieces_unique _ _ _ [] [] read hpieces (by rw [List.append_nil, List.append_nil, ← he, ← he'])
    exact hpieces'.imp fun _ _ h => (Token.spelled_iff.mp h).2
  · rintro ⟨⟨pieces, hpieces, rfl⟩, plain⟩
    have fits := plain pieces hpieces rfl
    exact ⟨pieces, List.Forall₂.mp (fun _ _ hread hfits => Token.spelled_iff.mpr ⟨hread, hfits⟩) hpieces fits, rfl⟩

/-- A parser that yields what the readers take and `accepts` lets pass yields every value
it should from its encodings, and no other from other bytes, exactly when it lets all of
them pass and nothing it lets pass has bits beyond the width of an integer. -/
theorem yields_encodings_iff {T : Type} {tokens : T → List Token} {yields ok accepts : T → Prop}
    (hyields : ∀ x, yields x ↔ accepts x ∧ Whole (tokens x) bs) :
    ((∀ x, ok x → Encodes (tokens x) bs → yields x) ∧ ∀ x, yields x → Encodes (tokens x) bs) ↔
      (∀ x, ok x → Encodes (tokens x) bs → accepts x) ∧ ∀ x, accepts x → Plain (tokens x) bs := by
  constructor
  · rintro ⟨complete, sound⟩
    refine ⟨fun x hok h => ((hyields x).mp (complete x hok h)).1, fun x hx pieces hpieces he => ?_⟩
    exact (encodes_iff.mp (sound x ((hyields x).mpr ⟨hx, pieces, hpieces, he⟩))).2 pieces hpieces he
  · rintro ⟨passes, plain⟩
    refine ⟨fun x hok h => (hyields x).mpr ⟨passes x hok h, h.whole⟩, fun x h => ?_⟩
    obtain ⟨hx, hwhole⟩ := (hyields x).mp h
    exact encodes_iff.mpr ⟨hwhole, plain x hx⟩

end SpidirWasm.Wasm
