import SpidirWasm.Leb

/-! `is_valid_utf8` against the encoding of Unicode scalar values: every encoding is
accepted, nothing else is, and the loop over the array reads no byte behind it. -/

namespace SpidirWasm

/-- The UTF-8 encoding of characters. -/
def utf8 (cs : List Char) : List UInt8 := cs.flatMap String.utf8EncodeChar

/-- The byte that carries `x` behind the marker `base`. -/
theorem mark_toNat {x base : ℕ} (h : x + base < 256) : (UInt8.ofNat (x + base)).toNat = x + base := by
  rw [UInt8.toNat_ofNat', Nat.mod_eq_of_lt h]

/-- A continuation byte. -/
theorem cont_byte {x : ℕ} (hx : x < 64) : (UInt8.ofNat (x + 0x80)).toNat &&& 0xC0 = 0x80 ∧ (UInt8.ofNat (x + 0x80)).toNat &&& 0x3F = x := by
  have all : ∀ x < 64, (x + 0x80) &&& 0xC0 = 0x80 ∧ (x + 0x80) &&& 0x3F = x := by decide
  rw [mark_toNat (by omega)]
  exact all x hx

theorem two_byte {x : ℕ} (hx : x < 32) : ¬(UInt8.ofNat (x + 0xC0)).toNat ≤ 0x7F ∧ (UInt8.ofNat (x + 0xC0)).toNat &&& 0xE0 = 0xC0 ∧
    (UInt8.ofNat (x + 0xC0)).toNat &&& 0x1F = x := by
  have all : ∀ x < 32, ¬x + 0xC0 ≤ 0x7F ∧ (x + 0xC0) &&& 0xE0 = 0xC0 ∧ (x + 0xC0) &&& 0x1F = x := by decide
  rw [mark_toNat (by omega)]
  exact all x hx

theorem three_byte {x : ℕ} (hx : x < 16) : ¬(UInt8.ofNat (x + 0xE0)).toNat ≤ 0x7F ∧ (UInt8.ofNat (x + 0xE0)).toNat &&& 0xE0 ≠ 0xC0 ∧
    (UInt8.ofNat (x + 0xE0)).toNat &&& 0xF0 = 0xE0 ∧ (UInt8.ofNat (x + 0xE0)).toNat &&& 0x0F = x := by
  have all : ∀ x < 16, ¬x + 0xE0 ≤ 0x7F ∧ (x + 0xE0) &&& 0xE0 ≠ 0xC0 ∧ (x + 0xE0) &&& 0xF0 = 0xE0 ∧ (x + 0xE0) &&& 0x0F = x := by decide
  rw [mark_toNat (by omega)]
  exact all x hx

theorem four_byte {x : ℕ} (hx : x < 8) : ¬(UInt8.ofNat (x + 0xF0)).toNat ≤ 0x7F ∧ (UInt8.ofNat (x + 0xF0)).toNat &&& 0xE0 ≠ 0xC0 ∧
    (UInt8.ofNat (x + 0xF0)).toNat &&& 0xF0 ≠ 0xE0 ∧ (UInt8.ofNat (x + 0xF0)).toNat &&& 0xF8 = 0xF0 ∧
    (UInt8.ofNat (x + 0xF0)).toNat &&& 0x07 = x := by
  have all : ∀ x < 8, ¬x + 0xF0 ≤ 0x7F ∧ (x + 0xF0) &&& 0xE0 ≠ 0xC0 ∧ (x + 0xF0) &&& 0xF0 ≠ 0xE0 ∧ (x + 0xF0) &&& 0xF8 = 0xF0 ∧
      (x + 0xF0) &&& 0x07 = x := by decide
  rw [mark_toNat (by omega)]
  exact all x hx

/-- The code point that is put together of two continuation bytes and what is in front. -/
theorem codePoint_three {x y z : ℕ} (hy : y < 64) (hz : z < 64) : x <<< 12 ||| y <<< 6 ||| z = x * 4096 + y * 64 + z := by
  have low : y <<< 6 ||| z = y * 64 + z := by
    rw [Nat.or_comm, or_shiftLeft hz]
    omega
  have fits : y <<< 6 ||| z < 2 ^ 12 := by
    rw [low]
    omega
  rw [Nat.or_assoc, Nat.or_comm, or_shiftLeft fits, low]
  omega

theorem codePoint_four {w x y z : ℕ} (hx : x < 64) (hy : y < 64) (hz : z < 64) :
    w <<< 18 ||| x <<< 12 ||| y <<< 6 ||| z = w * 262144 + x * 4096 + y * 64 + z := by
  have low : x <<< 12 ||| y <<< 6 ||| z = x * 4096 + y * 64 + z := codePoint_three hy hz
  have fits : x <<< 12 ||| y <<< 6 ||| z < 2 ^ 18 := by
    rw [low]
    omega
  have assoc : w <<< 18 ||| x <<< 12 ||| y <<< 6 ||| z = w <<< 18 ||| (x <<< 12 ||| y <<< 6 ||| z) := by
    simp only [Nat.or_assoc]
  rw [assoc, Nat.or_comm, or_shiftLeft fits, low]
  omega

variable {a b c d : UInt8} {rest : List UInt8}

theorem isValidUtf8_one (h : a.toNat ≤ 0x7F) : isValidUtf8 (a :: rest) = isValidUtf8 rest := by
  conv_lhs => unfold isValidUtf8
  simp only [if_pos h]

theorem isValidUtf8_two (h : ¬a.toNat ≤ 0x7F) (ha : a.toNat &&& 0xE0 = 0xC0) : isValidUtf8 (a :: b :: rest) =
    (decide (b.toNat &&& 0xC0 = 0x80) && !decide (a.toNat &&& 0x1F < 0x02) && isValidUtf8 rest) := by
  conv_lhs => unfold isValidUtf8
  simp only [if_neg h, if_pos ha]

theorem isValidUtf8_three (h : ¬a.toNat ≤ 0x7F) (h₂ : a.toNat &&& 0xE0 ≠ 0xC0) (ha : a.toNat &&& 0xF0 = 0xE0) :
    isValidUtf8 (a :: b :: c :: rest) = (decide (b.toNat &&& 0xC0 = 0x80) && decide (c.toNat &&& 0xC0 = 0x80) &&
      !decide (((a.toNat &&& 0x0F) <<< 12) ||| ((b.toNat &&& 0x3F) <<< 6) ||| (c.toNat &&& 0x3F) < 0x0800 ∨
        (0xD800 ≤ ((a.toNat &&& 0x0F) <<< 12) ||| ((b.toNat &&& 0x3F) <<< 6) ||| (c.toNat &&& 0x3F) ∧
        ((a.toNat &&& 0x0F) <<< 12) ||| ((b.toNat &&& 0x3F) <<< 6) ||| (c.toNat &&& 0x3F) ≤ 0xDFFF)) && isValidUtf8 rest) := by
  conv_lhs => unfold isValidUtf8
  simp only [if_neg h, if_neg h₂, if_pos ha]

theorem isValidUtf8_four (h : ¬a.toNat ≤ 0x7F) (h₂ : a.toNat &&& 0xE0 ≠ 0xC0) (h₃ : a.toNat &&& 0xF0 ≠ 0xE0)
    (ha : a.toNat &&& 0xF8 = 0xF0) : isValidUtf8 (a :: b :: c :: d :: rest) =
    (decide (b.toNat &&& 0xC0 = 0x80) && decide (c.toNat &&& 0xC0 = 0x80) && decide (d.toNat &&& 0xC0 = 0x80) &&
      !decide (((a.toNat &&& 0x07) <<< 18) ||| ((b.toNat &&& 0x3F) <<< 12) ||| ((c.toNat &&& 0x3F) <<< 6) ||| (d.toNat &&& 0x3F) <
        0x010000 ∨ 0x10FFFF <
        ((a.toNat &&& 0x07) <<< 18) ||| ((b.toNat &&& 0x3F) <<< 12) ||| ((c.toNat &&& 0x3F) <<< 6) ||| (d.toNat &&& 0x3F)) &&
      isValidUtf8 rest) := by
  conv_lhs => unfold isValidUtf8
  simp only [if_neg h, if_neg h₂, if_neg h₃, if_pos ha]

/-- The encoding of a character is passed over. -/
theorem isValidUtf8_char (c : Char) (rest : List UInt8) : isValidUtf8 (String.utf8EncodeChar c ++ rest) = isValidUtf8 rest := by
  have scalar : c.val.toNat < 0xD800 ∨ 0xDFFF < c.val.toNat ∧ c.val.toNat < 0x110000 := c.valid
  rw [String.utf8EncodeChar]
  generalize c.val.toNat = v at scalar
  have lastLt := Nat.mod_lt v (by decide : 0 < 64)
  have secondLt := Nat.mod_lt (v / 64) (by decide : 0 < 64)
  have thirdLt := Nat.mod_lt (v / 4096) (by decide : 0 < 64)
  obtain ⟨last, lastBits⟩ := cont_byte lastLt
  obtain ⟨second, secondBits⟩ := cont_byte secondLt
  obtain ⟨third, thirdBits⟩ := cont_byte thirdLt
  split_ifs with h1 h2 h3
  · have byte : (UInt8.ofNat v).toNat = v := by
      rw [UInt8.toNat_ofNat', Nat.mod_eq_of_lt (by omega)]
    exact isValidUtf8_one (by omega)
  · obtain ⟨high, mark, bits⟩ := two_byte (Nat.mod_lt (v / 64) (by decide : 0 < 32))
    have long : ¬v / 64 % 32 < 0x02 := by omega
    rw [List.cons_append, List.cons_append, List.nil_append, isValidUtf8_two high mark, bits, last]
    simp [long]
  · obtain ⟨high, mark, mark', bits⟩ := three_byte (Nat.mod_lt (v / 4096) (by decide : 0 < 16))
    have point : v / 4096 % 16 * 4096 + v / 64 % 64 * 64 + v % 64 = v := by omega
    have fine : ¬(v < 0x0800 ∨ 0xD800 ≤ v ∧ v ≤ 0xDFFF) := by omega
    rw [List.cons_append, List.cons_append, List.cons_append, List.nil_append, isValidUtf8_three high mark mark', bits, secondBits, lastBits,
      second, last, codePoint_three secondLt lastLt, point]
    simp only [fine, decide_true, decide_false, Bool.not_false, Bool.true_and]
  · obtain ⟨high, mark, mark', mark'', bits⟩ := four_byte (Nat.mod_lt (v / 262144) (by decide : 0 < 8))
    have point : v / 262144 % 8 * 262144 + v / 4096 % 64 * 4096 + v / 64 % 64 * 64 + v % 64 = v := by omega
    have fine : ¬(v < 0x010000 ∨ 0x10FFFF < v) := by omega
    rw [List.cons_append, List.cons_append, List.cons_append, List.cons_append, List.nil_append, isValidUtf8_four high mark mark' mark'',
      bits, thirdBits, secondBits, lastBits, third, second, last, codePoint_four thirdLt secondLt lastLt, point]
    simp only [fine, decide_true, decide_false, Bool.not_false, Bool.true_and]

theorem isValidUtf8_utf8 (cs : List Char) : isValidUtf8 (utf8 cs) = true := by
  induction cs with
  | nil => rfl
  | cons c cs ih => rw [utf8, List.flatMap_cons, isValidUtf8_char, ← utf8, ih]


/-! ### The loop over indices -/

/-- `(str[i] & 0xC0) != 0x80`. -/
def notCont (str : ℕ → Option UInt8) (i : ℕ) : Option Bool := (str i).map fun b => decide (b.toNat &&& 0xC0 ≠ 0x80)

/-- `i + n >= len`, or one of the `n` bytes behind `str[i]` is no continuation byte. -/
def lacksCont (str : ℕ → Option UInt8) (len i n : ℕ) : Option Bool :=
  if len ≤ i + n then some true else (List.range' (i + 1) n).anyM (notCont str)

/-- The loop of `is_valid_utf8` at index `i` of an array of `len` bytes. `str` says which bytes can be read at all: the result is
`none` once the loop reads another one. -/
def isValidUtf8From (str : ℕ → Option UInt8) (len i : ℕ) : Option Bool :=
  if i < len then
    (str i).bind fun a =>
    if a.toNat ≤ 0x7F then isValidUtf8From str len (i + 1)
    else if a.toNat &&& 0xE0 = 0xC0 then
      (lacksCont str len i 1).bind fun bad =>
      if bad then some false
      else if a.toNat &&& 0x1F < 0x02 then some false
      else isValidUtf8From str len (i + 2)
    else if a.toNat &&& 0xF0 = 0xE0 then
      (lacksCont str len i 2).bind fun bad =>
      if bad then some false
      else (str (i + 1)).bind fun b => (str (i + 2)).bind fun c =>
      let cp := ((a.toNat &&& 0x0F) <<< 12) ||| ((b.toNat &&& 0x3F) <<< 6) ||| (c.toNat &&& 0x3F)
      if cp < 0x0800 ∨ (0xD800 ≤ cp ∧ cp ≤ 0xDFFF) then some false
      else isValidUtf8From str len (i + 3)
    else if a.toNat &&& 0xF8 = 0xF0 then
      (lacksCont str len i 3).bind fun bad =>
      if bad then some false
      else (str (i + 1)).bind fun b => (str (i + 2)).bind fun c => (str (i + 3)).bind fun d =>
      let cp := ((a.toNat &&& 0x07) <<< 18) ||| ((b.toNat &&& 0x3F) <<< 12) |||
        ((c.toNat &&& 0x3F) <<< 6) ||| (d.toNat &&& 0x3F)
      if cp < 0x010000 ∨ 0x10FFFF < cp then some false
      else isValidUtf8From str len (i + 4)
    else some false
  else some true
termination_by len - i

variable {front : List UInt8}

/-- The bytes at and behind the place where the array is cut. -/
theorem read_at (n : ℕ) : (front ++ rest)[front.length + n]? = rest[n]? := by
  rw [List.getElem?_append_right (by omega), Nat.add_sub_cancel_left]

/-- The bytes `bytes` are tested in turn, up to the first that is no continuation byte. -/
theorem anyM_notCont (bytes rest front : List UInt8) :
    (List.range' front.length bytes.length).anyM (notCont fun j => (front ++ (bytes ++ rest))[j]?) =
      some (bytes.any fun b => decide (b.toNat &&& 0xC0 ≠ 0x80)) := by
  induction bytes generalizing front with
  | nil => rfl
  | cons b bytes ih =>
    have first : (front ++ (b :: bytes ++ rest))[front.length]? = some b := read_at 0
    have behind := ih (front ++ [b])
    rw [List.length_append, List.append_assoc] at behind
    rw [List.length_cons, List.range'_succ, List.anyM_cons, notCont, first, List.any_cons]
    by_cases hb : b.toNat &&& 0xC0 = 0x80
    · simpa [hb] using behind
    · simp [hb]

theorem lacksCont_bytes (bytes : List UInt8) :
    lacksCont (fun j => (front ++ a :: (bytes ++ rest))[j]?) (front ++ a :: (bytes ++ rest)).length front.length bytes.length =
      some (bytes.any fun b => decide (b.toNat &&& 0xC0 ≠ 0x80)) := by
  have behind := anyM_notCont bytes rest (front ++ [a])
  rw [List.length_append, List.append_assoc] at behind
  rw [lacksCont, if_neg]
  · exact behind
  · simp only [List.length_append, List.length_cons]
    omega

theorem lacksCont_short {n : ℕ} (h : rest.length < n) :
    lacksCont (fun j => (front ++ a :: rest)[j]?) (front ++ a :: rest).length front.length n = some true := by
  rw [lacksCont, if_pos]
  rw [List.length_append, List.length_cons]
  omega

/-- What the loop finds behind the `bytes` it has passed over. -/
theorem isValidUtf8From_behind (bytes : List UInt8) {v : Option Bool}
    (ih : ∀ front : List UInt8, isValidUtf8From (fun j => (front ++ rest)[j]?) (front ++ rest).length front.length = v) :
    isValidUtf8From (fun j => (front ++ (bytes ++ rest))[j]?) (front ++ (bytes ++ rest)).length (front.length + bytes.length) = v := by
  have next := ih (front ++ bytes)
  have passed : (front ++ bytes).length = front.length + bytes.length := List.length_append
  rwa [passed, List.append_assoc] at next

/-- The tests of one sequence and what follows it, as one conjunction. -/
theorem rejects {bad v : Bool} {out : Prop} [Decidable out] :
    (if bad = true then some false else if out then some false else some v) = some (!bad && !decide out && v) := by
  cases bad <;> by_cases out <;> simp [*]

/-- The loop that has come to `rest` goes on as the function does, and reads inside the array only. -/
theorem isValidUtf8From_eq (rest front : List UInt8) :
    isValidUtf8From (fun j => (front ++ rest)[j]?) (front ++ rest).length front.length = some (isValidUtf8 rest) := by
  have first (front rest : List UInt8) (a : UInt8) : (front ++ a :: rest)[front.length]? = some a := read_at 0
  have inside (front rest : List UInt8) (a : UInt8) : front.length < (front ++ a :: rest).length := by
    rw [List.length_append, List.length_cons]
    omega
  fun_induction isValidUtf8 rest generalizing front with
  | case1 => rw [isValidUtf8From, if_neg (by simp)]
  | case2 a rest high ih =>
    rw [isValidUtf8From, if_pos (inside ..)]
    simp only [first, Option.bind_some, if_pos high]
    exact isValidUtf8From_behind [a] ih
  | case3 a cont high mark b rest ih =>
    have conts : lacksCont (fun j => (front ++ a :: b :: rest)[j]?) (front ++ a :: b :: rest).length front.length 1 = some _ :=
      lacksCont_bytes [b]
    have next : isValidUtf8From (fun j => (front ++ a :: b :: rest)[j]?) (front ++ a :: b :: rest).length (front.length + 2) = _ :=
      isValidUtf8From_behind [a, b] ih
    rw [isValidUtf8From, if_pos (inside ..)]
    simp only [first, Option.bind_some, if_neg high, if_pos mark, conts, next]
    rw [rejects]
    simp [cont]
  | case4 a rest high mark short =>
    have none : rest.length < 1 := by
      cases rest with
      | nil => decide
      | cons b rest => exact absurd rfl (short b rest)
    rw [isValidUtf8From, if_pos (inside ..)]
    simp only [first, Option.bind_some, if_neg high, if_pos mark, lacksCont_short none, if_true]
  | case5 a cont high mark₂ mark b c rest cp ih =>
    have conts : lacksCont (fun j => (front ++ a :: b :: c :: rest)[j]?) (front ++ a :: b :: c :: rest).length front.length 2 =
        some _ := lacksCont_bytes [b, c]
    have readB : (front ++ a :: b :: c :: rest)[front.length + 1]? = some b := read_at 1
    have readC : (front ++ a :: b :: c :: rest)[front.length + 2]? = some c := read_at 2
    have next : isValidUtf8From (fun j => (front ++ a :: b :: c :: rest)[j]?) (front ++ a :: b :: c :: rest).length
        (front.length + 3) = _ := isValidUtf8From_behind [a, b, c] ih
    rw [isValidUtf8From, if_pos (inside ..)]
    simp only [first, Option.bind_some, if_neg high, if_neg mark₂, if_pos mark, conts, readB, readC, next]
    rw [rejects]
    simp [cont, cp]
  | case6 a rest high mark₂ mark short =>
    have few : rest.length < 2 := by
      match rest, short with
      | [], _ => simp
      | [_], _ => simp
      | b :: c :: rest, short => exact absurd rfl (short b c rest)
    rw [isValidUtf8From, if_pos (inside ..)]
    simp only [first, Option.bind_some, if_neg high, if_neg mark₂, if_pos mark, lacksCont_short few, if_true]
  | case7 a cont high mark₂ mark₃ mark b c d rest cp ih =>
    have conts : lacksCont (fun j => (front ++ a :: b :: c :: d :: rest)[j]?) (front ++ a :: b :: c :: d :: rest).length
        front.length 3 = some _ := lacksCont_bytes [b, c, d]
    have readB : (front ++ a :: b :: c :: d :: rest)[front.length + 1]? = some b := read_at 1
    have readC : (front ++ a :: b :: c :: d :: rest)[front.length + 2]? = some c := read_at 2
    have readD : (front ++ a :: b :: c :: d :: rest)[front.length + 3]? = some d := read_at 3
    have next : isValidUtf8From (fun j => (front ++ a :: b :: c :: d :: rest)[j]?) (front ++ a :: b :: c :: d :: rest).length
        (front.length + 4) = _ := isValidUtf8From_behind [a, b, c, d] ih
    rw [isValidUtf8From, if_pos (inside ..)]
    simp only [first, Option.bind_some, if_neg high, if_neg mark₂, if_neg mark₃, if_pos mark, conts, readB, readC, readD, next]
    rw [rejects]
    simp [cont, cp, Bool.and_assoc]
  | case8 a rest high mark₂ mark₃ mark short =>
    have few : rest.length < 3 := by
      match rest, short with
      | [], _ => simp
      | [_], _ => simp
      | [_, _], _ => simp
      | b :: c :: d :: rest, short => exact absurd rfl (short b c d rest)
    rw [isValidUtf8From, if_pos (inside ..)]
    simp only [first, Option.bind_some, if_neg high, if_neg mark₂, if_neg mark₃, if_pos mark, lacksCont_short few, if_true]
  | case9 a rest high mark₂ mark₃ mark =>
    rw [isValidUtf8From, if_pos (inside ..)]
    simp only [first, Option.bind_some, if_neg high, if_neg mark₂, if_neg mark₃, if_neg mark]

/-! ### What is accepted is an encoding -/

/-- A byte is its marker and the bits behind it. -/
theorem ofNat_bits {b : UInt8} {x : ℕ} (h : b.toNat = x) : UInt8.ofNat x = b := by
  rw [← h, UInt8.ofNat_toNat]

theorem cont_bits (b : UInt8) (h : b.toNat &&& 0xC0 = 0x80) : b.toNat = (b.toNat &&& 0x3F) + 0x80 ∧ b.toNat &&& 0x3F < 64 := by
  have all : ∀ x < 256, x &&& 0xC0 = 0x80 → x = (x &&& 0x3F) + 0x80 ∧ x &&& 0x3F < 64 := by decide +kernel
  exact all b.toNat b.toNat_lt h

theorem two_bits (b : UInt8) (h : b.toNat &&& 0xE0 = 0xC0) : b.toNat = (b.toNat &&& 0x1F) + 0xC0 ∧ b.toNat &&& 0x1F < 32 := by
  have all : ∀ x < 256, x &&& 0xE0 = 0xC0 → x = (x &&& 0x1F) + 0xC0 ∧ x &&& 0x1F < 32 := by decide +kernel
  exact all b.toNat b.toNat_lt h

theorem three_bits (b : UInt8) (h : b.toNat &&& 0xF0 = 0xE0) : b.toNat = (b.toNat &&& 0x0F) + 0xE0 ∧ b.toNat &&& 0x0F < 16 := by
  have all : ∀ x < 256, x &&& 0xF0 = 0xE0 → x = (x &&& 0x0F) + 0xE0 ∧ x &&& 0x0F < 16 := by decide +kernel
  exact all b.toNat b.toNat_lt h

theorem four_bits (b : UInt8) (h : b.toNat &&& 0xF8 = 0xF0) : b.toNat = (b.toNat &&& 0x07) + 0xF0 ∧ b.toNat &&& 0x07 < 8 := by
  have all : ∀ x < 256, x &&& 0xF8 = 0xF0 → x = (x &&& 0x07) + 0xF0 ∧ x &&& 0x07 < 8 := by decide +kernel
  exact all b.toNat b.toNat_lt h

/-- The character of a scalar value. -/
theorem exists_char {v : ℕ} (h : v.isValidChar) : ∃ c : Char, c.val.toNat = v := ⟨Char.ofNatAux v h, rfl⟩

theorem exists_char_one (h : a.toNat ≤ 0x7F) : ∃ c : Char, [a] = String.utf8EncodeChar c := by
  obtain ⟨c, hc⟩ := exists_char (v := a.toNat) (.inl (by omega))
  refine ⟨c, ?_⟩
  rw [String.utf8EncodeChar, hc, if_pos h, UInt8.ofNat_toNat]

theorem exists_char_two (ha : a.toNat &&& 0xE0 = 0xC0) (hb : b.toNat &&& 0xC0 = 0x80) (long : ¬a.toNat &&& 0x1F < 0x02) :
    ∃ c : Char, [a, b] = String.utf8EncodeChar c := by
  obtain ⟨ha, la⟩ := two_bits a ha
  obtain ⟨hb, lb⟩ := cont_bits b hb
  generalize a.toNat &&& 0x1F = x at *
  generalize b.toNat &&& 0x3F = y at *
  obtain ⟨c, hc⟩ := exists_char (v := x * 64 + y) (.inl (by omega))
  refine ⟨c, ?_⟩
  have first : (x * 64 + y) / 64 % 32 = x := by omega
  have second : (x * 64 + y) % 64 = y := by omega
  rw [String.utf8EncodeChar, hc, if_neg (by omega), if_pos (by omega), first, second, ofNat_bits ha, ofNat_bits hb]

theorem exists_char_three (ha : a.toNat &&& 0xF0 = 0xE0) (hb : b.toNat &&& 0xC0 = 0x80) (hc : c.toNat &&& 0xC0 = 0x80)
    (fine : ¬(((a.toNat &&& 0x0F) <<< 12) ||| ((b.toNat &&& 0x3F) <<< 6) ||| (c.toNat &&& 0x3F) < 0x0800 ∨
      (0xD800 ≤ ((a.toNat &&& 0x0F) <<< 12) ||| ((b.toNat &&& 0x3F) <<< 6) ||| (c.toNat &&& 0x3F) ∧
        ((a.toNat &&& 0x0F) <<< 12) ||| ((b.toNat &&& 0x3F) <<< 6) ||| (c.toNat &&& 0x3F) ≤ 0xDFFF))) :
    ∃ ch : Char, [a, b, c] = String.utf8EncodeChar ch := by
  obtain ⟨ha, la⟩ := three_bits a ha
  obtain ⟨hb, lb⟩ := cont_bits b hb
  obtain ⟨hc, lc⟩ := cont_bits c hc
  rw [codePoint_three lb lc] at fine
  generalize a.toNat &&& 0x0F = x at *
  generalize b.toNat &&& 0x3F = y at *
  generalize c.toNat &&& 0x3F = z at *
  have scalar : (x * 4096 + y * 64 + z).isValidChar := by
    unfold Nat.isValidChar
    omega
  obtain ⟨ch, hch⟩ := exists_char scalar
  refine ⟨ch, ?_⟩
  have first : (x * 4096 + y * 64 + z) / 4096 % 16 = x := by omega
  have second : (x * 4096 + y * 64 + z) / 64 % 64 = y := by omega
  have third : (x * 4096 + y * 64 + z) % 64 = z := by omega
  rw [String.utf8EncodeChar, hch, if_neg (by omega), if_neg (by omega), if_pos (by omega), first, second, third, ofNat_bits ha,
    ofNat_bits hb, ofNat_bits hc]

theorem exists_char_four (ha : a.toNat &&& 0xF8 = 0xF0) (hb : b.toNat &&& 0xC0 = 0x80) (hc : c.toNat &&& 0xC0 = 0x80)
    (hd : d.toNat &&& 0xC0 = 0x80)
    (fine : ¬(((a.toNat &&& 0x07) <<< 18) ||| ((b.toNat &&& 0x3F) <<< 12) ||| ((c.toNat &&& 0x3F) <<< 6) ||| (d.toNat &&& 0x3F) <
        0x010000 ∨ 0x10FFFF <
        ((a.toNat &&& 0x07) <<< 18) ||| ((b.toNat &&& 0x3F) <<< 12) ||| ((c.toNat &&& 0x3F) <<< 6) ||| (d.toNat &&& 0x3F))) :
    ∃ ch : Char, [a, b, c, d] = String.utf8EncodeChar ch := by
  obtain ⟨ha, la⟩ := four_bits a ha
  obtain ⟨hb, lb⟩ := cont_bits b hb
  obtain ⟨hc, lc⟩ := cont_bits c hc
  obtain ⟨hd, ld⟩ := cont_bits d hd
  rw [codePoint_four lb lc ld] at fine
  generalize a.toNat &&& 0x07 = w at *
  generalize b.toNat &&& 0x3F = x at *
  generalize c.toNat &&& 0x3F = y at *
  generalize d.toNat &&& 0x3F = z at *
  have scalar : (w * 262144 + x * 4096 + y * 64 + z).isValidChar := by
    unfold Nat.isValidChar
    omega
  obtain ⟨ch, hch⟩ := exists_char scalar
  refine ⟨ch, ?_⟩
  have first : (w * 262144 + x * 4096 + y * 64 + z) / 262144 % 8 = w := by omega
  have second : (w * 262144 + x * 4096 + y * 64 + z) / 4096 % 64 = x := by omega
  have third : (w * 262144 + x * 4096 + y * 64 + z) / 64 % 64 = y := by omega
  have fourth : (w * 262144 + x * 4096 + y * 64 + z) % 64 = z := by omega
  rw [String.utf8EncodeChar, hch, if_neg (by omega), if_neg (by omega), if_neg (by omega), first, second, third, fourth, ofNat_bits ha,
    ofNat_bits hb, ofNat_bits hc, ofNat_bits hd]

theorem utf8_cons {ch : Char} {bytes : List UInt8} (h : bytes = String.utf8EncodeChar ch) (ih : ∃ cs, rest = utf8 cs) :
    ∃ cs, bytes ++ rest = utf8 cs := by
  obtain ⟨cs, rfl⟩ := ih
  exact ⟨ch :: cs, by rw [h, utf8, utf8, List.flatMap_cons]⟩

/-- What is accepted is the encoding of characters. -/
theorem exists_utf8 (bytes : List UInt8) (h : isValidUtf8 bytes = true) : ∃ cs, bytes = utf8 cs := by
  fun_induction isValidUtf8 bytes with
  | case1 => exact ⟨[], rfl⟩
  | case2 a rest high ih =>
    obtain ⟨ch, hch⟩ := exists_char_one high
    exact utf8_cons hch (ih h)
  | case3 a cont high mark b rest ih =>
    simp only [cont, Bool.and_eq_true, decide_eq_true_eq, Bool.not_eq_true', decide_eq_false_iff_not] at h
    obtain ⟨⟨hb, long⟩, hrest⟩ := h
    obtain ⟨ch, hch⟩ := exists_char_two mark hb long
    exact utf8_cons hch (ih hrest)
  | case5 a cont high mark₂ mark b c rest cp ih =>
    simp only [cont, cp, Bool.and_eq_true, decide_eq_true_eq, Bool.not_eq_true', decide_eq_false_iff_not] at h
    obtain ⟨⟨⟨hb, hc⟩, fine⟩, hrest⟩ := h
    obtain ⟨ch, hch⟩ := exists_char_three mark hb hc fine
    exact utf8_cons hch (ih hrest)
  | case7 a cont high mark₂ mark₃ mark b c d rest cp ih =>
    simp only [cont, cp, Bool.and_eq_true, decide_eq_true_eq, Bool.not_eq_true', decide_eq_false_iff_not] at h
    obtain ⟨⟨⟨⟨hb, hc⟩, hd⟩, fine⟩, hrest⟩ := h
    obtain ⟨ch, hch⟩ := exists_char_four mark hb hc hd fine
    exact utf8_cons hch (ih hrest)
  | case4 | case6 | case8 | case9 => exact absurd h Bool.false_ne_true

/-- `is_valid_utf8` on a whole array: it reads no byte behind it, and says whether the array holds the encoding of characters. -/
theorem is_valid_utf8_exact (bytes : List UInt8) : ∃ valid, isValidUtf8From (fun i => bytes[i]?) bytes.length 0 = some valid ∧
    (valid = true ↔ ∃ cs, bytes = utf8 cs) := by
  refine ⟨isValidUtf8 bytes, isValidUtf8From_eq bytes [], exists_utf8 bytes, ?_⟩
  rintro ⟨cs, rfl⟩
  exact isValidUtf8_utf8 cs

end SpidirWasm
