import Mathlib.Data.List.Induction
import SpidirWasm.Logic.Raw
import SpidirWasm.Logic.StringTable

/-! Decimal numerals in `char` arrays. The digits come out of the number from the last one
on and are then swapped in place; what is left is the numeral without leading zeros, and
the names that end in one are told apart by it. -/

namespace SpidirWasm

open StringTable (cString)

/-- A string literal. -/
def ascii (s : String) : List UInt8 := s.toList.map fun c => UInt8.ofNat c.toNat

namespace Util

/-- `buffer[i]`; behind the array it is undefined. -/
def getChar (i : ℕ) : Raw (List UInt8) UInt8 := fun buffer =>
  match buffer[i]? with
  | some c => .ok (c, buffer)
  | none => .undefined

/-- `buffer[i] = c`; behind the array it is undefined. -/
def setChar (i : ℕ) (c : UInt8) : Raw (List UInt8) Unit := fun buffer =>
  if i < buffer.length then .ok ((), buffer.set i c) else .undefined

/-- The last digit of a number. -/
def digit (n : ℕ) : UInt8 := 0x30 + UInt8.ofNat (n % 10)

/-- The first loop of `u64toa`, with the count of the digits. -/
def writeDigits (buffer digits n : ℕ) : Raw (List UInt8) ℕ := do
  setChar (buffer + digits) (digit n)
  if n / 10 = 0 then return digits + 1 else writeDigits buffer (digits + 1) (n / 10)
termination_by n
decreasing_by omega

/-- The second loop of `u64toa`. -/
def swapEnds (buffer p : ℕ) : Raw (List UInt8) Unit :=
  if buffer < p then do
    let dig ← getChar buffer
    let other ← getChar p
    setChar buffer other
    setChar p dig
    swapEnds (buffer + 1) (p - 1)
  else return ()
termination_by p - buffer
decreasing_by omega

/-- `u64toa`, with the buffer at an index of an array. -/
def u64toa (n buffer : ℕ) : Raw (List UInt8) ℕ := do
  let digits ← writeDigits buffer 0 n
  setChar (buffer + digits) 0
  swapEnds buffer (buffer + digits - 1)
  return digits

/-- The numeral of a number, its last digit at the end. -/
def numeral (n : ℕ) : List UInt8 := if n / 10 = 0 then [digit n] else numeral (n / 10) ++ [digit n]
termination_by n
decreasing_by omega

variable {n m k : ℕ} {front mid old back s : List UInt8} {c d : UInt8}

/-! ### Writing a numeral -/

theorem getChar_append (front back : List UInt8) (c : UInt8) : getChar front.length (front ++ c :: back) = .ok (c, front ++ c :: back) := by
  simp [getChar]

theorem setChar_append (front back : List UInt8) (c d : UInt8) :
    setChar front.length d (front ++ c :: back) = .ok ((), front ++ d :: back) := by
  simp [setChar]

/-- The digits of a number stand in the buffer from the last one on. -/
theorem writeDigits_eq (front old back : List UInt8) {buffer digits : ℕ} (hfront : buffer + digits = front.length)
    (hold : old.length = (numeral n).length) :
    writeDigits buffer digits n (front ++ old ++ back) = .ok (digits + (numeral n).length, front ++ (numeral n).reverse ++ back) := by
  induction n using numeral.induct generalizing front old digits with
  | case1 n h =>
    rw [numeral, if_pos h] at hold ⊢
    obtain ⟨c, rfl⟩ := List.length_eq_one_iff.mp hold
    rw [writeDigits, hfront, Raw.bind_ok (by rw [List.append_assoc]; exact setChar_append front back c (digit n)), if_pos h]
    rw [List.reverse_singleton, List.append_assoc]
    rfl
  | case2 n h ih =>
    rw [numeral, if_neg h, List.length_append, List.length_singleton] at hold
    obtain ⟨c, old, rfl⟩ := List.exists_cons_of_length_eq_add_one hold
    have hnext : buffer + (digits + 1) = (front ++ [digit n]).length := by simp [← hfront, Nat.add_assoc]
    have next := ih (front ++ [digit n]) old hnext (by simpa using hold)
    rw [writeDigits, hfront, Raw.bind_ok (by rw [List.append_assoc]; exact setChar_append front (old ++ back) c (digit n)), if_neg h]
    rw [numeral, if_neg h, List.reverse_append, List.length_append]
    simpa [Nat.add_assoc, Nat.add_comm 1] using next

/-- Swapping the ends until they meet turns the segment around. -/
theorem swapEnds_eq (front mid back : List UInt8) :
    swapEnds front.length (front.length + mid.length - 1) (front ++ mid ++ back) = .ok ((), front ++ mid.reverse ++ back) := by
  induction mid using List.bidirectionalRec generalizing front back with
  | nil =>
    rw [swapEnds, if_neg (by simp)]
    rfl
  | singleton c =>
    rw [swapEnds, if_neg (by simp)]
    rfl
  | cons_append a mid b ih =>
    have last (x : UInt8) : (front ++ x :: mid).length = front.length + (mid.length + 1) := by simp
    have readFirst := getChar_append front (mid ++ b :: back) a
    have readLast := getChar_append (front ++ a :: mid) back b
    have writeFirst := setChar_append front (mid ++ b :: back) a b
    have writeLast := setChar_append (front ++ b :: mid) back b a
    have inner := ih (front ++ [b]) (a :: back)
    rw [last] at readLast writeLast
    rw [List.length_append, List.length_singleton] at inner
    simp only [List.append_assoc, List.cons_append, List.nil_append] at readLast writeLast inner
    have ends : front.length + (a :: (mid ++ [b])).length - 1 = front.length + (mid.length + 1) := by simp
    have next : front.length + (mid.length + 1) - 1 = front.length + (1 + mid.length) - 1 := by omega
    have segment : front ++ (a :: (mid ++ [b])) ++ back = front ++ a :: (mid ++ b :: back) := by simp
    have turned : front ++ (a :: (mid ++ [b])).reverse ++ back = front ++ b :: (mid.reverse ++ a :: back) := by simp
    rw [swapEnds, ends, if_pos (by omega), segment, turned, Raw.bind_ok readFirst, Raw.bind_ok readLast, Raw.bind_ok writeFirst,
      Raw.bind_ok writeLast, next, ← Nat.add_assoc]
    exact inner

/-- What `u64toa` writes: the numeral and a NUL. -/
theorem u64toa_eq (front old back : List UInt8) (hold : old.length = (numeral n).length + 1) :
    u64toa n front.length (front ++ old ++ back) = .ok ((numeral n).length, front ++ numeral n ++ 0 :: back) := by
  obtain ⟨old, c, rfl⟩ := (List.eq_nil_or_concat old).resolve_left (by rintro rfl; simp at hold)
  rw [List.concat_eq_append] at hold ⊢
  have hlen : old.length = (numeral n).length := by simpa using hold
  have digits := writeDigits_eq front old (c :: back) (Nat.add_zero _) hlen
  have nul := setChar_append (front ++ (numeral n).reverse) back c 0
  have swapped := swapEnds_eq front (numeral n).reverse (0 :: back)
  rw [List.length_append, List.length_reverse] at nul
  rw [List.length_reverse, List.reverse_reverse] at swapped
  rw [Nat.zero_add] at digits
  have segment : front ++ (old ++ [c]) ++ back = front ++ old ++ c :: back := by simp
  rw [u64toa, segment, Raw.bind_ok digits, Raw.bind_ok nul, Raw.bind_ok swapped]
  rfl

/-! ### Numerals -/

/-- The value of a string of digits. -/
def readDecimal (s : List UInt8) : ℕ := s.foldl (fun v c => 10 * v + (c.toNat - 0x30)) 0

/-- The canonical numeral of a number: digits, and no zero in front unless it is all there is. -/
structure Numeral (n : ℕ) (s : List UInt8) : Prop where
  digits : ∀ c ∈ s, 0x30 ≤ c.toNat ∧ c.toNat ≤ 0x39
  nonempty : s ≠ []
  leading : s.head? = some 0x30 → n = 0 ∧ s = [0x30]
  value : readDecimal s = n

theorem digit_toNat (n : ℕ) : (digit n).toNat = 0x30 + n % 10 := by
  rw [digit, UInt8.toNat_add, UInt8.toNat_ofNat']
  change (48 + n % 10 % 2 ^ 8) % 2 ^ 8 = 48 + n % 10
  omega

theorem readDecimal_append (s : List UInt8) (c : UInt8) : readDecimal (s ++ [c]) = 10 * readDecimal s + (c.toNat - 0x30) := by
  rw [readDecimal, List.foldl_append]
  rfl

theorem numeral_ne_nil (n : ℕ) : numeral n ≠ [] := by
  rw [numeral]
  split_ifs <;> simp

theorem numeral_value (n : ℕ) : readDecimal (numeral n) = n := by
  induction n using numeral.induct with
  | case1 n h =>
    rw [numeral, if_pos h]
    change 10 * 0 + ((digit n).toNat - 0x30) = n
    rw [digit_toNat]
    omega
  | case2 n h ih =>
    rw [numeral, if_neg h, readDecimal_append, ih, digit_toNat]
    omega

theorem numeral_digits (n : ℕ) : ∀ c ∈ numeral n, 0x30 ≤ c.toNat ∧ c.toNat ≤ 0x39 := by
  have last (n : ℕ) : 0x30 ≤ (digit n).toNat ∧ (digit n).toNat ≤ 0x39 := by
    rw [digit_toNat]
    omega
  induction n using numeral.induct with
  | case1 n h =>
    rw [numeral, if_pos h]
    simpa using last n
  | case2 n h ih =>
    rw [numeral, if_neg h]
    intro c hc
    rcases List.mem_append.mp hc with hc | hc
    · exact ih c hc
    · obtain rfl := List.mem_singleton.mp hc
      exact last n

/-- Only zero starts with a zero. -/
theorem numeral_head (n : ℕ) (h : (numeral n).head? = some 0x30) : n = 0 := by
  induction n using numeral.induct with
  | case1 n hn =>
    rw [numeral, if_pos hn] at h
    have zero : (digit n).toNat = 0x30 := congrArg UInt8.toNat (Option.some.inj h)
    rw [digit_toNat] at zero
    omega
  | case2 n hn ih =>
    rw [numeral, if_neg hn, List.head?_append, Option.or_of_isSome (List.isSome_head?.mpr (numeral_ne_nil _))] at h
    exact absurd (ih h) hn

theorem numeral_isNumeral (n : ℕ) : Numeral n (numeral n) := by
  refine ⟨numeral_digits n, numeral_ne_nil n, fun h => ?_, numeral_value n⟩
  obtain rfl := numeral_head n h
  exact ⟨rfl, by rw [numeral]; rfl⟩

/-- There are no more digits than the bound has. -/
theorem numeral_length_le (k : ℕ) (h : n < 10 ^ (k + 1)) : (numeral n).length ≤ k + 1 := by
  induction k generalizing n with
  | zero =>
    rw [numeral, if_pos (by omega)]
    exact Nat.le_refl 1
  | succ k ih =>
    rw [numeral]
    split_ifs with hn
    · exact Nat.le_add_left 1 _
    · rw [List.length_append, List.length_singleton]
      exact Nat.add_le_add_right (ih (by omega)) 1

theorem numeral_injective (h : numeral n = numeral m) : n = m := by rw [← numeral_value n, h, numeral_value]

/-- A 64-bit value has twenty digits at most. -/
theorem numeral_length (n : UInt64) : (numeral n.toNat).length ≤ 20 :=
  numeral_length_le 19 (Nat.lt_trans n.toNat_lt (by decide))

/-- A 64-bit value is written as its numeral and a NUL into any 21 bytes of a buffer. -/
theorem u64toa_fits (n : UInt64) (front : List UInt8) (room : 21 ≤ back.length) :
    u64toa n.toNat front.length (front ++ back) =
      .ok ((numeral n.toNat).length, front ++ numeral n.toNat ++ 0 :: back.drop ((numeral n.toNat).length + 1)) := by
  have len := numeral_length n
  have here := @u64toa_eq n.toNat front (back.take ((numeral n.toNat).length + 1)) (back.drop ((numeral n.toNat).length + 1))
    (by rw [List.length_take]; omega)
  rwa [List.append_assoc front, List.take_append_drop] at here

/-! ### Numbered names -/

/-- Characters one after the other. -/
def setChars (i : ℕ) : List UInt8 → Raw (List UInt8) Unit
  | [] => return ()
  | c :: cs => do
    setChar i c
    setChars (i + 1) cs

/-- A name that ends in a number, as it is put together in a `char` array. -/
def numberedName (front : List UInt8) (n : ℕ) : Raw (List UInt8) Unit := do
  setChars 0 front
  let digits ← u64toa n front.length
  setChar (front.length + digits) 0

/-- The name that `jit_prepare_function` makes up. -/
def functionName (funcidx : ℕ) : Raw (List UInt8) Unit := numberedName (ascii "func") funcidx

/-- The name of a thunk in `jit_create_cfi_thunk`. -/
def cfiThunkName (funcidx : ℕ) : Raw (List UInt8) Unit := numberedName (ascii "cfi.") funcidx

/-- The name of a table in `jit_prepare_table`. -/
def tableName (id : ℕ) : Raw (List UInt8) Unit := numberedName (ascii "table_") id

/-- The label that `make_func_label` makes up. -/
def funcLabel (funcidx : ℕ) : Raw (List UInt8) Unit := numberedName (ascii "func") funcidx

theorem setChars_eq (front old back : List UInt8) (h : old.length = s.length) :
    setChars front.length s (front ++ old ++ back) = .ok ((), front ++ s ++ back) := by
  induction s generalizing front old with
  | nil =>
    obtain rfl := List.length_eq_zero_iff.mp h
    rfl
  | cons d s ih =>
    obtain ⟨c, old, rfl⟩ := List.exists_cons_of_length_eq_add_one h
    have next := ih (front ++ [d]) old (by simpa using h)
    have here := setChar_append front (old ++ back) c d
    rw [List.length_append, List.length_singleton] at next
    simp only [List.append_assoc, List.cons_append, List.nil_append] at next here ⊢
    rw [setChars, Raw.bind_ok here, next]

/-- A name with a number of up to twenty digits fits, and is the string in front of the NUL. -/
theorem numberedName_eq (n : UInt64) (hold : old.length = s.length) (room : 21 ≤ back.length) :
    numberedName s n.toNat (old ++ back) = .ok ((), s ++ numeral n.toNat ++ 0 :: back.drop ((numeral n.toNat).length + 1)) := by
  have chars := setChars_eq [] old back hold
  have number := u64toa_fits n s room
  have nul := setChar_append (s ++ numeral n.toNat) (back.drop ((numeral n.toNat).length + 1)) 0 0
  rw [List.length_append] at nul
  rw [numberedName, Raw.bind_ok (show setChars 0 s (old ++ back) = _ from chars)]
  change (u64toa n.toNat s.length >>= _) (s ++ back) = _
  rw [Raw.bind_ok number, nul]

/-- What a numbered name is for. -/
inductive Numbered where
  | function (funcidx : UInt32)
  | cfiThunk (funcidx : UInt32)
  | table (id : UInt32)
  deriving DecidableEq, Repr

namespace Numbered

def index : Numbered → UInt32
  | function funcidx => funcidx
  | cfiThunk funcidx => funcidx
  | table id => id

def stem : Numbered → List UInt8
  | function _ => ascii "func"
  | cfiThunk _ => ascii "cfi."
  | table _ => ascii "table_"

/-- The code that makes the name. -/
def make : Numbered → Raw (List UInt8) Unit
  | function funcidx => functionName funcidx.toNat
  | cfiThunk funcidx => cfiThunkName funcidx.toNat
  | table id => tableName id.toNat

/-- Made in an array of 64 characters, the name is what stands there. -/
def Named (x : Numbered) (name : List UInt8) : Prop := ∀ buffer : List UInt8, buffer.length = 64 →
  ∃ after, x.make buffer = .ok ((), after) ∧ after.length = 64 ∧ cString after = name

theorem make_eq (x : Numbered) : x.make = numberedName x.stem x.index.toUInt64.toNat := by
  cases x <;> rfl

theorem stem_length_le (x : Numbered) : x.stem.length ≤ 6 := by
  cases x
  · exact Nat.le_of_ble_eq_true rfl
  · exact Nat.le_of_ble_eq_true rfl
  · exact Nat.le_refl 6

theorem stem_nul (x : Numbered) : 0 ∉ x.stem := by
  cases x <;> change _ ∉ ascii _ <;> decide

end Numbered

theorem numeral_nul (n : ℕ) : 0 ∉ numeral n := fun h => absurd (numeral_digits n 0 h).1 (by decide)

/-- The string of a numbered name. -/
theorem numberedName_string (n : UInt64) (hs : 0 ∉ s) (hbuffer : s.length + 21 ≤ old.length) :
    ∃ after, numberedName s n.toNat old = .ok ((), after) ∧ after.length = old.length ∧ cString after = s ++ numeral n.toNat := by
  have len := numeral_length n
  have run := @numberedName_eq (old.take s.length) (old.drop s.length) s n
    (by rw [List.length_take]; omega) (by rw [List.length_drop]; omega)
  rw [List.take_append_drop] at run
  refine ⟨_, run, ?_, StringTable.takeWhile_string (by simp [hs, numeral_nul]) _⟩
  simp only [List.length_append, List.length_cons, List.length_drop]
  omega

namespace Numbered

theorem named (x : Numbered) : x.Named (x.stem ++ numeral x.index.toNat) := by
  intro buffer hbuffer
  have short := x.stem_length_le
  rw [make_eq, ← hbuffer]
  exact numberedName_string _ x.stem_nul (by omega)

theorem Named.eq {x : Numbered} {name : List UInt8} (h : x.Named name) : name = x.stem ++ numeral x.index.toNat := by
  obtain ⟨after, hrun, -, rfl⟩ := h (List.replicate 64 0) List.length_replicate
  obtain ⟨after', hrun', -, hname⟩ := x.named (List.replicate 64 0) List.length_replicate
  rw [hrun] at hrun'
  cases hrun'
  exact hname

/-- The stems start with letters of their own. -/
theorem eq_of_name {x y : Numbered} (h : x.stem ++ numeral x.index.toNat = y.stem ++ numeral y.index.toNat) : x = y := by
  have same {i j : UInt32} {s : List UInt8} (h : s ++ numeral i.toNat = s ++ numeral j.toNat) : i = j :=
    UInt32.toNat_inj.mp (numeral_injective (List.append_cancel_left h))
  have first : x.stem.head? = y.stem.head? := by
    have initial (z : Numbered) : (z.stem ++ numeral z.index.toNat).head? = z.stem.head? := by cases z <;> rfl
    rw [← initial x, h, initial]
  cases x with
  | function i =>
    cases y with
    | function j => exact congrArg function (same h)
    | cfiThunk j => exact absurd first (by change (ascii "func").head? ≠ (ascii "cfi.").head?; decide)
    | table j => exact absurd first (by change (ascii "func").head? ≠ (ascii "table_").head?; decide)
  | cfiThunk i =>
    cases y with
    | function j => exact absurd first (by change (ascii "cfi.").head? ≠ (ascii "func").head?; decide)
    | cfiThunk j => exact congrArg cfiThunk (same h)
    | table j => exact absurd first (by change (ascii "cfi.").head? ≠ (ascii "table_").head?; decide)
  | table i =>
    cases y with
    | function j => exact absurd first (by change (ascii "table_").head? ≠ (ascii "func").head?; decide)
    | cfiThunk j => exact absurd first (by change (ascii "table_").head? ≠ (ascii "cfi.").head?; decide)
    | table j => exact congrArg table (same h)

end Numbered

/-- `u64toa` writes a string and a NUL wherever there are 21 bytes, and nothing else. -/
def Writes (n : UInt64) (s : List UInt8) : Prop := ∀ front back : List UInt8, 21 ≤ back.length →
  u64toa n.toNat front.length (front ++ back) = .ok (s.length, front ++ s ++ 0 :: back.drop (s.length + 1))

theorem writes_numeral (n : UInt64) : Writes n (numeral n.toNat) := fun front _ room => u64toa_fits n front room

theorem Writes.eq {n : UInt64} (h : Writes n s) : s = numeral n.toNat := by
  have run := h [] (List.replicate 21 0) (Nat.le_of_eq List.length_replicate.symm)
  rw [writes_numeral n [] (List.replicate 21 0) (Nat.le_of_eq List.length_replicate.symm)] at run
  obtain ⟨hlen, hbuffer⟩ := Prod.mk.inj (Ending.ok.inj run)
  exact (List.append_inj hbuffer (by simpa using hlen)).1.symm

/-- Every 64-bit value is written as its canonical numeral, different ones as different strings,
with twenty digits at most; so the numbered names fit their arrays and are all different. -/
theorem u64toa_names :
    (∀ n : UInt64, ∃ s, Writes n s ∧ Numeral n.toNat s ∧ s.length ≤ 20) ∧
    (∀ (n m : UInt64) (s : List UInt8), Writes n s → Writes m s → n = m) ∧
    (∀ x : Numbered, ∃ s, x.Named (x.stem ++ s) ∧ Numeral x.index.toNat s) ∧
    (∀ funcidx : UInt32, ∃ after, funcLabel funcidx.toNat (List.replicate 32 0) = .ok ((), after) ∧ after.length = 32 ∧
      (Numbered.function funcidx).Named (cString after)) ∧
    ∀ (x y : Numbered) (name : List UInt8), x.Named name → y.Named name → x = y := by
  refine ⟨fun n => ⟨_, writes_numeral n, numeral_isNumeral _, numeral_length n⟩, fun n m s hn hm => ?_,
    fun x => ⟨_, x.named, numeral_isNumeral _⟩, fun funcidx => ?_, fun x y name hx hy => ?_⟩
  · exact UInt64.toNat_inj.mp (numeral_injective (hn.eq.symm.trans hm.eq))
  · obtain ⟨after, hrun, hlen, hname⟩ := @numberedName_string (List.replicate 32 0) (ascii "func") funcidx.toUInt64
      (by decide) (by decide)
    refine ⟨after, hrun, hlen, ?_⟩
    rw [hname]
    exact (Numbered.function funcidx).named
  · exact Numbered.eq_of_name (hx.eq.symm.trans hy.eq)

end Util

end SpidirWasm
