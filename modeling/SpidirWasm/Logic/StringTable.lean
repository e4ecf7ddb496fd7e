import Mathlib.Algebra.Group.Int.Defs
import Mathlib.Algebra.Group.Nat.Defs
import Mathlib.Data.List.TakeWhile
import Mathlib.Tactic.Common

/-! Tables of strings. A string is found by its offset, and ends in front of the next NUL. A
table that only grows keeps all its strings where they are. -/

namespace SpidirWasm.StringTable

variable {table more str str' : List UInt8} {off : ℕ}

/-- The string at an offset. -/
def stringAt (table : List UInt8) (off : ℕ) : List UInt8 := (table.drop off).takeWhile (· ≠ 0)

/-- The string and the NUL behind it are in the table. -/
def Holds (table : List UInt8) (off : ℕ) (str : List UInt8) : Prop :=
  ∃ front back, table = front ++ str ++ 0 :: back ∧ front.length = off ∧ 0 ∉ str

theorem takeWhile_string (h : 0 ∉ str) (back : List UInt8) : (str ++ 0 :: back).takeWhile (· ≠ 0) = str := by
  have nonzero : ∀ b ∈ str, decide (b ≠ 0) = true := fun b hb => decide_eq_true fun h0 => h (h0 ▸ hb)
  rw [List.takeWhile_append_of_pos nonzero, List.takeWhile_cons_of_neg (by decide), List.append_nil]

theorem Holds.stringAt_eq (h : Holds table off str) : stringAt table off = str := by
  obtain ⟨front, back, rfl, rfl, hnul⟩ := h
  rw [stringAt, List.append_assoc, List.drop_left, takeWhile_string hnul]

theorem Holds.append (h : Holds table off str) (more : List UInt8) : Holds (table ++ more) off str := by
  obtain ⟨front, back, rfl, hoff, hnul⟩ := h
  exact ⟨front, back ++ more, by rw [List.append_assoc, List.cons_append], hoff, hnul⟩

/-- A string that is added is found behind all that was there. -/
theorem holds_added (table : List UInt8) (h : 0 ∉ str) : Holds (table ++ str ++ [0]) table.length str := ⟨table, [], rfl, rfl, h⟩

/-- A table that starts with a NUL has the empty string at 0. -/
theorem holds_zero (table : List UInt8) : Holds (0 :: table) 0 [] := ⟨[], table, rfl, rfl, List.not_mem_nil⟩

theorem Holds.lt (h : Holds table off str) : off + str.length < table.length := by
  obtain ⟨front, back, rfl, rfl, -⟩ := h
  rw [List.length_append, List.length_append, List.length_cons]
  omega

/-- A C string is its bytes up to the first NUL. -/
def cString (bytes : List UInt8) : List UInt8 := bytes.takeWhile (· ≠ 0)

end SpidirWasm.StringTable
