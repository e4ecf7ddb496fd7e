import Mathlib.Algebra.Group.Int.Defs
import Mathlib.Algebra.Group.Nat.Defs
import Mathlib.Data.Nat.Notation
import Mathlib.Logic.Function.Basic
import Mathlib.Tactic.Common

/-! Address spaces that are mapped in part. An access that touches an unmapped address
faults. The mapped part of interest here is an initial segment, which grows. -/

namespace SpidirWasm

/-- The contents of an address space, `none` where nothing is mapped. -/
abbrev Memory (β : Type) := ℕ → Option β

namespace Memory

variable {β : Type} {mem mem' : Memory β} {start len n a : ℕ} {bytes : List β}

/-- A fresh mapping, which replaces whatever was there. -/
def map (start len : ℕ) (b : β) (mem : Memory β) : Memory β := fun a => if start ≤ a ∧ a < start + len then some b else mem a

/-- Other bytes from an address on. -/
def write (start : ℕ) (bytes : List β) (mem : Memory β) : Memory β := fun a =>
  if start ≤ a ∧ a < start + bytes.length then bytes[a - start]? else mem a

/-- Every address of a range is mapped. -/
def Covers (mem : Memory β) (start len : ℕ) : Prop := ∀ i < len, (mem (start + i)).isSome

instance : Decidable (Covers mem start len) := inferInstanceAs (Decidable (∀ i < len, _))

/-- Read a range, or fault. -/
def load (start len : ℕ) (mem : Memory β) : Option (List β) := (List.range' start len).mapM mem

/-- Write a range, or fault. -/
def store (start : ℕ) (bytes : List β) (mem : Memory β) : Option (Memory β) :=
  if mem.Covers start bytes.length then some (mem.write start bytes) else none

/-- Exactly the addresses below `n` are mapped. -/
def Below (mem : Memory β) (n : ℕ) : Prop := ∀ a, (mem a).isSome ↔ a < n

theorem store_eq_some : mem.store start bytes = some mem' ↔ mem.Covers start bytes.length ∧ mem.write start bytes = mem' := by
  by_cases h : mem.Covers start bytes.length <;> simp [store, h]

@[simp] theorem write_nil (mem : Memory β) (start : ℕ) : mem.write start [] = mem := by
  funext a
  simp only [write, List.length_nil]
  exact if_neg (by omega)

theorem write_of_mem (h : start ≤ a) (h' : a < start + bytes.length) : mem.write start bytes a = some bytes[a - start] := by
  rw [write, if_pos ⟨h, h'⟩, List.getElem?_eq_getElem]

theorem write_of_not_mem (h : a < start ∨ start + bytes.length ≤ a) : mem.write start bytes a = mem a := if_neg (by omega)

@[simp] theorem map_zero (mem : Memory β) (start : ℕ) (b : β) : mem.map start 0 b = mem := by
  funext a
  exact if_neg (by omega)

theorem map_of_mem {b : β} (h : start ≤ a) (h' : a < start + len) : mem.map start len b a = some b := if_pos ⟨h, h'⟩

theorem map_of_not_mem {b : β} (h : a < start ∨ start + len ≤ a) : mem.map start len b a = mem a := if_neg (by omega)

/-- A load reads what is there. -/
theorem load_eq_some : mem.load start len = some bytes ↔ bytes.length = len ∧ ∀ i < len, mem (start + i) = bytes[i]? := by
  induction len generalizing start bytes with
  | zero => cases bytes <;> simp [load]
  | succ len ih =>
    have step : mem.load start (len + 1) = (mem start).bind fun b => (mem.load (start + 1) len).map (b :: ·) := by
      simp only [load, List.range'_succ, List.mapM_cons, Option.bind_eq_bind, Option.pure_def, Option.map_eq_bind, Function.comp_def]
    simp only [step, Option.bind_eq_some_iff, Option.map_eq_some_iff, ih]
    constructor
    · rintro ⟨b, hb, rest, ⟨hlen, hrest⟩, rfl⟩
      refine ⟨by rw [List.length_cons, hlen], fun i hi => ?_⟩
      cases i with
      | zero => exact hb
      | succ i => rw [List.getElem?_cons_succ, ← hrest i (by omega), Nat.add_right_comm, Nat.add_assoc]
    · rintro ⟨hlen, h⟩
      rcases bytes with _ | ⟨b, rest⟩
      · simp at hlen
      · refine ⟨b, h 0 (by omega), rest, ⟨by simpa using hlen, fun i hi => ?_⟩, rfl⟩
        have := h (i + 1) (by omega)
        rwa [List.getElem?_cons_succ, ← Nat.add_assoc, Nat.add_right_comm] at this

/-- Writing what is there changes nothing. -/
theorem write_load (h : mem.load start len = some bytes) : mem.write start bytes = mem := by
  obtain ⟨hlen, hget⟩ := load_eq_some.mp h
  funext a
  by_cases ha : start ≤ a ∧ a < start + bytes.length
  · rw [write, if_pos ha, ← hget (a - start) (by omega), Nat.add_sub_cancel' ha.1]
  · exact if_neg ha

/-- The last one of two writes of a range counts. -/
theorem write_write {bytes' : List β} (h : bytes'.length = bytes.length) : (mem.write start bytes).write start bytes' = mem.write start bytes' := by
  funext a
  simp only [write, h]
  split_ifs <;> rfl

/-- Equal bytes are read alike, wherever they are. -/
theorem load_congr {b : ℕ} (h : ∀ i < len, mem' (b + i) = mem (a + i)) : mem'.load b len = mem.load a len := by
  apply Option.ext
  intro bytes
  rw [load_eq_some, load_eq_some]
  refine and_congr_right fun _ => forall₂_congr fun i hi => ?_
  rw [h i hi]

/-- A load faults if part of its range is not mapped. -/
theorem load_isSome : (mem.load start len).isSome ↔ mem.Covers start len := by
  constructor
  · intro h i hi
    obtain ⟨bytes, hbytes⟩ := Option.isSome_iff_exists.mp h
    obtain ⟨hlen, hget⟩ := load_eq_some.mp hbytes
    rw [hget i hi, List.getElem?_eq_getElem (by omega), Option.isSome_some]
  · intro h
    choose f hf using fun i : Fin len => Option.isSome_iff_exists.mp (h i i.2)
    refine Option.isSome_iff_exists.mpr ⟨List.ofFn f, load_eq_some.mpr ⟨List.length_ofFn, fun i hi => ?_⟩⟩
    rw [hf ⟨i, hi⟩, List.getElem?_ofFn, dif_pos hi]

/-! ### Initial segments -/

namespace Below

theorem empty : Below (fun _ => none : Memory β) 0 := by simp [Below]

/-- What is mapped below `n` covers the ranges that end there. -/
theorem covers_iff (h : mem.Below n) : mem.Covers start len ↔ len = 0 ∨ start + len ≤ n := by
  constructor
  · intro hc
    rcases len with _ | len
    · exact .inl rfl
    · have := (h _).mp (hc len (Nat.lt_succ_self len))
      omega
  · rintro hlen i hi
    exact (h _).mpr (by omega)

theorem write (h : mem.Below n) (hc : mem.Covers start bytes.length) : (mem.write start bytes).Below n := by
  intro a
  by_cases ha : start ≤ a ∧ a < start + bytes.length
  · rw [write_of_mem ha.1 ha.2, ← h a]
    have := hc (a - start) (by omega)
    rw [Nat.add_sub_cancel' ha.1] at this
    simp [this]
  · rw [write_of_not_mem (by omega)]
    exact h a

theorem map {b : β} (h : mem.Below n) : (mem.map n len b).Below (n + len) := by
  intro a
  by_cases ha : n ≤ a ∧ a < n + len
  · simp [map_of_mem ha.1 ha.2, ha.2]
  · rw [map_of_not_mem (by omega), h a]
    omega

end Below

end Memory

end SpidirWasm
