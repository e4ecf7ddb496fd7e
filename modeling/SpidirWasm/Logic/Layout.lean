import Mathlib.Data.List.Forall2
import SpidirWasm.Logic.Memory

/-! Slots placed one behind the other, each aligned to its size. Some entries of a layout
have no slot. Slots of a layout do not overlap, so that what is written to one of them
leaves the others as they were. -/

namespace SpidirWasm

/-- A loop over the rest of a list is at its next element. -/
theorem of_drop_eq_cons {α : Type} {xs rest : List α} {x : α} {i : ℕ} (h : xs.drop i = x :: rest) : xs[i]? = some x ∧ xs.drop (i + 1) = rest := by
  constructor
  · rw [← List.head?_drop, h]
    rfl
  · rw [← List.drop_drop, h]
    rfl

/-- What an entry of a list is related to. -/
theorem getElem?_of_forall₂ {α β : Type} {R : α → β → Prop} {xs : List α} {ys : List β} {x : α} {i : ℕ} (h : List.Forall₂ R xs ys)
    (hx : xs[i]? = some x) : ∃ y, ys[i]? = some y ∧ R x y := by
  induction h generalizing i with
  | nil => cases hx
  | cons hxy _ ih =>
    cases i with
    | zero =>
      cases hx
      exact ⟨_, rfl, hxy⟩
    | succ i => exact ih hx

/-- The first multiple of `size` from `n` on. -/
def alignUp (n size : ℕ) : ℕ := (n + size - 1) / size * size

theorem dvd_alignUp (n size : ℕ) : size ∣ alignUp n size := Nat.dvd_mul_left _ _

theorem le_alignUp {n size : ℕ} (h : 0 < size) : n ≤ alignUp n size := by
  have parts := Nat.div_add_mod (n + size - 1) size
  have small := Nat.mod_lt (n + size - 1) h
  rw [alignUp, Nat.mul_comm]
  omega

theorem alignUp_lt {n size : ℕ} (h : 0 < size) : alignUp n size < n + size := by
  have le := Nat.div_mul_le_self (n + size - 1) size
  rw [alignUp]
  omega

theorem alignUp_eq {n size : ℕ} (h : 0 < size) (hn : size ∣ n) : alignUp n size = n := by
  obtain ⟨k, rfl⟩ := hn
  refine Nat.le_antisymm ?_ (le_alignUp h)
  obtain ⟨j, hj⟩ := dvd_alignUp (size * k) size
  have lt := alignUp_lt (n := size * k) h
  rw [hj, ← Nat.mul_succ] at lt
  rw [hj]
  exact Nat.mul_le_mul_left size (Nat.lt_succ_iff.mp (Nat.lt_of_mul_lt_mul_left lt))

/-- The entries from `start` up to `stop`; a slot is where it begins, and its size. -/
inductive Laid : ℕ → List (Option (ℕ × ℕ)) → ℕ → Prop
  | nil (start : ℕ) : Laid start [] start
  | skip {start stop : ℕ} {slots : List (Option (ℕ × ℕ))} :
    Laid start slots stop → Laid start (none :: slots) stop
  | slot {start offset size stop : ℕ} {slots : List (Option (ℕ × ℕ))} :
    start ≤ offset → size ∣ offset → Laid (offset + size) slots stop →
    Laid start (some (offset, size) :: slots) stop

namespace Laid

variable {start mid stop offset size offset' size' i j : ℕ} {slots slots' : List (Option (ℕ × ℕ))}

theorem le (h : Laid start slots stop) : start ≤ stop := by
  induction h with
  | nil => exact Nat.le_refl _
  | skip _ ih => exact ih
  | slot hle _ _ ih => omega

theorem append (h : Laid start slots mid) (h' : Laid mid slots' stop) : Laid start (slots ++ slots') stop := by
  induction h with
  | nil => exact h'
  | skip _ ih => exact .skip (ih h')
  | slot hle hdvd _ ih => exact .slot hle hdvd (ih h')

/-- A slot is aligned, and inside. -/
theorem inside (h : Laid start slots stop) (hi : slots[i]? = some (some (offset, size))) :
    size ∣ offset ∧ start ≤ offset ∧ offset + size ≤ stop := by
  induction h generalizing i with
  | nil => cases hi
  | skip _ ih =>
    cases i with
    | zero => cases hi
    | succ i => exact ih hi
  | slot hle hdvd hrest ih =>
    cases i with
    | zero =>
      cases hi
      exact ⟨hdvd, hle, hrest.le⟩
    | succ i =>
      obtain ⟨haligned, hstart, hstop⟩ := ih hi
      exact ⟨haligned, by omega, hstop⟩

/-- A later slot lies behind an earlier one. -/
theorem before (h : Laid start slots stop) (hij : i < j) (hi : slots[i]? = some (some (offset, size)))
    (hj : slots[j]? = some (some (offset', size'))) : offset + size ≤ offset' := by
  induction h generalizing i j with
  | nil => cases hi
  | skip _ ih =>
    cases i with
    | zero => cases hi
    | succ i =>
      cases j with
      | zero => cases hij
      | succ j => exact ih (Nat.lt_of_succ_lt_succ hij) hi hj
  | slot hle hdvd hrest ih =>
    cases j with
    | zero => cases hij
    | succ j =>
      cases i with
      | zero =>
        cases hi
        exact (hrest.inside hj).2.1
      | succ i => exact ih (Nat.lt_of_succ_lt_succ hij) hi hj

/-- Two slots do not overlap. -/
theorem disjoint (h : Laid start slots stop) (hij : i ≠ j) (hi : slots[i]? = some (some (offset, size)))
    (hj : slots[j]? = some (some (offset', size'))) : offset + size ≤ offset' ∨ offset' + size' ≤ offset := by
  rcases Nat.lt_or_gt_of_ne hij with hlt | hgt
  · exact .inl (h.before hlt hi hj)
  · exact .inr (h.before hgt hj hi)

end Laid

/-! ### Memory in slots -/

namespace Memory

variable {β : Type} {mem mem' : Memory β} {start stop a b len : ℕ} {bytes : List β}

theorem load_write_self (mem : Memory β) (a : ℕ) (bytes : List β) : (mem.write a bytes).load a bytes.length = some bytes := by
  rw [load_eq_some]
  refine ⟨rfl, fun i hi => ?_⟩
  rw [write, if_pos (by omega), Nat.add_sub_cancel_left]

theorem load_write_of_disjoint (h : a + bytes.length ≤ b ∨ b + len ≤ a) :
    (mem.write a bytes).load b len = mem.load b len := by
  apply load_congr
  intro i hi
  apply write_of_not_mem
  omega

/-- Poke the bytes of a slot. -/
def poke (mem : Memory β) : Option (ℕ × List β) → Option (Memory β)
  | none => some mem
  | some (offset, bytes) => mem.store offset bytes

/-- A loop that pokes. -/
theorem foldlM_poke {α : Type} {f : Memory β → α → Option (Memory β)} {g : α → Option (ℕ × List β)} {xs : List α}
    (h : ∀ x ∈ xs, ∀ mem, f mem x = poke mem (g x)) (mem : Memory β) : xs.foldlM f mem = (xs.map g).foldlM poke mem := by
  induction xs generalizing mem with
  | nil => rfl
  | cons x xs ih =>
    rw [List.map_cons, List.foldlM_cons, List.foldlM_cons, h x List.mem_cons_self]
    apply bind_congr
    intro mem'
    exact ih (fun y hy => h y (List.mem_cons_of_mem x hy)) mem'

/-- The slots of some pokes. -/
def slots (pokes : List (Option (ℕ × List β))) : List (Option (ℕ × ℕ)) :=
  pokes.map (Option.map fun p => (p.1, p.2.length))

/-- Pokes that are laid out all succeed, and every slot keeps what was poked into it. -/
theorem pokes {ps : List (Option (ℕ × List β))} (h : Laid start (slots ps) stop)
    (hc : ∀ a, start ≤ a → a < stop → (mem a).isSome) :
    ∃ mem', ps.foldlM poke mem = some mem' ∧ (∀ a, a < start ∨ stop ≤ a → mem' a = mem a) ∧
      (∀ a, (mem' a).isSome = (mem a).isSome) ∧
      ∀ (i offset : ℕ) (bytes : List β), ps[i]? = some (some (offset, bytes)) → mem'.load offset bytes.length = some bytes := by
  induction ps generalizing start mem with
  | nil =>
    refine ⟨mem, rfl, fun _ _ => rfl, fun _ => rfl, fun i offset bytes hi => ?_⟩
    cases hi
  | cons p ps ih =>
    cases p with
    | none =>
      obtain _ | hrest := h
      obtain ⟨mem', he, hout, hmapped, hslots⟩ := ih hrest hc
      refine ⟨mem', he, hout, hmapped, fun i offset bytes hi => ?_⟩
      cases i with
      | zero => cases hi
      | succ i => exact hslots i offset bytes hi
    | some p =>
      obtain ⟨offset, bytes⟩ := p
      cases h with
      | slot hle hdvd hrest =>
        have hstop : offset + bytes.length ≤ stop := hrest.le
        have hstart : start ≤ offset := hle
        have covers : mem.Covers offset bytes.length := fun i hi => hc _ (by omega) (by omega)
        have mapped : ∀ a, (mem.write offset bytes a).isSome = (mem a).isSome := by
          intro a
          by_cases ha : offset ≤ a ∧ a < offset + bytes.length
          · have there := covers (a - offset) (by omega)
            rw [Nat.add_sub_cancel' ha.1] at there
            rw [write_of_mem ha.1 ha.2, there, Option.isSome_some]
          · rw [write_of_not_mem (by omega)]
        have rest : ∀ a, offset + bytes.length ≤ a → a < stop → (mem.write offset bytes a).isSome := by
          intro a ha hlt
          rw [mapped]
          exact hc a (by omega) hlt
        obtain ⟨mem', he, hout, hmapped, hslots⟩ := ih hrest rest
        have kept : ∀ a, a < offset + bytes.length ∨ stop ≤ a → mem' a = mem.write offset bytes a := hout
        refine ⟨mem', ?_, fun a ha => ?_, fun a => (hmapped a).trans (mapped a), ?_⟩
        · rw [List.foldlM_cons, poke, store, if_pos covers]
          exact he
        · rw [kept a (by omega), write_of_not_mem (by omega)]
        · intro i offset' bytes' hi
          cases i with
          | zero =>
            cases hi
            rw [load_congr fun i hi => kept _ (by omega), load_write_self]
          | succ i => exact hslots i offset' bytes' hi

end Memory

end SpidirWasm
