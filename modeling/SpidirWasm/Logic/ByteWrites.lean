import Mathlib.Data.List.Nodup
import SpidirWasm.Logic.Memory

/-! Writing a range one byte after the other, in any order, up to the first byte that
faults. A fault leaves behind what was written before it, so an order in which a byte
comes before the fault leaves that byte written. -/

namespace SpidirWasm.Memory

variable {β : Type} {mem mem' : Memory β} {dst i a : ℕ} {value : ℕ → Option β} {is : List ℕ}

/-- Write the bytes `value` from `dst` on in the order `is`; a fault keeps what was
written so far. -/
def putBytes (dst : ℕ) (value : ℕ → Option β) : List ℕ → Memory β → Except (Memory β) (Memory β)
  | [], mem => .ok mem
  | i :: is, mem =>
    match value i with
    | some b =>
      if (mem (dst + i)).isSome then putBytes dst value is (Function.update mem (dst + i) (some b))
      else .error mem
    | none => .error mem

/-- Only the bytes that are asked for matter. -/
theorem putBytes_congr {value' : ℕ → Option β} (h : ∀ i ∈ is, value i = value' i) :
    putBytes dst value is mem = putBytes dst value' is mem := by
  induction is generalizing mem with
  | nil => rfl
  | cons i is ih =>
    have rest : ∀ j ∈ is, value j = value' j := fun j hj => h j (List.mem_cons_of_mem i hj)
    simp only [putBytes, ← h i List.mem_cons_self, ih rest]

/-- The byte `i` can be read and written. -/
def Puts (mem : Memory β) (dst : ℕ) (value : ℕ → Option β) (i : ℕ) : Prop :=
  (value i).isSome ∧ (mem (dst + i)).isSome

/-- Writing a byte maps and unmaps nothing. -/
theorem isSome_update (h : (mem a).isSome) (b : β) (c : ℕ) :
    (Function.update mem a (some b) c).isSome = (mem c).isSome := by
  by_cases hc : c = a
  · subst hc
    rw [Function.update_self, h, Option.isSome_some]
  · rw [Function.update_of_ne hc]

theorem putBytes_cons (h : mem.Puts dst value i) :
    putBytes dst value (i :: is) mem =
      putBytes dst value is (Function.update mem (dst + i) (value i)) := by
  obtain ⟨b, hb⟩ := Option.isSome_iff_exists.mp h.1
  simp only [putBytes, hb, h.2, if_true]

theorem putBytes_cons_error (h : ¬mem.Puts dst value i) :
    putBytes dst value (i :: is) mem = .error mem := by
  unfold putBytes
  cases hb : value i with
  | none => rfl
  | some b => exact if_neg fun hm => h ⟨by simp [hb], hm⟩

theorem Puts.update (h : mem.Puts dst value i) (j : ℕ) :
    Puts (Function.update mem (dst + i) (value i)) dst value j ↔ mem.Puts dst value j := by
  obtain ⟨b, hb⟩ := Option.isSome_iff_exists.mp h.1
  rw [Puts, Puts, hb, isSome_update h.2]

/-- Bytes that can all be written are all written. -/
theorem putBytes_ok (h : ∀ i ∈ is, mem.Puts dst value i) (hnodup : is.Nodup) :
    putBytes dst value is mem =
      .ok fun a => if dst ≤ a ∧ a - dst ∈ is then value (a - dst) else mem a := by
  induction is generalizing mem with
  | nil =>
    rw [putBytes]
    congr 1
    funext a
    simp
  | cons i is ih =>
    have hi := h i List.mem_cons_self
    obtain ⟨hfresh, hnodup⟩ := List.nodup_cons.mp hnodup
    have rest : ∀ j ∈ is, Puts (Function.update mem (dst + i) (value i)) dst value j :=
      fun j hj => (hi.update j).mpr (h j (List.mem_cons_of_mem i hj))
    rw [putBytes_cons hi, ih rest hnodup]
    congr 1
    funext a
    by_cases ha : a = dst + i
    · subst ha
      simp [hfresh]
    · have other : dst ≤ a → a - dst ≠ i := by omega
      by_cases hle : dst ≤ a
      · simp [hle, other hle, Function.update_of_ne ha]
      · simp [hle, Function.update_of_ne ha]

/-- A fault has a byte that cannot be written, and has changed other bytes only as
asked. -/
theorem putBytes_error (h : putBytes dst value is mem = .error mem') :
    (∃ i ∈ is, ¬mem.Puts dst value i) ∧
      ∀ a, mem' a = mem a ∨ ∃ i ∈ is, a = dst + i ∧ mem.Puts dst value i ∧ mem' a = value i := by
  induction is generalizing mem with
  | nil => simp [putBytes] at h
  | cons i is ih =>
    by_cases hi : mem.Puts dst value i
    · rw [putBytes_cons hi] at h
      obtain ⟨⟨j, hj, hbad⟩, hkept⟩ := ih h
      refine ⟨⟨j, List.mem_cons_of_mem i hj, fun hok => hbad ((hi.update j).mpr hok)⟩, fun a => ?_⟩
      rcases hkept a with hsame | ⟨j, hj, rfl, hok, hval⟩
      · by_cases ha : a = dst + i
        · subst ha
          rw [Function.update_self] at hsame
          exact .inr ⟨i, List.mem_cons_self, rfl, hi, hsame⟩
        · rw [Function.update_of_ne ha] at hsame
          exact .inl hsame
      · exact .inr ⟨j, List.mem_cons_of_mem i hj, rfl, (hi.update j).mp hok, hval⟩
    · rw [putBytes_cons_error hi] at h
      cases h
      exact ⟨⟨i, List.mem_cons_self, hi⟩, fun _ => .inl rfl⟩

/-- Some byte faults unless all can be written. -/
theorem putBytes_eq_error (h : i ∈ is) (hi : ¬mem.Puts dst value i) :
    ∃ mem', putBytes dst value is mem = .error mem' := by
  induction is generalizing mem with
  | nil => simp at h
  | cons j is ih =>
    by_cases hj : mem.Puts dst value j
    · have hne : i ≠ j := fun he => hi (he ▸ hj)
      rw [putBytes_cons hj]
      exact ih (List.mem_of_ne_of_mem hne h) fun hok => hi ((hj.update i).mp hok)
    · exact ⟨mem, putBytes_cons_error hj⟩

/-- An order that starts with a byte writes it before it faults. -/
theorem putBytes_first (h : mem.Puts dst value i)
    (he : putBytes dst value (i :: is) mem = .error mem') : mem' (dst + i) = value i := by
  rw [putBytes_cons h] at he
  rcases (putBytes_error he).2 (dst + i) with hsame | ⟨j, -, hj, -, hval⟩
  · rw [hsame, Function.update_self]
  · rw [hval, Nat.add_left_cancel hj]

end SpidirWasm.Memory
