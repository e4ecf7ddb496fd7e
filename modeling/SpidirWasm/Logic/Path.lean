import Mathlib.Algebra.Group.Int.Defs
import Mathlib.Algebra.Group.Nat.Defs
import Mathlib.Logic.Basic
import Mathlib.Tactic.Common

/-! Paths of a labelled relation: one step for every label of a list, in order. -/

namespace SpidirWasm

variable {L K σ τ : Type}

/-- A step for each label, from the first state to the last. -/
def Path (step : L → σ → σ → Prop) : List L → σ → σ → Prop
  | [], s, t => t = s
  | l :: ls, s, t => ∃ u, step l s u ∧ Path step ls u t

namespace Path

variable {step : L → σ → σ → Prop} {l : L} {ls ls' : List L} {s t : σ}

@[simp] theorem nil_iff : Path step [] s t ↔ t = s := Iff.rfl

theorem cons_iff : Path step (l :: ls) s t ↔ ∃ u, step l s u ∧ Path step ls u t := Iff.rfl

@[simp] theorem single_iff : Path step [l] s t ↔ step l s t := by simp [cons_iff]

theorem append_iff : Path step (ls ++ ls') s t ↔ ∃ u, Path step ls s u ∧ Path step ls' u t := by
  induction ls generalizing s with
  | nil => simp
  | cons l ls ih =>
    simp only [List.cons_append, cons_iff, ih]
    constructor
    · rintro ⟨v, hl, u, hls, ht⟩
      exact ⟨u, ⟨v, hl, hls⟩, ht⟩
    · rintro ⟨u, ⟨v, hl, hls⟩, ht⟩
      exact ⟨v, hl, u, hls, ht⟩

/-- Steps that are paths themselves, one behind the other. -/
theorem flatMap_iff {f : K → List L} {ks : List K} : Path step (ks.flatMap f) s t ↔ Path (fun k => Path step (f k)) ks s t := by
  induction ks generalizing s with
  | nil => simp
  | cons k ks ih => simp only [List.flatMap_cons, append_iff, cons_iff, ih]

theorem map_iff {f : K → L} {ks : List K} : Path step (ks.map f) s t ↔ Path (fun k => step (f k)) ks s t := by
  induction ks generalizing s with
  | nil => simp
  | cons k ks ih => simp only [List.map_cons, cons_iff, ih]

theorem mono {step' : L → σ → σ → Prop} (h : ∀ l ∈ ls, ∀ s t, step l s t → step' l s t) (hp : Path step ls s t) : Path step' ls s t := by
  induction ls generalizing s with
  | nil => exact hp
  | cons l ls ih =>
    obtain ⟨u, hl, hls⟩ := hp
    exact ⟨u, h l List.mem_cons_self _ _ hl, ih (fun l' hl' => h l' (List.mem_cons_of_mem l hl')) hls⟩

/-- A property of the labels, checked on the way. -/
theorem and_iff {P : L → Prop} : Path (fun l s t => P l ∧ step l s t) ls s t ↔ (∀ l ∈ ls, P l) ∧ Path step ls s t := by
  induction ls generalizing s with
  | nil => simp
  | cons l ls ih =>
    simp only [cons_iff, ih, List.forall_mem_cons]
    constructor
    · rintro ⟨u, ⟨hl, hs⟩, hls, ht⟩
      exact ⟨⟨hl, hls⟩, u, hs, ht⟩
    · rintro ⟨⟨hl, hls⟩, u, hs, ht⟩
      exact ⟨u, ⟨hl, hs⟩, hls, ht⟩

/-- A path is at most as long as what its steps use up. -/
theorem length_le {size : σ → ℕ} (h : ∀ l ∈ ls, ∀ s t, step l s t → size t + 1 ≤ size s) (hp : Path step ls s t) :
    size t + ls.length ≤ size s := by
  induction ls generalizing s with
  | nil => exact Nat.le_of_eq (congrArg size hp)
  | cons l ls ih =>
    obtain ⟨u, hl, hls⟩ := hp
    have first := h l List.mem_cons_self s u hl
    have rest := ih (fun l' hl' => h l' (List.mem_cons_of_mem l hl')) hls
    rw [List.length_cons]
    omega

end Path

end SpidirWasm
