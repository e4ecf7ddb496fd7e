import Mathlib.Algebra.Group.Int.Defs
import Mathlib.Algebra.Group.Nat.Defs
import Mathlib.Data.Int.Notation
import Mathlib.Data.Nat.Notation
import Mathlib.Tactic.Common

/-! `memory.atomic.wait32` over futexes. The loop is meant for interruptions by signals, but
it goes on after every error other than two, and an error that a bad address causes comes
back on every retry. -/

namespace SpidirWasm.Host

/-- `struct timespec`. -/
structure Timespec where
  tvSec : ℤ
  tvNsec : ℤ
  deriving DecidableEq, Repr

/-- A time in nanoseconds. -/
def Timespec.total (t : Timespec) : ℤ := t.tvSec * 1000000000 + t.tvNsec

/-- `futex_deadline`, with what `clock_gettime` says. -/
def futexDeadline (now : Timespec) (timeoutNs : ℤ) : Timespec :=
  let sec := now.tvSec + timeoutNs.tdiv 1000000000
  let ns := now.tvNsec + timeoutNs.tmod 1000000000
  if 1000000000 ≤ ns then ⟨sec + 1, ns - 1000000000⟩ else ⟨sec, ns⟩

/-- The errors of `errno.h` that play a part. -/
def eintr : ℕ := 4
def eagain : ℕ := 11
def einval : ℕ := 22
def etimedout : ℕ := 110

/-- The arguments of `FUTEX_WAIT_BITSET_PRIVATE`; without a deadline it waits for ever. -/
structure FutexWait where
  value : ℕ
  expected : BitVec 32
  deadline : Option Timespec
  deriving DecidableEq, Repr

/-- The call returns 0, or fails and sets `errno`. -/
inductive FutexResult where
  | woken
  | failed (errno : ℕ)
  deriving DecidableEq, Repr

/-- What the kernel answers to a call when it is made for the `i`-th time. -/
abbrev Kernel := FutexWait → ℕ → FutexResult

/-- `fuel` turns of the loop of `wasm_host_atomic_wait_4` from the `i`-th call on, with the call
that it returned after. -/
def waitFrom (kernel : Kernel) (call : FutexWait) : ℕ → ℕ → Option (BitVec 32 × ℕ)
  | 0, _ => none
  | fuel + 1, i =>
    match kernel call i with
    | .woken => some (0, i)
    | .failed errno =>
      if errno = eagain then some (1, i)
      else if errno = etimedout then some (2, i)
      else waitFrom kernel call fuel (i + 1)

/-- The call that `wasm_host_atomic_wait_4` makes again and again. -/
def waitCall (now : Timespec) (value : ℕ) (expected : BitVec 32) (timeout : ℤ) : FutexWait :=
  ⟨value, expected, if 0 ≤ timeout then some (futexDeadline now timeout) else none⟩

/-- `wasm_host_atomic_wait_4` returns `r` after the `i`-th call. -/
def WaitReturns (kernel : Kernel) (now : Timespec) (value : ℕ) (expected : BitVec 32) (timeout : ℤ) (r : BitVec 32) (i : ℕ) : Prop :=
  ∃ fuel, waitFrom kernel (waitCall now value expected timeout) fuel 0 = some (r, i)

/-- The first call that no signal interrupts. -/
def FirstAnswer (kernel : Kernel) (call : FutexWait) (i : ℕ) : Prop :=
  kernel call i ≠ .failed eintr ∧ ∀ j < i, kernel call j = .failed eintr

/-- The results that leave the loop. -/
def Expected (result : FutexResult) : Prop := result = .woken ∨ result = .failed eagain ∨ result = .failed etimedout

/-- What is returned for a wake-up, another value and an expiry. -/
def Means (result : FutexResult) (r : BitVec 32) : Prop :=
  (result = .woken → r = 0) ∧ (result = .failed eagain → r = 1) ∧ (result = .failed etimedout → r = 2)

variable {kernel : Kernel} {call : FutexWait} {fuel i j : ℕ} {r : BitVec 32}

/-- A deadline is the timeout away from now, and a time of day. -/
theorem futexDeadline_total {now : Timespec} {timeout : ℤ} (hnow : 0 ≤ now.tvNsec ∧ now.tvNsec < 1000000000) (htimeout : 0 ≤ timeout) :
    (futexDeadline now timeout).total = now.total + timeout ∧
      0 ≤ (futexDeadline now timeout).tvNsec ∧ (futexDeadline now timeout).tvNsec < 1000000000 := by
  obtain ⟨sec, nsec⟩ := now
  simp only [futexDeadline, Timespec.total, Int.tdiv_eq_ediv_of_nonneg htimeout, Int.tmod_eq_emod_of_nonneg htimeout] at hnow ⊢
  split_ifs <;> simp only <;> omega

/-! ### The loop -/

/-- An expected result ends the loop with what it means. -/
theorem waitFrom_expected (h : Expected (kernel call i)) : ∃ r, waitFrom kernel call (fuel + 1) i = some (r, i) ∧ Means (kernel call i) r := by
  rw [waitFrom]
  rcases h with h | h | h
  · exact ⟨0, by rw [h], by simp [h, Means]⟩
  · exact ⟨1, by rw [h]; rfl, by simp [h, Means, eagain, etimedout]⟩
  · exact ⟨2, by rw [h]; rfl, by simp [h, Means, eagain, etimedout]⟩

theorem waitFrom_other (h : ¬Expected (kernel call i)) : waitFrom kernel call (fuel + 1) i = waitFrom kernel call fuel (i + 1) := by
  rw [waitFrom]
  cases hr : kernel call i with
  | woken => exact absurd (.inl hr) h
  | failed errno =>
    have notAgain : errno ≠ eagain := fun he => h (.inr (.inl (by rw [hr, he])))
    have notExpired : errno ≠ etimedout := fun he => h (.inr (.inr (by rw [hr, he])))
    simp only [if_neg notAgain, if_neg notExpired]

/-- The loop ends at a result that it expects. -/
theorem waitFrom_eq_some (h : waitFrom kernel call fuel i = some (r, j)) : Expected (kernel call j) := by
  induction fuel generalizing i with
  | zero => cases h
  | succ fuel ih =>
    by_cases hexp : Expected (kernel call i)
    · obtain ⟨r', hr', -⟩ := @waitFrom_expected kernel call fuel i hexp
      rw [hr'] at h
      obtain ⟨-, rfl⟩ := Prod.mk.inj (Option.some.inj h)
      exact hexp
    · rw [waitFrom_other hexp] at h
      exact ih h

/-- Results that it does not expect are passed one by one. -/
theorem waitFrom_pass (n : ℕ) (h : ∀ j < n, ¬Expected (kernel call (i + j))) :
    waitFrom kernel call (n + fuel) i = waitFrom kernel call fuel (i + n) := by
  induction n generalizing i with
  | zero => rw [Nat.zero_add, Nat.add_zero]
  | succ n ih =>
    have first : ¬Expected (kernel call i) := h 0 (Nat.succ_pos n)
    have rest : ∀ j < n, ¬Expected (kernel call (i + 1 + j)) := by
      intro j hj
      rw [Nat.add_right_comm]
      exact h (j + 1) (Nat.succ_lt_succ hj)
    rw [Nat.add_right_comm, waitFrom_other first, ih rest, Nat.add_right_comm, Nat.add_assoc]

theorem not_expected_eintr : ¬Expected (.failed eintr) := by
  rintro (h | h | h) <;> cases h

/-- A first answer that the loop expects ends it. -/
theorem waitFrom_firstAnswer (h : FirstAnswer kernel call i) (hexp : Expected (kernel call i)) :
    ∃ r, waitFrom kernel call (i + 1) 0 = some (r, i) ∧ Means (kernel call i) r := by
  have signals : ∀ j < i, ¬Expected (kernel call (0 + j)) := by
    intro j hj
    rw [Nat.zero_add, h.2 j hj]
    exact not_expected_eintr
  obtain ⟨r, hr, hmeans⟩ := @waitFrom_expected kernel call 0 i hexp
  refine ⟨r, ?_, hmeans⟩
  rw [waitFrom_pass i signals, Nat.zero_add]
  exact hr

/-- An error that comes back on every retry is retried for ever. -/
theorem waitFrom_hangs {errno : ℕ} (h : FirstAnswer kernel call i) (hother : ¬Expected (.failed errno))
    (hrepeats : ∀ j, i ≤ j → kernel call j = .failed errno) (fuel : ℕ) : waitFrom kernel call fuel 0 = none := by
  rw [Option.eq_none_iff_forall_ne_some]
  rintro ⟨r, j⟩ hj
  have hexp := waitFrom_eq_some hj
  by_cases hij : i ≤ j
  · rw [hrepeats j hij] at hexp
    exact hother hexp
  · rw [h.2 j (Nat.lt_of_not_le hij)] at hexp
    exact not_expected_eintr hexp

/-! ### The wait -/

/-- The wait returns at the first call that no signal interrupts, if there is one, with what
its result means. -/
def Prompt (kernel : Kernel) (now : Timespec) (value : ℕ) (expected : BitVec 32) (timeout : ℤ) : Prop :=
  ∀ i, FirstAnswer kernel (waitCall now value expected timeout) i →
    ∃ r, WaitReturns kernel now value expected timeout r i ∧ Means (kernel (waitCall now value expected timeout) i) r

/-- The wait is prompt exactly when the first result that is no interruption is one of the three
that the loop knows. -/
theorem prompt_iff (kernel : Kernel) (now : Timespec) (value : ℕ) (expected : BitVec 32) (timeout : ℤ) :
    Prompt kernel now value expected timeout ↔ ∀ i, FirstAnswer kernel (waitCall now value expected timeout) i →
      Expected (kernel (waitCall now value expected timeout) i) := by
  refine forall_congr' fun i => forall_congr' fun hi => ?_
  constructor
  · rintro ⟨r, ⟨fuel, hr⟩, -⟩
    exact waitFrom_eq_some hr
  · intro hexp
    obtain ⟨r, hr, hmeans⟩ := waitFrom_firstAnswer hi hexp
    exact ⟨r, ⟨i + 1, hr⟩, hmeans⟩

/-- A kernel that refuses words that are not aligned, and wakes every other waiter. -/
def strict : Kernel := fun call _ => if call.value % 4 = 0 then .woken else .failed einval

/-- A wait on the word at address 2 never returns. -/
theorem wait_misaligned : ¬Prompt strict ⟨0, 0⟩ 2 0 1000 ∧ ∀ r i, ¬WaitReturns strict ⟨0, 0⟩ 2 0 1000 r i := by
  have refused : ∀ j, strict (waitCall ⟨0, 0⟩ 2 0 1000) j = .failed einval := fun _ => rfl
  have other : ¬Expected (.failed einval) := by
    rintro (h | h | h) <;> cases h
  have first : FirstAnswer strict (waitCall ⟨0, 0⟩ 2 0 1000) 0 := ⟨by rw [refused]; decide, by simp⟩
  have never : ∀ r i, ¬WaitReturns strict ⟨0, 0⟩ 2 0 1000 r i := by
    rintro r i ⟨fuel, hr⟩
    rw [waitFrom_hangs first other (fun j _ => refused j)] at hr
    cases hr
  refine ⟨fun h => ?_, never⟩
  obtain ⟨r, hr, -⟩ := h 0 first
  exact never r 0 hr

end SpidirWasm.Host
