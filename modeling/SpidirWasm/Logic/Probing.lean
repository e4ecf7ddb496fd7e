import Mathlib.Data.Fintype.EquivFin
import Mathlib.Data.Nat.ModEq
import Mathlib.Data.Nat.Prime.Basic
import Mathlib.Tactic.Linarith
import Mathlib.Tactic.Ring

/-! Triangular probing: in a table whose size is a power of two, the steps `i (i + 1) / 2`
pass every position once. -/

namespace SpidirWasm.Probing

/-- The distance of the `i`-th probe from the first. -/
def triangular (i : ℕ) : ℕ := i * (i + 1) / 2

theorem two_mul_triangular (i : ℕ) : 2 * triangular i = i * (i + 1) :=
  Nat.mul_div_cancel' (Nat.even_mul_succ_self i).two_dvd

theorem triangular_add (i d : ℕ) : 2 * triangular (i + d) = 2 * triangular i + d * (2 * i + d + 1) := by
  rw [two_mul_triangular, two_mul_triangular]
  ring

/-- Two early probes are at different positions: one of the factors of their distance is odd,
and the other is too small. -/
theorem triangular_ne_of_lt {k i j : ℕ} (hij : i < j) (hj : j < 2 ^ k) : ¬triangular i ≡ triangular j [MOD 2 ^ k] := by
  intro h
  obtain ⟨d, rfl⟩ := Nat.le.dest hij.le
  have sum := triangular_add i d
  have double : 2 ^ (k + 1) ∣ d * (2 * i + d + 1) := by
    have le : triangular i ≤ triangular (i + d) := by omega
    have product : d * (2 * i + d + 1) = 2 * (triangular (i + d) - triangular i) := by omega
    rw [product, pow_succ']
    exact Nat.mul_dvd_mul_left 2 ((Nat.modEq_iff_dvd' le).mp h)
  have range : 2 ^ (k + 1) = 2 * 2 ^ k := pow_succ' 2 k
  rcases Nat.even_or_odd d with heven | hodd
  · have odd : Odd (2 * i + d + 1) := (even_two_mul i |>.add heven).add_one
    have coprime : Nat.Coprime (2 ^ (k + 1)) (2 * i + d + 1) := Nat.Coprime.pow_left _ (Nat.coprime_two_left.mpr odd)
    have le := Nat.le_of_dvd (by omega) (coprime.dvd_of_dvd_mul_right double)
    omega
  · have coprime : Nat.Coprime (2 ^ (k + 1)) d := Nat.Coprime.pow_left _ (Nat.coprime_two_left.mpr hodd)
    have le := Nat.le_of_dvd (by omega) (coprime.dvd_of_dvd_mul_left double)
    omega

/-- From any start, every position is probed. -/
theorem exists_probe (k start : ℕ) {j : ℕ} (hj : j < 2 ^ k) : ∃ i < 2 ^ k, (start + triangular i) % 2 ^ k = j := by
  have pos : 0 < 2 ^ k := Nat.two_pow_pos k
  let position (i : Fin (2 ^ k)) : Fin (2 ^ k) := ⟨(start + triangular i) % 2 ^ k, Nat.mod_lt _ pos⟩
  have injective : Function.Injective position := by
    intro i i' h
    have same : start + triangular i ≡ start + triangular i' [MOD 2 ^ k] := congrArg Fin.val h
    have close := Nat.ModEq.add_left_cancel' start same
    rcases lt_trichotomy i i' with hlt | rfl | hlt
    · exact absurd close (triangular_ne_of_lt hlt i'.isLt)
    · rfl
    · exact absurd close.symm (triangular_ne_of_lt hlt i.isLt)
  obtain ⟨i, hi⟩ := Finite.injective_iff_surjective.mp injective ⟨j, hj⟩
  exact ⟨i, i.isLt, congrArg Fin.val hi⟩

end SpidirWasm.Probing
