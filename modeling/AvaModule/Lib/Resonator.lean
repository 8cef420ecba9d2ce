import Mathlib.Algebra.Order.Field.Basic
import Mathlib.Tactic.Linarith
import Mathlib.Tactic.LinearCombination
import Mathlib.Tactic.Positivity
import Mathlib.Tactic.Ring

/-! A damped recursion of order two, `(1 + alpha) e - 2 c e₁ + (1 - alpha) e₂ = 0`, and the energy that it loses. -/
namespace AvaModule.Resonator

variable {K : Type} [Field K] [LinearOrder K] [IsStrictOrderedRing K] {alpha c : K} {e : Nat → K}

/-- Without damping the energy would be kept. -/
def energy (c x y : K) : K := x ^ 2 - (c + c) * x * y + y ^ 2

/-- Every value follows from the two before. -/
def Rings (alpha c : K) (e : Nat → K) : Prop :=
  ∀ n, (1 + alpha) * e (n + 2) = (c + c) * e (n + 1) - (1 - alpha) * e n

/-- How much the two last values can be worth, against what the last two steps have lost. -/
def worth (alpha : K) : K :=
  let m := (1 - alpha) / (1 + 1)
  m ^ 2 + (m ^ 2 + (1 - m) ^ 2) + (m ^ 2 + (1 - m) ^ 2)

/-- Of what is left, two steps have lost at least this much. -/
def loss (alpha c : K) : K := alpha * (1 - c ^ 2) / worth alpha

omit [LinearOrder K] [IsStrictOrderedRing K] in
/-- The energy balance of one step. -/
theorem Rings.balance (rings : Rings alpha c e) (n : Nat) :
    energy c (e (n + 2)) (e (n + 1)) = energy c (e (n + 1)) (e n) - alpha * (e (n + 2) - e n) ^ 2 := by
  have step := rings n
  unfold energy
  linear_combination (e (n + 2) - e n) * step

/-- The energy bounds the last value. -/
theorem sq_le_energy (x y : K) : (1 - c ^ 2) * x ^ 2 ≤ energy c x y := by
  have square : energy c x y = (1 - c ^ 2) * x ^ 2 + (y - c * x) ^ 2 := by
    unfold energy
    ring
  rw [square]
  exact le_add_of_nonneg_right (sq_nonneg _)

omit [LinearOrder K] [IsStrictOrderedRing K] in
theorem worth_eq (alpha : K) : worth alpha = 3 * ((1 - alpha) / 2) ^ 2 + 2 * (1 - (1 - alpha) / 2) ^ 2 := by
  rw [worth, one_add_one_eq_two]
  ring

theorem worth_pos (alpha : K) : 0 < worth alpha := by
  rw [worth_eq]
  rcases eq_or_ne ((1 - alpha) / 2) 0 with zero | ne
  · rw [zero]
    norm_num
  · have first : 0 < ((1 - alpha) / 2) ^ 2 := sq_pos_of_ne_zero ne
    have second := sq_nonneg (1 - (1 - alpha) / 2)
    linarith

theorem loss_pos (damped : 0 < alpha) (inside : c ^ 2 < 1) : 0 < loss alpha c :=
  div_pos (mul_pos damped (sub_pos.mpr inside)) (worth_pos alpha)

/-- What is left after two steps is bounded by the differences that the two steps have lost energy to. -/
theorem Rings.energy_le (rings : Rings alpha c e) (inside : c ^ 2 < 1) (n : Nat) :
    (1 - c ^ 2) * energy c (e (n + 3)) (e (n + 2)) ≤
      worth alpha * ((e (n + 3) - e (n + 1)) ^ 2 + (e (n + 2) - e n) ^ 2) := by
  have first := rings n
  have second := rings (n + 1)
  generalize later : e (n + 3) - e (n + 1) = d at *
  generalize sooner : e (n + 2) - e n = d' at *
  generalize half : (1 - alpha) / 2 = m at *
  have alphas : alpha = 1 - 2 * m := by linarith
  have last : e (n + 3) - c * e (n + 2) = m * d := by
    rw [alphas] at second
    linear_combination second / 2 + m * later
  have before : (1 - c ^ 2) * e (n + 2) = m * d' - c * (1 - m) * d := by
    rw [alphas] at first second
    linear_combination first / 2 + c * (second / 2) + m * sooner - c * (1 - m) * later
  have square : (1 - c ^ 2) * energy c (e (n + 3)) (e (n + 2)) =
      (1 - c ^ 2) * (m * d) ^ 2 + (m * d' - c * (1 - m) * d) ^ 2 := by
    rw [← last, ← before]
    unfold energy
    ring
  have small : (1 - c ^ 2) * (m * d) ^ 2 ≤ (m * d) ^ 2 :=
    mul_le_of_le_one_left (sq_nonneg _) (sub_le_self 1 (sq_nonneg c))
  have mixed : (m * d' - c * (1 - m) * d) ^ 2 ≤ 2 * (m * d') ^ 2 + 2 * (c * (1 - m) * d) ^ 2 := by
    linarith [sq_nonneg (m * d' + c * (1 - m) * d)]
  have damped : (c * (1 - m) * d) ^ 2 ≤ ((1 - m) * d) ^ 2 := by
    have eq : (c * (1 - m) * d) ^ 2 = c ^ 2 * ((1 - m) * d) ^ 2 := by ring
    rw [eq]
    exact mul_le_of_le_one_left (sq_nonneg _) inside.le
  have total : worth alpha * (d ^ 2 + d' ^ 2) =
      (3 * m ^ 2 + 2 * (1 - m) ^ 2) * d ^ 2 + (3 * m ^ 2 + 2 * (1 - m) ^ 2) * d' ^ 2 := by
    rw [worth_eq, half]
    ring
  rw [square, total]
  linarith [sq_nonneg (m * d), sq_nonneg (m * d'), sq_nonneg ((1 - m) * d')]

/-- Two steps take their share of the energy. -/
theorem Rings.falls (rings : Rings alpha c e) (damped : 0 < alpha) (inside : c ^ 2 < 1) (n : Nat) :
    (1 + loss alpha c) * energy c (e (n + 3)) (e (n + 2)) ≤ energy c (e (n + 1)) (e n) := by
  have lost : energy c (e (n + 3)) (e (n + 2)) = energy c (e (n + 1)) (e n) -
      alpha * ((e (n + 3) - e (n + 1)) ^ 2 + (e (n + 2) - e n) ^ 2) := by
    rw [rings.balance (n + 1), rings.balance n]
    ring
  have share : loss alpha c * energy c (e (n + 3)) (e (n + 2)) ≤
      alpha * ((e (n + 3) - e (n + 1)) ^ 2 + (e (n + 2) - e n) ^ 2) := by
    have scaled := mul_le_mul_of_nonneg_left (rings.energy_le inside n) damped.le
    have eq : loss alpha c * energy c (e (n + 3)) (e (n + 2)) =
        alpha * ((1 - c ^ 2) * energy c (e (n + 3)) (e (n + 2))) / worth alpha := by
      rw [loss]
      ring
    rw [eq, div_le_iff₀ (worth_pos alpha)]
    linarith
  linarith

/-- From any start, the values die out geometrically. -/
theorem Rings.dies (rings : Rings alpha c e) (damped : 0 < alpha) (inside : c ^ 2 < 1) (n : Nat) :
    (1 + loss alpha c) ^ n * ((1 - c ^ 2) * e (2 * n + 1) ^ 2) ≤ energy c (e 1) (e 0) := by
  have pos : 0 < 1 + loss alpha c := add_pos one_pos (loss_pos damped inside)
  have run : (1 + loss alpha c) ^ n * energy c (e (2 * n + 1)) (e (2 * n)) ≤ energy c (e 1) (e 0) := by
    induction n with
    | zero => rw [pow_zero, one_mul]
    | succ n ih =>
      have falls := mul_le_mul_of_nonneg_left (rings.falls damped inside (2 * n)) (pow_pos pos n).le
      rw [pow_succ, mul_assoc]
      exact falls.trans ih
  exact (mul_le_mul_of_nonneg_left (sq_le_energy _ _) (pow_pos pos n).le).trans run

end AvaModule.Resonator
