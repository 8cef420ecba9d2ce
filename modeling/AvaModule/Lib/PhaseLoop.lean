import Mathlib.Algebra.Order.Field.Basic
import Mathlib.Tactic.FieldSimp
import Mathlib.Tactic.Linarith
import Mathlib.Tactic.Positivity
import Mathlib.Tactic.Ring

/-! A sampled loop with a proportional and an integral part that follows a ramp. `d` is its damping, and `u` its
natural frequency for each sample. A quadratic form in its two errors falls at every sample. -/
namespace PhaseLoop
variable {K : Type*} [Field K]

/-- The error of the phase, and that of the integrator in units of the natural frequency. -/
structure Err (K : Type*) where
  e : K
  y : K

def next (d u : K) (s : Err K) : Err K where
  e := s.e - (d + d) * u * s.e - u * (s.y + u * s.e)
  y := s.y + u * s.e

def cross (d u : K) : K := u * (d + d + u) / (d + u + (d + u))

def energy (d u : K) (s : Err K) : K := s.e * s.e + (cross d u + cross d u) * (s.e * s.y) + s.y * s.y

/-- What one sample takes from the energy, for the squares of the two errors. -/
def lossE (d u : K) : K :=
  u * (d + d + u) * (1 + (1 - u * (d + d + u)) - u / (d + d + u) - u * (1 - u * (d + d + u)) / (d + u))

def lossY (d u : K) : K := u * u * d / (d + u)

variable [LinearOrder K] [IsStrictOrderedRing K] {d u : K} {s : Err K}

/-- The share of the energy that is left after a sample. -/
def rate (d u : K) : K := 1 - min (lossE d u) (lossY d u) / (1 + cross d u)

theorem energy_next (d_pos : 0 < d) (u_pos : 0 < u) :
    energy d u (next d u s) = energy d u s - lossE d u * (s.e * s.e) - lossY d u * (s.y * s.y) := by
  have sum : d + u ≠ 0 := (add_pos d_pos u_pos).ne'
  have sum' : d + d + u ≠ 0 := (add_pos (add_pos d_pos d_pos) u_pos).ne'
  have twice : d + u + (d + u) ≠ 0 := (add_pos (add_pos d_pos u_pos) (add_pos d_pos u_pos)).ne'
  simp only [energy, next, cross, lossE, lossY]
  field_simp
  ring

section Stable
variable (d_pos : 0 < d) (u_pos : 0 < u) (stable : u * (d + d + u) ≤ 1)
include d_pos u_pos

theorem cross_pos : 0 < cross d u := by unfold cross; positivity

theorem lossY_pos : 0 < lossY d u := by unfold lossY; positivity

/-- The energy bounds the errors. -/
theorem energy_lower : (1 - cross d u) * (s.e * s.e + s.y * s.y) ≤ energy d u s := by
  have square := mul_nonneg (cross_pos d_pos u_pos).le (mul_self_nonneg (s.e + s.y))
  rw [energy]
  linarith

theorem energy_upper : energy d u s ≤ (1 + cross d u) * (s.e * s.e + s.y * s.y) := by
  have square := mul_nonneg (cross_pos d_pos u_pos).le (mul_self_nonneg (s.e - s.y))
  rw [energy]
  linarith

include stable

/-- A stable loop turns less than a radian for each sample. -/
theorem u_lt : u < 1 := by
  have both : 0 < d * u := mul_pos d_pos u_pos
  nlinarith

theorem cross_lt : cross d u < 1 := by
  have small := u_lt d_pos u_pos stable
  have bound : u * (d + d + u) < d + u + (d + u) := by nlinarith [mul_pos d_pos u_pos]
  rw [cross, div_lt_one (by positivity)]
  exact bound

theorem lossE_pos : 0 < lossE d u := by
  have turn : 0 < u * (d + d + u) := by positivity
  have first : u / (d + d + u) < 1 := (div_lt_one (by positivity)).mpr (by linarith)
  have share : u / (d + u) ≤ 1 := (div_le_one (by positivity)).mpr (by linarith)
  have second : u * (1 - u * (d + d + u)) / (d + u) ≤ 1 - u * (d + d + u) := by
    rw [mul_div_right_comm]
    exact mul_le_of_le_one_left (by linarith) share
  exact mul_pos turn (by linarith)

theorem rate_nonneg : 0 ≤ rate d u := by
  have cross_pos := cross_pos d_pos u_pos
  have small := u_lt d_pos u_pos stable
  have loss : lossY d u ≤ 1 := by
    rw [lossY, div_le_one (by positivity)]
    nlinarith [mul_pos d_pos u_pos]
  have least := (min_le_right (lossE d u) (lossY d u)).trans loss
  rw [rate, sub_nonneg, div_le_one (by linarith)]
  linarith

theorem rate_lt_one : rate d u < 1 := by
  have cross_pos := cross_pos d_pos u_pos
  have least : 0 < min (lossE d u) (lossY d u) := lt_min (lossE_pos d_pos u_pos stable) (lossY_pos d_pos u_pos)
  have part : 0 < min (lossE d u) (lossY d u) / (1 + cross d u) := div_pos least (by linarith)
  rw [rate]
  linarith

theorem energy_nonneg : 0 ≤ energy d u s := by
  have share : 0 ≤ 1 - cross d u := by linarith [cross_lt d_pos u_pos stable]
  have squares : 0 ≤ s.e * s.e + s.y * s.y := add_nonneg (mul_self_nonneg _) (mul_self_nonneg _)
  exact (mul_nonneg share squares).trans (energy_lower d_pos u_pos)

/-- Each sample leaves at most the same share of the energy. -/
theorem energy_falls : energy d u (next d u s) ≤ rate d u * energy d u s := by
  have cross_pos := cross_pos d_pos u_pos
  have upper := energy_upper d_pos u_pos (s := s)
  set least := min (lossE d u) (lossY d u) with least_eq
  have least_pos : 0 < least := lt_min (lossE_pos d_pos u_pos stable) (lossY_pos d_pos u_pos)
  have loss : least * (s.e * s.e + s.y * s.y) ≤ lossE d u * (s.e * s.e) + lossY d u * (s.y * s.y) := by
    rw [mul_add]
    exact add_le_add (mul_le_mul_of_nonneg_right (min_le_left _ _) (mul_self_nonneg _))
      (mul_le_mul_of_nonneg_right (min_le_right _ _) (mul_self_nonneg _))
  have share : least / (1 + cross d u) * energy d u s ≤ least * (s.e * s.e + s.y * s.y) := by
    rw [div_mul_eq_mul_div, div_le_iff₀ (by linarith), mul_assoc, mul_comm (s.e * s.e + s.y * s.y)]
    exact mul_le_mul_of_nonneg_left upper least_pos.le
  rw [energy_next d_pos u_pos, rate, sub_mul, one_mul]
  linarith

end Stable

end PhaseLoop
