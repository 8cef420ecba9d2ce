import Mathlib.Analysis.Real.Pi.Bounds
import Mathlib.Analysis.SpecialFunctions.Trigonometric.Bounds

/-! The sine by the addition formula, from approximate sines and cosines of its two parts. The error of the
sum is at most the sum of the four errors. -/
namespace SineTable
open Real

variable {x y t u v s c p q r α β γ δ : ℝ}

theorem mul_close (left : |x - u| ≤ α) (right : |y - v| ≤ β) (high : |u| ≤ 1) (low : |y| ≤ 1) :
    |x * y - u * v| ≤ α + β := by
  have parts : x * y - u * v = (x - u) * y + u * (y - v) := by ring
  calc |x * y - u * v| ≤ |x - u| * |y| + |u| * |y - v| := by
        rw [parts, ← abs_mul, ← abs_mul]
        exact abs_add_le _ _
    _ ≤ |x - u| * 1 + 1 * |y - v| := by gcongr
    _ ≤ α + β := by linarith

/-- The addition formula over approximations. -/
theorem addition_close (sine : |s - sin u| ≤ α) (cosine : |c - cos v| ≤ β) (cosine' : |q - cos u| ≤ γ)
    (sine' : |p - sin v| ≤ δ) (low : |c| ≤ 1) (low' : |p| ≤ 1) :
    |s * c + p * q - sin (u + v)| ≤ α + β + (γ + δ) := by
  have first := mul_close sine cosine (abs_sin_le_one u) low
  have second := mul_close cosine' sine' (abs_cos_le_one u) low'
  have sum : s * c + p * q - sin (u + v) = (s * c - sin u * cos v) + (q * p - cos u * sin v) := by
    rw [sin_add]
    ring
  rw [sum]
  exact (abs_add_le _ _).trans (add_le_add first second)

/-- The cosine taken at a lower angle. -/
theorem cos_lower (positive : 0 ≤ u) (lower : u ≤ v) : |cos u - cos v| ≤ (v ^ 2 - u ^ 2) / 2 := by
  have middle : 0 ≤ (u + v) / 2 := by linarith
  have mean : |sin ((u + v) / 2)| ≤ (u + v) / 2 := abs_sin_le_abs.trans_eq (abs_of_nonneg middle)
  have half : |sin ((u - v) / 2)| ≤ (v - u) / 2 :=
    abs_sin_le_abs.trans_eq ((abs_of_nonpos (by linarith)).trans (by ring))
  calc |cos u - cos v| = 2 * (|sin ((u + v) / 2)| * |sin ((u - v) / 2)|) := by
        rw [cos_sub_cos, abs_mul, abs_mul, abs_neg, abs_two, mul_assoc]
    _ ≤ 2 * ((u + v) / 2 * ((v - u) / 2)) := by gcongr
    _ = (v ^ 2 - u ^ 2) / 2 := by ring

/-- A number between the bounds of the sine series is close to the sine. -/
theorem sin_close (positive : 0 ≤ v) (small : v ≤ 1) (lower : v - v ^ 3 / 6 + v ^ 5 / 100 ≤ s + α)
    (upper : s ≤ v - v ^ 3 / 6 - v ^ 5 / 100 + α) : |s - sin v| ≤ α := by
  have bound := sin_bound (abs_le.mpr ⟨by linarith, small⟩)
  rw [abs_of_nonneg positive] at bound
  obtain ⟨least, most⟩ := abs_le.mp bound
  exact abs_le.mpr ⟨by linarith, by linarith⟩

/-- An angle in place of its sine. -/
theorem angle_close (positive : 0 ≤ v) (small : v ≤ 1) : |v - sin v| ≤ v ^ 3 / 6 + v ^ 5 / 100 := by
  have cube : 0 ≤ v ^ 3 / 6 := by positivity
  exact sin_close positive small (by linarith) (by linarith)

/-- A number between the bounds of the cosine series is close to the cosine. -/
theorem cos_close (small : |v| ≤ 1) (lower : v ^ 2 / 2 ≤ 1 - c + α) (upper : 1 - v ^ 2 / 2 + v ^ 4 * (5 / 96) ≤ c + α) :
    |c - cos v| ≤ α := by
  have least := one_sub_sq_div_two_le_cos (x := v)
  have most := (abs_le.mp (cos_bound small)).2
  rw [(by decide : Even 4).pow_abs] at most
  exact abs_le.mpr ⟨by linarith, by linarith⟩

/-- The radians of a degree. -/
noncomputable def degree : ℝ := π / 180.0

theorem degree_eq : degree = π / 180 := by
  unfold degree
  norm_num

theorem degree_gt : 0.01745329251994329576 < degree := by
  have bound := pi_gt_d20
  rw [degree_eq]
  linarith

theorem degree_lt : degree < 0.01745329251994329577 := by
  have bound := pi_lt_d20
  rw [degree_eq]
  linarith

theorem degree_pos : 0 < degree := by
  have bound := degree_gt
  linarith

end SineTable
