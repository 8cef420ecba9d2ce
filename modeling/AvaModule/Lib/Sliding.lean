import Mathlib.Algebra.Order.Field.Basic
import Mathlib.Algebra.Order.AbsoluteValue.Basic
import Mathlib.Tactic.FieldSimp
import Mathlib.Tactic.Linarith
import Mathlib.Tactic.Positivity
import Mathlib.Tactic.Ring

/-! A sampled error that is driven back with a drive of one size, and in proportion near zero. Against a disturbance
that is smaller than the drive it comes near zero and stays there, and the drive follows the disturbance. -/
namespace Sliding
variable {K : Type*} [Field K] [LinearOrder K]

/-- `ks` against the sign of the error, and linear up to `es0`. -/
def drive (ks es0 x : K) : K := if |x| > es0 then if x < 0 then -|ks| else |ks| else ks * x / es0

/-- The error after a sample under the disturbance `e`. -/
def next (g ks es0 e x : K) : K := x + (e - drive ks es0 x) * g

variable {g ks es0 bound e x : K}

/-- Near zero the drive is in proportion. -/
theorem drive_near (near : |x| ≤ es0) : drive ks es0 x = ks * x / es0 := if_neg (not_lt.mpr near)

variable [IsStrictOrderedRing K]

theorem drive_le (ks_nonneg : 0 ≤ ks) (es0_pos : 0 < es0) : |drive ks es0 x| ≤ ks := by
  unfold drive
  split
  · split
    · rw [abs_neg, abs_abs, abs_of_nonneg ks_nonneg]
    · rw [abs_abs, abs_of_nonneg ks_nonneg]
  next inside =>
    rw [abs_div, abs_mul, abs_of_nonneg ks_nonneg, abs_of_pos es0_pos, div_le_iff₀ es0_pos]
    exact mul_le_mul_of_nonneg_left (not_lt.mp inside) ks_nonneg

section Sample
variable (g_pos : 0 < g) (es0_pos : 0 < es0) (fine : ks * g ≤ es0) (small : |e| ≤ bound) (strong : bound < ks)
include g_pos es0_pos fine small strong

/-- A sample takes from a large error what the drive has over the disturbance, and leaves a small one small. -/
theorem next_falls : |next g ks es0 e x| ≤ max es0 (|x| - (ks - bound) * g) := by
  obtain ⟨low, high⟩ := abs_le.mp small
  have ks_pos : 0 < ks := (abs_nonneg e).trans_lt (small.trans_lt strong)
  have pushed : |e| * g < ks * g := mul_lt_mul_of_pos_right (small.trans_lt strong) g_pos
  have upper : e * g ≤ bound * g := mul_le_mul_of_nonneg_right high g_pos.le
  have lower : -bound * g ≤ e * g := mul_le_mul_of_nonneg_right low g_pos.le
  have weak : bound * g < ks * g := mul_lt_mul_of_pos_right strong g_pos
  unfold next
  by_cases far : |x| > es0
  · rw [drive, if_pos far]
    rcases lt_or_ge x 0 with neg | pos
    · rw [if_pos neg, abs_of_pos ks_pos]
      rw [abs_of_neg neg] at far ⊢
      refine abs_le.mpr ⟨?_, ?_⟩
      · have side := le_max_right es0 (-x - (ks - bound) * g)
        linarith
      · have side := le_max_left es0 (-x - (ks - bound) * g)
        linarith
    · rw [if_neg (not_lt.mpr pos), abs_of_pos ks_pos]
      rw [abs_of_nonneg pos] at far ⊢
      refine abs_le.mpr ⟨?_, ?_⟩
      · have side := le_max_left es0 (x - (ks - bound) * g)
        linarith
      · have side := le_max_right es0 (x - (ks - bound) * g)
        linarith
  · have near := not_lt.mp far
    rw [drive_near near]
    have share : 0 ≤ 1 - ks * g / es0 := by
      rw [sub_nonneg, div_le_one es0_pos]
      exact fine
    have split : x + (e - ks * x / es0) * g = (1 - ks * g / es0) * x + e * g := by ring
    have first : |(1 - ks * g / es0) * x| ≤ (1 - ks * g / es0) * es0 := by
      rw [abs_mul, abs_of_nonneg share]
      exact mul_le_mul_of_nonneg_left near share
    have whole : (1 - ks * g / es0) * es0 = es0 - ks * g := by field_simp
    have second : |e * g| = |e| * g := by rw [abs_mul, abs_of_pos g_pos]
    have sum := abs_add_le ((1 - ks * g / es0) * x) (e * g)
    rw [split]
    exact le_max_of_le_left (by linarith)

theorem next_near (near : |x| ≤ es0) : |next g ks es0 e x| ≤ es0 := by
  have falls := next_falls g_pos es0_pos fine small strong (x := x)
  have gain : 0 < (ks - bound) * g := mul_pos (sub_pos.mpr strong) g_pos
  rwa [max_eq_left (by linarith)] at falls

/-- Near zero the drive is a low-pass of the disturbance. -/
theorem drive_next (near : |x| ≤ es0) :
    drive ks es0 (next g ks es0 e x) = (1 - ks * g / es0) * drive ks es0 x + ks * g / es0 * e := by
  rw [drive_near (next_near g_pos es0_pos fine small strong near), next, drive_near near]
  ring

end Sample

section Run
variable {e x : Nat → K} (g_pos : 0 < g) (es0_pos : 0 < es0) (fine : ks * g ≤ es0) (small : ∀ n, |e n| ≤ bound)
  (strong : bound < ks) (run : ∀ n, x (n + 1) = next g ks es0 (e (n + 1)) (x n))
include g_pos es0_pos fine small strong run

theorem run_falls (n : Nat) : |x n| ≤ max es0 (|x 0| - n * ((ks - bound) * g)) := by
  induction n with
  | zero =>
    rw [Nat.cast_zero, zero_mul, sub_zero]
    exact le_max_right ..
  | succ n ih =>
    have gain : 0 < (ks - bound) * g := mul_pos (sub_pos.mpr strong) g_pos
    rw [run]
    refine (next_falls g_pos es0_pos fine (small (n + 1)) strong).trans (max_le (le_max_left ..) ?_)
    push_cast
    rcases le_max_iff.mp ih with near | fallen
    · exact le_max_of_le_left (by linarith)
    · exact le_max_of_le_right (by linarith)

theorem run_near {m : Nat} (near : |x m| ≤ es0) (n : Nat) : |x (m + n)| ≤ es0 := by
  induction n with
  | zero => exact near
  | succ n ih =>
    rw [← Nat.add_assoc, run]
    exact next_near g_pos es0_pos fine (small _) strong ih

/-- From where the error is near zero, the drive follows a disturbance that moves by at most `drift` a sample. -/
theorem run_follows {m : Nat} {drift : K} (near : |x m| ≤ es0) (slow : ∀ n, |e (n + 1) - e n| ≤ drift) (n : Nat) :
    |drive ks es0 (x (m + n)) - e (m + n)| ≤
      (1 - ks * g / es0) ^ n * |drive ks es0 (x m) - e m| + (1 - ks * g / es0) / (ks * g / es0) * drift := by
  have ks_pos : 0 < ks := (abs_nonneg (e 0)).trans_lt ((small 0).trans_lt strong)
  have gain : 0 < ks * g / es0 := by positivity
  have share : 0 ≤ 1 - ks * g / es0 := by
    rw [sub_nonneg, div_le_one es0_pos]
    exact fine
  have drift_nonneg : 0 ≤ drift := (abs_nonneg _).trans (slow 0)
  have lag : ∀ n, drive ks es0 (x (m + (n + 1))) =
      (1 - ks * g / es0) * drive ks es0 (x (m + n)) + ks * g / es0 * e (m + n + 1) := by
    intro n
    rw [← Nat.add_assoc, run]
    exact drive_next g_pos es0_pos fine (small _) strong (run_near g_pos es0_pos fine small strong run near n)
  generalize ks * g / es0 = a at gain share lag ⊢
  induction n with
  | zero =>
    rw [pow_zero, one_mul]
    exact le_add_of_nonneg_right (by positivity)
  | succ n ih =>
    have behind : drive ks es0 (x (m + (n + 1))) - e (m + (n + 1)) =
        (1 - a) * (drive ks es0 (x (m + n)) - e (m + n) - (e (m + n + 1) - e (m + n))) := by
      rw [lag, ← Nat.add_assoc]
      ring
    have sum : |drive ks es0 (x (m + n)) - e (m + n) - (e (m + n + 1) - e (m + n))| ≤
        ((1 - a) ^ n * |drive ks es0 (x m) - e m| + (1 - a) / a * drift) + drift :=
      (abs_sub _ _).trans (add_le_add ih (slow (m + n)))
    rw [behind, abs_mul, abs_of_nonneg share]
    refine (mul_le_mul_of_nonneg_left sum share).trans (le_of_eq ?_)
    field_simp
    ring

end Run

end Sliding
