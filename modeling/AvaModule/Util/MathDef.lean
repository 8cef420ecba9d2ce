import Mathlib.Data.Rat.Floor
import Mathlib.Tactic.Linarith
import Mathlib.Tactic.Ring

/-! The angle macros of util/mathdef.h in exact arithmetic, with the constants as they are
written there. A division by zero has the value 0 here; it has none in the source. -/
namespace AvaModule

/-- `TAU` -/
def tau : ℚ := 6.2831853

/-- `PI`, which is not half of `TAU`. -/
def pi : ℚ := 3.1415926

/-- `MOD`, the remainder of the quotient rounded to zero. -/
def fmod (x y : ℚ) : ℚ := x - y * (if 0 ≤ x / y then ⌊x / y⌋ else ⌈x / y⌉)

/-- `WARP_TAU` -/
def warpTau (rad : ℚ) : ℚ :=
  let rad := if |rad| > tau then fmod rad tau else rad
  if rad < 0 then rad + tau else rad

/-- `WARP_PI` -/
def warpPi (rad : ℚ) : ℚ :=
  let rad := if |rad| > tau then fmod rad tau else rad
  if rad > pi then rad - tau else if rad < -pi then rad + tau else rad

/-- `INTEGRATOR` -/
def integrator (ret val gain fs : ℚ) : ℚ := ret + gain * val / fs

/-- `LOWPASS` -/
def lowpass (ret val fc fs : ℚ) : ℚ :=
  let rc := 1 / (tau * fc)
  let alpha := 1 / (1 + rc * fs)
  alpha * val + (1 - alpha) * ret

/-- `THETA_DERIVATIVE` without its store of `prev_theta`. -/
def thetaDerivative (theta prevTheta gain fs : ℚ) : ℚ := gain * warpPi (theta - prevTheta) * fs

/-- `CPYSGN` -/
def cpysgn (x y : ℚ) : ℚ := if y < 0 then -|x| else |x|

/-- `poly_eval`, whose last coefficient is the constant one. -/
def polyEval (coeffs : Nat → ℚ) (order : Nat) (x : ℚ) : ℚ :=
  match order with
  | 0 => coeffs 0
  | order + 1 => polyEval coeffs order x * x + coeffs (order + 1)

section Warp
variable {x y : ℚ}

theorem tau_pos : 0 < tau := by norm_num [tau]

/-- The remainder lies between `-y` and `y`, a whole number of `y` away. -/
theorem fmod_spec (x : ℚ) (pos : 0 < y) : -y < fmod x y ∧ fmod x y < y ∧ ∃ m : ℤ, fmod x y = x + m * y := by
  have whole : x / y * y = x := div_mul_cancel₀ x pos.ne'
  unfold fmod
  split
  · have lower := mul_le_mul_of_nonneg_right (Int.floor_le (x / y)) pos.le
    have upper := mul_lt_mul_of_pos_right (Int.lt_floor_add_one (x / y)) pos
    refine ⟨by linarith, by linarith, -⌊x / y⌋, ?_⟩
    push_cast
    ring
  · have lower := mul_lt_mul_of_pos_right (Int.ceil_lt_add_one (x / y)) pos
    have upper := mul_le_mul_of_nonneg_right (Int.le_ceil (x / y)) pos.le
    refine ⟨by linarith, by linarith, -⌈x / y⌉, ?_⟩
    push_cast
    ring

/-- What both macros do first. -/
theorem turned_spec (x : ℚ) : ∃ y, y = (if |x| > tau then fmod x tau else x) ∧ -tau ≤ y ∧ y ≤ tau ∧
    ∃ m : ℤ, y = x + m * tau := by
  refine ⟨_, rfl, ?_⟩
  split
  · obtain ⟨lower, upper, turns⟩ := fmod_spec x tau_pos
    exact ⟨lower.le, upper.le, turns⟩
  · next small =>
    obtain ⟨lower, upper⟩ := abs_le.mp (not_lt.mp small)
    exact ⟨lower, upper, 0, by simp⟩

/-- `WARP_TAU` turns the angle by whole turns, into one turn. -/
theorem warpTau_spec (x : ℚ) : 0 ≤ warpTau x ∧ warpTau x ≤ tau ∧ ∃ m : ℤ, warpTau x = x + m * tau := by
  obtain ⟨y, y_eq, lower, upper, m, turns⟩ := turned_spec x
  have eq : warpTau x = if y < 0 then y + tau else y := by
    rw [y_eq]
    rfl
  rw [eq]
  split
  · refine ⟨by linarith, by linarith, m + 1, ?_⟩
    rw [turns]
    push_cast
    ring
  · exact ⟨by linarith, upper, m, turns⟩

theorem warpTau_zero : warpTau 0 = 0 := by
  norm_num [warpTau, tau]

/-- Only a full turn stays a full turn. -/
theorem warpTau_eq_tau : warpTau x = tau ↔ x = tau := by
  have pos := tau_pos
  constructor
  · intro full
    unfold warpTau at full
    dsimp only at full
    obtain ⟨lower, upper, _⟩ := fmod_spec x tau_pos
    split at full
    · split at full <;> linarith
    · split at full <;> linarith
  · rintro rfl
    have small : ¬|tau| > tau := by simp [abs_of_pos pos]
    simp [warpTau, small, pos.le]

/-- Two angles a fixed distance apart are warped to a fixed distance only if they are the same. -/
theorem warpTau_shift {a b e : ℚ} (fixed : ∀ x, warpTau (x + a) - warpTau (x + b) = e) : a = b := by
  obtain ⟨none, _⟩ := warpTau_spec (a - b)
  obtain ⟨none', _⟩ := warpTau_spec (b - a)
  have first := fixed (-b)
  have second := fixed (-a)
  have full := fixed (tau - b)
  simp only [neg_add_cancel, warpTau_zero, neg_add_eq_sub] at first second
  rw [sub_add_cancel, warpTau_eq_tau.mpr rfl] at full
  have turn : tau - b + a = tau := warpTau_eq_tau.mp (by linarith)
  linarith

end Warp

section Limits
variable {K : Type} [LinearOrder K] {x min max : K}

/-- `CLAMP`, with the `MIN` in it. -/
def clamp (x min max : K) : K := if x ≤ min then min else if x < max then x else max

theorem clamp_mem (ordered : min ≤ max) : min ≤ clamp x min max ∧ clamp x min max ≤ max := by
  unfold clamp
  split
  case isTrue => exact ⟨le_rfl, ordered⟩
  case isFalse above =>
    split
    case isTrue below => exact ⟨(lt_of_not_ge above).le, below.le⟩
    case isFalse => exact ⟨ordered, le_rfl⟩

/-- Between the limits nothing is changed. -/
theorem clamp_eq_self (lower : min ≤ x) (upper : x ≤ max) : clamp x min max = x := by
  unfold clamp
  split
  case isTrue below => exact le_antisymm lower below
  case isFalse =>
    split
    case isTrue => rfl
    case isFalse above => exact le_antisymm (le_of_not_gt above) upper

theorem clamp_eq_max (ordered : min ≤ max) (above : max ≤ x) : clamp x min max = max := by
  unfold clamp
  split
  case isTrue below => exact le_antisymm ordered (above.trans below)
  case isFalse => exact if_neg (not_lt_of_ge above)

end Limits

end AvaModule
