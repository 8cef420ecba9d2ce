import AvaModule.Util.MathDef

/-! What WARP_TAU and WARP_PI of util/mathdef.h make of an angle. `TAU` is longer than two `PI`, so half a turn
away from zero there are angles that no whole number of turns brings between `-PI` and `PI`. -/
namespace AvaModule

variable {x y : ℚ}

/-- Between `PI` and the angle a turn above `-PI`. -/
def InGap (x : ℚ) : Prop := pi < x ∧ x < tau - pi

/-- Each macro brings the angle into its range by whole turns, and leaves it there. -/
structure WarpLaw (x : ℚ) : Prop where
  tau_range : 0 ≤ warpTau x ∧ warpTau x < tau
  pi_range : -pi ≤ warpPi x ∧ warpPi x ≤ pi
  tau_turns : ∃ m : ℤ, warpTau x = x + m * tau
  pi_turns : ∃ m : ℤ, warpPi x = x + m * tau
  tau_again : warpTau (warpTau x) = warpTau x
  pi_again : warpPi (warpPi x) = warpPi x

theorem pi_pos : 0 < pi := by norm_num [pi]

theorem pi_lt_tau : pi < tau := by norm_num [pi, tau]

theorem two_pi_lt_tau : pi + pi < tau := by norm_num [pi, tau]

theorem warpTau_of_range (low : 0 ≤ x) (high : x ≤ tau) : warpTau x = x := by
  have small : ¬|x| > tau := by rwa [abs_of_nonneg low, not_lt]
  rw [warpTau, if_neg small, if_neg (not_lt.mpr low)]

theorem warpPi_of_range (low : -pi ≤ x) (high : x ≤ pi) : warpPi x = x := by
  have small : ¬|x| > tau := not_lt.mpr ((abs_le.mpr ⟨low, high⟩).trans pi_lt_tau.le)
  rw [warpPi, if_neg small, if_neg (not_lt.mpr high), if_neg (not_lt.mpr low)]

/-- The part of a turn that WARP_PI works on, and its result. -/
theorem warpPi_cases (x : ℚ) : ∃ y, (∃ m : ℤ, y = x + m * tau) ∧
    (pi < y ∧ y ≤ tau ∧ warpPi x = y - tau ∨ -tau ≤ y ∧ y < -pi ∧ warpPi x = y + tau ∨
      -pi ≤ y ∧ y ≤ pi ∧ warpPi x = y) := by
  obtain ⟨y, y_eq, lower, upper, turns⟩ := turned_spec x
  have eq : warpPi x = if y > pi then y - tau else if y < -pi then y + tau else y := by
    rw [y_eq]
    rfl
  refine ⟨y, turns, ?_⟩
  by_cases above : y > pi
  · exact Or.inl ⟨above, upper, by rw [eq, if_pos above]⟩
  · by_cases below : y < -pi
    · exact Or.inr (Or.inl ⟨lower, below, by rw [eq, if_neg above, if_pos below]⟩)
    · exact Or.inr (Or.inr ⟨not_lt.mp below, not_lt.mp above, by rw [eq, if_neg above, if_neg below]⟩)

theorem warpPi_turns (x : ℚ) : ∃ m : ℤ, warpPi x = x + m * tau := by
  obtain ⟨y, ⟨m, turns⟩, ⟨_, _, eq⟩ | ⟨_, _, eq⟩ | ⟨_, _, eq⟩⟩ := warpPi_cases x
  · refine ⟨m - 1, ?_⟩
    rw [eq, turns]
    push_cast
    ring
  · refine ⟨m + 1, ?_⟩
    rw [eq, turns]
    push_cast
    ring
  · exact ⟨m, eq.trans turns⟩

/-- No whole number of turns takes an angle of the range into the gap. -/
theorem not_inGap_of_range (low : -pi ≤ x) (high : x ≤ pi) (m : ℤ) : ¬InGap (x + m * tau) := by
  rintro ⟨above, below⟩
  have positive := tau_pos
  have half := pi_lt_tau
  rcases le_or_gt m 0 with le | gt
  · have turns : (m : ℚ) * tau ≤ 0 := mul_nonpos_of_nonpos_of_nonneg (by exact_mod_cast le) positive.le
    linarith
  · have turns : 1 * tau ≤ (m : ℚ) * tau := mul_le_mul_of_nonneg_right (by exact_mod_cast gt) positive.le
    linarith

/-- WARP_PI reaches its range exactly from outside of the gap. -/
theorem warpPi_range_iff : (-pi ≤ warpPi x ∧ warpPi x ≤ pi) ↔ ∀ m : ℤ, ¬InGap (x + m * tau) := by
  constructor
  · rintro ⟨low, high⟩ m
    obtain ⟨k, turns⟩ := warpPi_turns x
    have moved : x + m * tau = warpPi x + (m - k : ℤ) * tau := by
      rw [turns]
      push_cast
      ring
    rw [moved]
    exact not_inGap_of_range low high _
  · intro clear
    have half := two_pi_lt_tau
    have positive := pi_pos
    obtain ⟨y, ⟨m, turns⟩, ⟨above, high, eq⟩ | ⟨low, below, eq⟩ | ⟨low, high, eq⟩⟩ := warpPi_cases x
    · have outside : tau - pi ≤ y := by
        by_contra inside
        exact clear m (turns ▸ ⟨above, not_le.mp inside⟩)
      rw [eq]
      constructor <;> linarith
    · have next : x + (m + 1 : ℤ) * tau = y + tau := by
        rw [turns]
        push_cast
        ring
      have outside : y + tau ≤ pi := by
        by_contra inside
        exact clear (m + 1) (next ▸ ⟨not_le.mp inside, by linarith⟩)
      rw [eq]
      constructor <;> linarith
    · rw [eq]
      exact ⟨low, high⟩

/-- The law holds of every angle but a full turn and those in the gap. -/
theorem warp_law_iff (x : ℚ) : WarpLaw x ↔ x ≠ tau ∧ ∀ m : ℤ, ¬InGap (x + m * tau) := by
  constructor
  · intro law
    refine ⟨fun full => ?_, warpPi_range_iff.mp law.pi_range⟩
    exact absurd (warpTau_eq_tau.mpr full) law.tau_range.2.ne
  · rintro ⟨part, clear⟩
    obtain ⟨low, high, turns⟩ := warpTau_spec x
    have range := warpPi_range_iff.mpr clear
    refine ⟨⟨low, lt_of_le_of_ne high ?_⟩, range, turns, warpPi_turns x, warpTau_of_range low high,
      warpPi_of_range range.1 range.2⟩
    exact fun full => part (warpTau_eq_tau.mp full)

/-- A full turn, and an angle just above `PI` that a second call turns back. -/
theorem warp_ends : ¬WarpLaw tau ∧ ¬WarpLaw 3.14159265 := by
  refine ⟨fun law => law.tau_range.2.ne (warpTau_eq_tau.mpr rfl), fun law => warpPi_range_iff.mp law.pi_range 0 ?_⟩
  norm_num [InGap, pi, tau]

end AvaModule
