import AvaModule.Foc.Second
import AvaModule.Lib.Winding

/-! The mean of wrapped angles as an offset: how far it is from the true one. -/
namespace AvaModule.FocDrive
open Finset (range)
open Winding (place)

variable {c : FocCfg} {pll : PllCfg} {sensor : Sensor} {r : Nat → Reading} {phi delta x : ℚ} {m n : Nat}

section Followed

/-- The sensor under readings that are aimed at one angle each. -/
def following (c : FocCfg) (y : Nat → ℚ) (sensor : Sensor) : Nat → Sensor
  | 0 => sensor
  | k + 1 => (following c y sensor k).next c (aim c (y k) (following c y sensor k))

def followed (c : FocCfg) (y : Nat → ℚ) (sensor : Sensor) (k : Nat) : Reading :=
  ⟨⟨⟨0, 0, 0⟩, 0⟩, aim c (y k) (following c y sensor k)⟩

theorem chain_followed (y : Nat → ℚ) (sensor : Sensor) (k : Nat) :
    chain c sensor (followed c y sensor) k = following c y sensor k := by
  induction k with
  | zero => rfl
  | succ k ih =>
    rw [chain, ih]
    rfl

theorem warpTau_small (nonneg : 0 ≤ x) (lt : x < tau) : warpTau x = x := by
  have small : ¬|x| > tau := by
    rw [abs_of_nonneg nonneg]
    exact not_lt.mpr lt.le
  rw [warpTau, if_neg small, if_neg (not_lt.mpr nonneg)]

/-- Every sequence of wrapped angles is seen with some readings. -/
theorem angleAt_followed (npp : 1 ≤ c.npp.toNat) {y : Nat → ℚ} (nonneg : ∀ k, 0 ≤ y k) (lt : ∀ k, y k < tau) (k : Nat) :
    angleAt c sensor (followed c y sensor) k = y k := by
  rw [angleAt, chain_followed]
  exact (angle_aim npp ..).trans (warpTau_small (nonneg k) (lt k))

end Followed

section Mean

theorem total_near {samples : List Sample} (near : ∀ sample ∈ samples, |sample.sensorTheta - phi| ≤ delta) :
    |total samples - samples.length * phi| ≤ samples.length * delta := by
  induction samples with
  | nil => simp [total]
  | cons sample samples ih =>
    have first := near sample List.mem_cons_self
    have rest := ih fun other mem => near other (List.mem_cons_of_mem sample mem)
    have split : total (sample :: samples) - (sample :: samples).length * phi =
        (sample.sensorTheta - phi) + (total samples - samples.length * phi) := by
      simp only [total, List.map_cons, List.sum_cons, List.length_cons]
      push_cast
      ring
    rw [split]
    refine (abs_add_le _ _).trans ?_
    rw [List.length_cons]
    push_cast
    linarith

/-- The offset that a calibration has stored, and the samples that it took. -/
theorem offset_stored (ready : (after (zeroed c pll) r n).lo.eState = .ready) :
    (after (zeroed c pll) r n).lo.samples = caliSamples c.bare (zeroed c pll).sensor r ∧
      (after (zeroed c pll) r n).cfg.thetaOffset =
        total (after (zeroed c pll) r n).lo.samples / (allTurns c % 2 ^ 32 : Nat) := by
  have left := (zeroed_primed c pll).left ready
  have samples : (after (zeroed c pll) r n).lo.samples = caliSamples c.bare (zeroed c pll).sensor r := left.samples
  refine ⟨samples, ?_⟩
  rw [left.cfg, samples]
  change (0 + total (caliSamples c.bare (zeroed c pll).sensor r)) / (allTurns c % 2 ^ 32 : Nat) = _
  rw [zero_add]

/-- The last number of pole pairs is the only one for which the count of the turns wraps. -/
theorem allTurns_narrow (npp : c.npp.toNat ≠ 2 ^ 32 - 1) : allTurns c % 2 ^ 32 = allTurns c := by
  have bound := c.npp.isLt
  unfold allTurns cwTurns ccwTurns
  split <;> omega

theorem allTurns_wide (npp : c.npp.toNat = 2 ^ 32 - 1) : allTurns c = 2 ^ 33 - 2 := by
  unfold allTurns cwTurns ccwTurns
  rw [npp]
  decide

theorem allTurns_two_le : 2 ≤ allTurns c := by
  unfold allTurns cwTurns ccwTurns
  split <;> omega

end Mean

section Law

/-- The sample is the true offset with a deviation, wrapped. -/
def Deviates (delta phi : ℚ) (sample : Sample) : Prop := ∃ e, |e| ≤ delta ∧ sample.sensorTheta = place tau (phi + e)

/-- `x` is `phi` up to `delta`, on the circle. -/
def Approximates (delta phi x : ℚ) : Prop := ∃ k : ℤ, |x - phi - k * tau| ≤ delta

/-- Whatever the readings are, the offset is as good as the samples. -/
def OffsetLaw (c : FocCfg) (pll : PllCfg) (delta phi : ℚ) : Prop :=
  ∀ r n, (after (zeroed c pll) r n).lo.eState = .ready →
    (∀ sample ∈ (after (zeroed c pll) r n).lo.samples, Deviates delta phi sample) →
    Approximates delta phi (after (zeroed c pll) r n).cfg.thetaOffset

/-- No sample can be cut off from the others, and the sum is divided by their number. -/
def Uncut (delta phi : ℚ) : Prop := delta ≤ phi ∧ phi + delta < tau

theorem Deviates.near {sample : Sample} (deviates : Deviates delta phi sample) (uncut : Uncut delta phi) :
    |sample.sensorTheta - phi| ≤ delta := by
  obtain ⟨e, small, sensor⟩ := deviates
  obtain ⟨lower, upper⟩ := abs_le.mp small
  obtain ⟨above, below⟩ := uncut
  have whole := Winding.place_eq (m := 0) (x := phi + e) tau_pos (by simp; linarith) (by simp; linarith)
  rw [sensor, whole]
  simpa using small

theorem offset_uncut (npp : c.npp.toNat ≠ 2 ^ 32 - 1) (uncut : Uncut delta phi) : OffsetLaw c pll delta phi := by
  intro r n ready deviate
  obtain ⟨samples, offset⟩ := offset_stored ready
  have length : (after (zeroed c pll) r n).lo.samples.length = allTurns c := by
    rw [samples]
    exact caliSamples_length
  have near := total_near fun sample mem => (deviate sample mem).near uncut
  have some : (0 : ℚ) < allTurns c := Nat.cast_pos.mpr (Nat.lt_of_lt_of_le Nat.two_pos allTurns_two_le)
  rw [allTurns_narrow npp] at offset
  rw [length] at near
  refine ⟨0, ?_⟩
  have mean : (after (zeroed c pll) r n).cfg.thetaOffset - phi - (0 : ℤ) * tau =
      (total (after (zeroed c pll) r n).lo.samples - allTurns c * phi) / allTurns c := by
    rw [offset, sub_div, mul_div_cancel_left₀ _ some.ne']
    simp
  rw [mean, abs_div, abs_of_pos some, div_le_iff₀ some]
  linarith

/-- What the law says about samples of which the first ones are `a` and the others `b`. -/
theorem OffsetLaw.mixed (law : OffsetLaw c pll delta phi) (npp : 1 ≤ c.npp.toNat) (pos : 0 < inc c) {a b e e' : ℚ}
    (a_eq : a = place tau (phi + e)) (b_eq : b = place tau (phi + e')) (small : |e| ≤ delta) (small' : |e'| ≤ delta)
    (le : m ≤ allTurns c) :
    Approximates delta phi ((m * a + (allTurns c - m : Nat) * b) / (allTurns c % 2 ^ 32 : Nat)) := by
  obtain ⟨y, y_eq⟩ : ∃ y : Nat → ℚ, y = fun k => if k < sampleAt c.bare m then a else b := ⟨_, rfl⟩
  have either (k : Nat) : ∃ e, |e| ≤ delta ∧ y k = place tau (phi + e) := by
    rw [y_eq]
    dsimp only
    split
    · exact ⟨e, small, a_eq⟩
    · exact ⟨e', small', b_eq⟩
  have nonneg (k : Nat) : 0 ≤ y k := by
    obtain ⟨e, _, wrapped⟩ := either k
    rw [wrapped]
    exact Winding.place_nonneg tau_pos
  have lt (k : Nat) : y k < tau := by
    obtain ⟨e, _, wrapped⟩ := either k
    rw [wrapped]
    exact Winding.place_lt tau_pos
  obtain ⟨r, r_eq⟩ : ∃ r, r = followed c.bare y (zeroed c pll).sensor := ⟨_, rfl⟩
  have seen (k : Nat) : angleAt c.bare (zeroed c pll).sensor r k = y k := by
    have npp' : 1 ≤ c.bare.npp.toNat := npp
    rw [r_eq]
    exact angleAt_followed npp' nonneg lt k
  have ready : (after (zeroed c pll) r (allCalls c.bare)).lo.eState = .ready :=
    ((zeroed_primed c pll).ready_iff pos).mpr (Nat.le_refl _)
  obtain ⟨samples, offset⟩ := offset_stored ready
  have sum : total (caliSamples c.bare (zeroed c pll).sensor r) = m * a + (allTurns c - m : Nat) * b := by
    have turns : allTurns c.bare = m + (allTurns c - m) := (Nat.add_sub_cancel' le).symm
    have early (i : Nat) (before : i ∈ range m) : y (sampleAt c.bare i) = a := by
      rw [y_eq]
      exact if_pos (sampleAt_strictMono (Finset.mem_range.mp before))
    have late (i : Nat) (_ : i ∈ range (allTurns c - m)) : y (sampleAt c.bare (m + i)) = b := by
      rw [y_eq]
      exact if_neg (not_lt.mpr (sampleAt_strictMono.monotone (Nat.le_add_right m i)))
    rw [total_caliSamples, Finset.sum_congr rfl fun i _ => seen (sampleAt c.bare i), turns, Finset.sum_range_add,
      Finset.sum_congr rfl early, Finset.sum_congr rfl late]
    simp
  have near := law r (allCalls c.bare) ready ?_
  · rwa [offset, samples, sum] at near
  · intro sample mem
    rw [samples] at mem
    obtain ⟨k, sensor⟩ : ∃ k, sample.sensorTheta = angleAt c.bare (zeroed c pll).sensor r k := by
      rcases List.mem_append.mp mem with cw | ccw
      · obtain ⟨j, _, rfl⟩ := List.mem_map.mp cw
        exact ⟨_, rfl⟩
      · obtain ⟨j, _, rfl⟩ := List.mem_map.mp ccw
        exact ⟨_, rfl⟩
    obtain ⟨e, small, wrapped⟩ := either k
    exact ⟨e, small, by rw [sensor, seen, wrapped]⟩

/-- A distance between the bounds is no multiple of a turn up to `delta`. -/
theorem between_turns (lower : delta < x) (upper : x < tau - delta) (k : ℤ) : ¬|x - k * tau| ≤ delta := by
  have pos := tau_pos
  intro near
  obtain ⟨low, high⟩ := abs_le.mp near
  have less := Winding.multiple_lt (m := k) pos (by linarith)
  have more := Winding.multiple_lt (m := -k) pos (by push_cast; linarith)
  obtain rfl : k = 0 := by omega
  simp at high
  linarith

/-- About half of the samples on the other side of the cut move the mean too far. -/
theorem offset_cut (npp : 1 ≤ c.npp.toNat) (pos : 0 < inc c) (narrow : c.npp.toNat ≠ 2 ^ 32 - 1) (phi_nonneg : 0 ≤ phi)
    (phi_lt : phi < tau) (nonneg : 0 ≤ delta) (lt : delta < tau / 8) (cut : ¬Uncut delta phi) :
    ¬OffsetLaw c pll delta phi := by
  intro law
  have turn := tau_pos
  have two := allTurns_two_le (c := c)
  obtain ⟨m, half⟩ : ∃ m, m = allTurns c / 2 := ⟨_, rfl⟩
  have le : m ≤ allTurns c := by omega
  have some : (0 : ℚ) < allTurns c := Nat.cast_pos.mpr (by omega)
  obtain ⟨w, w_eq⟩ : ∃ w : ℚ, w = m / allTurns c := ⟨_, rfl⟩
  have third : 1 / 3 ≤ w := by
    rw [w_eq, le_div_iff₀ some]
    have third : (allTurns c : ℚ) ≤ 3 * m := by exact_mod_cast (show allTurns c ≤ 3 * m by omega)
    linarith
  have part : w < 1 := by
    rw [w_eq, div_lt_one some]
    exact_mod_cast (show m < allTurns c by omega)
  have lower : delta < w * (tau - delta) := by nlinarith
  have upper : w * (tau - delta) < tau - delta := by nlinarith
  have weighted (a : ℚ) : (m * a + (allTurns c - m : Nat) * phi) / allTurns c = w * (a - phi) + phi := by
    rw [w_eq, Nat.cast_sub le]
    field_simp
    ring
  have still : phi = place tau (phi + 0) := by
    rw [add_zero, Winding.place_eq (m := 0) turn (by simpa using phi_nonneg) (by simpa using phi_lt)]
    simp
  have zero : |(0 : ℚ)| ≤ delta := by simpa using nonneg
  by_cases low : delta ≤ phi
  · have high : tau ≤ phi + delta := not_lt.mp fun high => cut ⟨low, high⟩
    have wrapped := Winding.place_eq (m := 1) (x := phi + delta) turn (by push_cast; linarith) (by push_cast; linarith)
    obtain ⟨k, near⟩ := law.mixed npp pos wrapped.symm still (le_of_eq (abs_of_nonneg nonneg)) zero le
    rw [allTurns_narrow narrow, weighted] at near
    refine between_turns lower upper (-k) ?_
    rw [abs_sub_comm]
    convert near using 2
    push_cast
    ring
  · have wrapped := Winding.place_eq (m := -1) (x := phi + -delta) turn (by push_cast; linarith) (by push_cast; linarith)
    obtain ⟨k, near⟩ := law.mixed npp pos wrapped.symm still (by rw [abs_neg, abs_of_nonneg nonneg]) zero le
    rw [allTurns_narrow narrow, weighted] at near
    refine between_turns lower upper k ?_
    convert near using 2
    push_cast
    ring

/-- Without deviations, the offset is right in two places. -/
theorem approximates_wide (phi_nonneg : 0 ≤ phi) (phi_lt : phi < tau) :
    Approximates 0 phi (phi * (2 ^ 32 - 1) / (2 ^ 31 - 1)) ↔ phi = 0 ∨ phi * 2 ^ 31 = tau * (2 ^ 31 - 1) := by
  have turn := tau_pos
  have eq (k : ℤ) : phi * (2 ^ 32 - 1) / (2 ^ 31 - 1) - phi - k * tau = 0 ↔ phi * 2 ^ 31 = k * (tau * (2 ^ 31 - 1)) := by
    constructor
    · intro zero
      linarith
    · intro same
      linarith
  simp only [Approximates, abs_nonpos_iff, eq]
  constructor
  · rintro ⟨k, same⟩
    have less := Winding.multiple_lt (m := k - 1) turn (by push_cast; linarith)
    have more := Winding.multiple_lt (m := -k) turn (by push_cast; linarith)
    obtain rfl | rfl : k = 0 ∨ k = 1 := by omega
    · left
      simpa using same
    · right
      simpa using same
  · rintro (rfl | same)
    · exact ⟨0, by simp⟩
    · exact ⟨1, by simpa using same⟩

section Wide
variable (wide : c.npp.toNat = 2 ^ 32 - 1)
include wide

/-- The sum over all turns, divided by the count that has wrapped. -/
theorem mean_wide (x : ℚ) : allTurns c * x / (allTurns c % 2 ^ 32 : Nat) = x * (2 ^ 32 - 1) / (2 ^ 31 - 1) := by
  rw [allTurns_wide wide]
  push_cast
  ring

theorem OffsetLaw.doubled (law : OffsetLaw c pll delta phi) (pos : 0 < inc c) {e : ℚ} (small : |e| ≤ delta)
    (whole : place tau (phi + e) = phi + e) : Approximates delta phi ((phi + e) * (2 ^ 32 - 1) / (2 ^ 31 - 1)) := by
  have some : 1 ≤ c.npp.toNat := by omega
  have mixed := law.mixed some pos whole.symm whole.symm small small (Nat.zero_le (allTurns c))
  rwa [Nat.cast_zero, zero_mul, zero_add, Nat.sub_zero, mean_wide wide] at mixed

/-- The quotient is more than twice the mean, so two means cannot both be near. -/
theorem OffsetLaw.exact_wide (law : OffsetLaw c pll delta phi) (pos : 0 < inc c) (phi_nonneg : 0 ≤ phi)
    (phi_lt : phi < tau) (nonneg : 0 ≤ delta) (lt : delta < tau / 8) : delta = 0 := by
  by_contra nonzero
  have turn := tau_pos
  have some : 0 < delta := lt_of_le_of_ne nonneg (Ne.symm nonzero)
  have zero : |(0 : ℚ)| ≤ delta := by simpa using nonneg
  obtain ⟨k, near⟩ := law.doubled wide pos zero
    (by rw [Winding.place_eq (m := 0) turn (by simpa using phi_nonneg) (by simpa using phi_lt)]; simp)
  have apart : ∃ m : ℤ, |delta * (2 ^ 32 - 1) / (2 ^ 31 - 1) - m * tau| ≤ 2 * delta := by
    by_cases low : delta ≤ phi
    · obtain ⟨k', near'⟩ := law.doubled wide pos (e := -delta) (by rw [abs_neg, abs_of_nonneg nonneg])
        (by rw [Winding.place_eq (m := 0) turn (by simp; linarith) (by simp; linarith)]; simp)
      refine ⟨k - k', ?_⟩
      rw [show delta * (2 ^ 32 - 1) / (2 ^ 31 - 1) - (k - k' : ℤ) * tau =
          ((phi + 0) * (2 ^ 32 - 1) / (2 ^ 31 - 1) - phi - k * tau) -
            ((phi + -delta) * (2 ^ 32 - 1) / (2 ^ 31 - 1) - phi - k' * tau) by push_cast; ring]
      exact (abs_sub _ _).trans (by linarith)
    · obtain ⟨k', near'⟩ := law.doubled wide pos (e := delta) (le_of_eq (abs_of_nonneg nonneg))
        (by rw [Winding.place_eq (m := 0) turn (by simp; linarith) (by simp; linarith)]; simp)
      refine ⟨k' - k, ?_⟩
      rw [show delta * (2 ^ 32 - 1) / (2 ^ 31 - 1) - (k' - k : ℤ) * tau =
          ((phi + delta) * (2 ^ 32 - 1) / (2 ^ 31 - 1) - phi - k' * tau) -
            ((phi + 0) * (2 ^ 32 - 1) / (2 ^ 31 - 1) - phi - k * tau) by push_cast; ring]
      exact (abs_sub _ _).trans (by linarith)
  obtain ⟨m, near⟩ := apart
  exact between_turns (by linarith) (by linarith) m near

theorem offset_wide (phi_nonneg : 0 ≤ phi) (phi_lt : phi < tau)
    (exact : phi = 0 ∨ phi * 2 ^ 31 = tau * (2 ^ 31 - 1)) : OffsetLaw c pll 0 phi := by
  intro r n ready deviate
  obtain ⟨samples, offset⟩ := offset_stored ready
  have uncut : Uncut 0 phi := ⟨phi_nonneg, by simpa using phi_lt⟩
  have length : (after (zeroed c pll) r n).lo.samples.length = allTurns c := by
    rw [samples]
    exact caliSamples_length
  have near := total_near fun sample mem => (deviate sample mem).near uncut
  rw [mul_zero, abs_nonpos_iff, sub_eq_zero, length] at near
  rw [offset, near, mean_wide wide]
  exact (approximates_wide phi_nonneg phi_lt).mpr exact

end Wide

/-- Where a calibration ends at all, its offset is as good as the samples just when no deviation
reaches the cut of the circle and the count of the samples does not wrap; if that wraps, only
in two places and without deviations. -/
theorem offset_law (npp : 1 ≤ c.npp.toNat) (phi_nonneg : 0 ≤ phi) (phi_lt : phi < tau) (nonneg : 0 ≤ delta)
    (lt : delta < tau / 8) :
    OffsetLaw c pll delta phi ↔ (0 < inc c →
      (c.npp.toNat ≠ 2 ^ 32 - 1 ∧ delta ≤ phi ∧ phi + delta < tau) ∨
      (c.npp.toNat = 2 ^ 32 - 1 ∧ delta = 0 ∧ (phi = 0 ∨ phi * 2 ^ 31 = tau * (2 ^ 31 - 1)))) := by
  constructor
  · intro law pos
    by_cases wide : c.npp.toNat = 2 ^ 32 - 1
    · obtain rfl := law.exact_wide wide pos phi_nonneg phi_lt nonneg lt
      have whole : place tau (phi + 0) = phi + 0 := by
        rw [Winding.place_eq (m := 0) tau_pos (by simpa using phi_nonneg) (by simpa using phi_lt)]
        simp
      have near := law.doubled wide pos (by simp) whole
      rw [add_zero] at near
      exact .inr ⟨wide, rfl, (approximates_wide phi_nonneg phi_lt).mp near⟩
    · refine .inl ⟨wide, ?_⟩
      by_contra cut
      exact offset_cut npp pos wide phi_nonneg phi_lt nonneg lt cut law
  · intro holds r n ready
    rcases holds ((zeroed_primed c pll).climbs ready) with ⟨narrow, uncut⟩ | ⟨wide, rfl, exact⟩
    · exact offset_uncut narrow uncut r n ready
    · exact offset_wide wide phi_nonneg phi_lt exact r n ready

/-- A tenth of a radian around one radian. -/
theorem offset_law_seven :
    OffsetLaw (motor 7) motorPll 0.1 1 ↔ (0 < inc (motor 7) →
      ((motor 7).npp.toNat ≠ 2 ^ 32 - 1 ∧ (0.1 : ℚ) ≤ 1 ∧ (1 : ℚ) + 0.1 < tau) ∨
      ((motor 7).npp.toNat = 2 ^ 32 - 1 ∧ (0.1 : ℚ) = 0 ∧ ((1 : ℚ) = 0 ∨ (1 : ℚ) * 2 ^ 31 = tau * (2 ^ 31 - 1)))) :=
  offset_law (by decide) (by norm_num) (by norm_num [tau]) (by norm_num) (by norm_num [tau])

/-- With the rotor at the zero mark, half of the angles are close to a full turn. -/
theorem offset_cut_seven : ¬OffsetLaw (motor 7) motorPll 0.1 0 :=
  offset_cut (by decide) motor_inc (by decide) (le_refl 0) tau_pos (by norm_num) (by norm_num [tau])
    fun uncut => absurd uncut.1 (by norm_num)

end Law

end AvaModule.FocDrive
