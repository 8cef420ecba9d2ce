import AvaModule.Filter.Pll
import AvaModule.Lib.PhaseLoop
import AvaModule.Util.Warp

/-! filter/pll.h on an angle that moves at one speed. -/
namespace AvaModule
open PhaseLoop

variable {pll : Pll} {theta : Nat → ℚ} {x y omega : ℚ} {n : Nat}

/-- The filter after a number of calls, each with its own angle. -/
def pllAfter (pll : Pll) (theta : Nat → ℚ) : Nat → Pll
  | 0 => pll
  | n + 1 => pllExecThetaIn (pllAfter pll theta n) (theta n)

/-- The gains are those of `pll_init`. -/
structure PllTuned (pll : Pll) : Prop where
  kp : pll.cfg.kp = 2 * pll.cfg.wc * pll.cfg.damp
  ki : pll.cfg.ki = pll.cfg.wc * pll.cfg.wc

/-- What the next call finds: how far the phase is off, and how far the integrator is from the speed. -/
def lockErr (pll : Pll) (theta omega : ℚ) : Err ℚ :=
  ⟨warpPi (theta - pll.theta), (pll.kiOut - omega) / pll.cfg.wc⟩

/-- Between `-PI` and `PI` there is one angle of each kind. -/
theorem warpPi_eq (low : -pi ≤ y) (high : y ≤ pi) (turns : ∃ m : ℤ, x = y + m * tau) : warpPi x = y := by
  obtain ⟨m, rfl⟩ := turns
  have clear : ∀ k : ℤ, ¬InGap (y + m * tau + k * tau) := by
    intro k
    have moved : y + m * tau + k * tau = y + (m + k : ℤ) * tau := by
      push_cast
      ring
    exact moved ▸ not_inGap_of_range low high (m + k)
  obtain ⟨low', high'⟩ := warpPi_range_iff.mpr clear
  obtain ⟨k, turned⟩ := warpPi_turns (y + m * tau)
  have apart : warpPi (y + m * tau) - y = (m + k : ℤ) * tau := by
    rw [turned]
    push_cast
    ring
  have long := two_pi_lt_tau
  have none : m + k = 0 := by
    rcases lt_trichotomy (m + k) 0 with lt | eq | gt
    · have turns : (m + k : ℤ) * tau ≤ (-1 : ℤ) * tau :=
        mul_le_mul_of_nonneg_right (by exact_mod_cast Int.le_sub_one_of_lt lt) tau_pos.le
      push_cast at turns apart
      linarith
    · exact eq
    · have turns : (1 : ℤ) * tau ≤ (m + k : ℤ) * tau :=
        mul_le_mul_of_nonneg_right (by exact_mod_cast Int.add_one_le_of_lt gt) tau_pos.le
      push_cast at turns apart
      linarith
  rw [none, Int.cast_zero, zero_mul] at apart
  linarith

/-- What a call leaves of the configuration, and the equations of the loop. -/
structure PllTurn (pll next : Pll) (theta : ℚ) : Prop where
  fs : next.cfg.fs = pll.cfg.fs
  wc : next.cfg.wc = pll.cfg.wc
  damp : next.cfg.damp = pll.cfg.damp
  tuned : PllTuned next
  err : next.thetaErr = warpPi (theta - pll.theta)
  kiOut : next.kiOut = pll.kiOut + pll.cfg.wc * pll.cfg.wc * next.thetaErr / pll.cfg.fs
  omega : next.omega = 2 * pll.cfg.wc * pll.cfg.damp * next.thetaErr + next.kiOut
  theta : next.theta = warpTau (pll.theta + next.omega / pll.cfg.fs)

theorem pllExecThetaIn_turned (tuned : PllTuned pll) (theta : ℚ) : PllTurn pll (pllExecThetaIn pll theta) theta := by
  obtain ⟨kp, ki⟩ := tuned
  simp only [pllExecThetaIn, pllExec]
  split
  · exact ⟨rfl, rfl, rfl, ⟨rfl, rfl⟩, rfl, rfl, rfl, by simp only [pllInit, integrator, one_mul]⟩
  · exact ⟨rfl, rfl, rfl, ⟨kp, ki⟩, rfl, by simp only [integrator, ki], by simp only [integrator, kp],
      by simp only [integrator, one_mul]⟩

section Ramp
variable {next : Pll} {theta₀ theta₁ : ℚ}

/-- While the phase stays within half a turn, its errors follow the loop. -/
theorem PllTurn.lockErr (turned : PllTurn pll next theta₀) (wc : 0 < pll.cfg.wc)
    (ramp : ∃ m : ℤ, theta₁ = theta₀ + omega / pll.cfg.fs + m * tau)
    (near : |(PhaseLoop.next pll.cfg.damp (pll.cfg.wc / pll.cfg.fs) (lockErr pll theta₀ omega)).e| ≤ pi) :
    lockErr next theta₁ omega = PhaseLoop.next pll.cfg.damp (pll.cfg.wc / pll.cfg.fs) (lockErr pll theta₀ omega) := by
  have nonzero := wc.ne'
  obtain ⟨low, high⟩ := abs_le.mp near
  have phase : warpPi (theta₁ - next.theta) =
      (PhaseLoop.next pll.cfg.damp (pll.cfg.wc / pll.cfg.fs) (AvaModule.lockErr pll theta₀ omega)).e := by
    refine warpPi_eq low high ?_
    obtain ⟨m, rfl⟩ := ramp
    obtain ⟨_, _, k, wrapped⟩ := warpTau_spec (pll.theta + next.omega / pll.cfg.fs)
    obtain ⟨j, err⟩ := warpPi_turns (theta₀ - pll.theta)
    refine ⟨m - k - j, ?_⟩
    simp only [PhaseLoop.next, AvaModule.lockErr]
    rw [turned.theta, wrapped, turned.omega, turned.kiOut, turned.err, err]
    push_cast
    field_simp
    ring
  have speed : (next.kiOut - omega) / next.cfg.wc =
      (PhaseLoop.next pll.cfg.damp (pll.cfg.wc / pll.cfg.fs) (AvaModule.lockErr pll theta₀ omega)).y := by
    simp only [PhaseLoop.next, AvaModule.lockErr]
    rw [turned.wc, turned.kiOut, turned.err]
    field_simp
    ring
  rw [AvaModule.lockErr, phase, speed]

variable (pos : 0 < pll.cfg.fs ∧ 0 < pll.cfg.wc ∧ 0 < pll.cfg.damp)
  (stable : pll.cfg.wc / pll.cfg.fs * (pll.cfg.damp + pll.cfg.damp + pll.cfg.wc / pll.cfg.fs) ≤ 1)
include pos stable

/-- An energy that is small enough keeps the phase within half a turn. -/
theorem phase_near {s : Err ℚ} (low : energy pll.cfg.damp (pll.cfg.wc / pll.cfg.fs) s ≤
    (1 - cross pll.cfg.damp (pll.cfg.wc / pll.cfg.fs)) * (pi * pi)) : |s.e| ≤ pi := by
  obtain ⟨fs, wc, damp⟩ := pos
  have turn := div_pos wc fs
  have share : 0 < 1 - cross pll.cfg.damp (pll.cfg.wc / pll.cfg.fs) := sub_pos.mpr (cross_lt damp turn stable)
  have bound := le_of_mul_le_mul_left ((energy_lower damp turn).trans low) share
  exact abs_le_of_sq_le_sq (by nlinarith [mul_self_nonneg s.y]) pi_pos.le

/-- While the energy is that small, the wrap of the angle does not show in the errors. -/
theorem PllTurn.follows (turned : PllTurn pll next theta₀)
    (ramp : ∃ m : ℤ, theta₁ = theta₀ + omega / pll.cfg.fs + m * tau)
    (low : energy pll.cfg.damp (pll.cfg.wc / pll.cfg.fs) (AvaModule.lockErr pll theta₀ omega) ≤
      (1 - cross pll.cfg.damp (pll.cfg.wc / pll.cfg.fs)) * (pi * pi)) :
    AvaModule.lockErr next theta₁ omega =
      PhaseLoop.next pll.cfg.damp (pll.cfg.wc / pll.cfg.fs) (AvaModule.lockErr pll theta₀ omega) := by
  have turn := div_pos pos.2.1 pos.1
  have falls := energy_falls pos.2.2 turn stable (s := AvaModule.lockErr pll theta₀ omega)
  have nonneg := energy_nonneg pos.2.2 turn stable (s := AvaModule.lockErr pll theta₀ omega)
  have less := mul_le_of_le_one_left nonneg (rate_lt_one pos.2.2 turn stable).le
  exact turned.lockErr pos.2.1 ramp (phase_near pos stable (falls.trans (less.trans low)))

end Ramp

/-- A filter that some calls have left: it has the rates and the gains of the first one. -/
structure PllLeft (pll after : Pll) : Prop where
  fs : after.cfg.fs = pll.cfg.fs
  wc : after.cfg.wc = pll.cfg.wc
  damp : after.cfg.damp = pll.cfg.damp
  tuned : PllTuned after

section Locking
variable (pos : 0 < pll.cfg.fs ∧ 0 < pll.cfg.wc ∧ 0 < pll.cfg.damp) (tuned : PllTuned pll)
  (stable : pll.cfg.wc / pll.cfg.fs * (pll.cfg.damp + pll.cfg.damp + pll.cfg.wc / pll.cfg.fs) ≤ 1)
  (ramp : ∀ n, ∃ m : ℤ, theta (n + 1) = theta n + omega / pll.cfg.fs + m * tau)
  (near : energy pll.cfg.damp (pll.cfg.wc / pll.cfg.fs) (lockErr pll (theta 0) omega) ≤
    (1 - cross pll.cfg.damp (pll.cfg.wc / pll.cfg.fs)) * (pi * pi))
include pos stable

theorem PllLeft.follows {after : Pll} {theta₀ theta₁ : ℚ} (left : PllLeft pll after)
    (ramp : ∃ m : ℤ, theta₁ = theta₀ + omega / pll.cfg.fs + m * tau)
    (low : energy pll.cfg.damp (pll.cfg.wc / pll.cfg.fs) (lockErr after theta₀ omega) ≤
      (1 - cross pll.cfg.damp (pll.cfg.wc / pll.cfg.fs)) * (pi * pi)) :
    PllLeft pll (pllExecThetaIn after theta₀) ∧ lockErr (pllExecThetaIn after theta₀) theta₁ omega =
      PhaseLoop.next pll.cfg.damp (pll.cfg.wc / pll.cfg.fs) (lockErr after theta₀ omega) := by
  have turned := pllExecThetaIn_turned left.tuned theta₀
  rw [← left.fs, ← left.wc, ← left.damp] at low pos stable
  rw [← left.fs] at ramp
  have follows := turned.follows pos stable ramp low
  rw [left.fs, left.wc, left.damp] at follows
  exact ⟨⟨turned.fs.trans left.fs, turned.wc.trans left.wc, turned.damp.trans left.damp, turned.tuned⟩, follows⟩

include tuned ramp near

/-- After any number of calls the energy is within its share of that of the start, and so small enough to go on. -/
theorem pllAfter_left (n : Nat) :
    PllLeft pll (pllAfter pll theta n) ∧
      energy pll.cfg.damp (pll.cfg.wc / pll.cfg.fs) (lockErr (pllAfter pll theta n) (theta n) omega) ≤
        rate pll.cfg.damp (pll.cfg.wc / pll.cfg.fs) ^ n *
          energy pll.cfg.damp (pll.cfg.wc / pll.cfg.fs) (lockErr pll (theta 0) omega) ∧
      energy pll.cfg.damp (pll.cfg.wc / pll.cfg.fs) (lockErr (pllAfter pll theta n) (theta n) omega) ≤
        (1 - cross pll.cfg.damp (pll.cfg.wc / pll.cfg.fs)) * (pi * pi) := by
  have turn := div_pos pos.2.1 pos.1
  have nonneg := rate_nonneg pos.2.2 turn stable
  have start := energy_nonneg pos.2.2 turn stable (s := lockErr pll (theta 0) omega)
  induction n with
  | zero =>
    refine ⟨⟨rfl, rfl, rfl, tuned⟩, ?_, near⟩
    rw [pow_zero, one_mul]
    exact le_rfl
  | succ n ih =>
    obtain ⟨left, fallen, low⟩ := ih
    obtain ⟨left', follows⟩ := left.follows pos stable (ramp n) low
    have falls := energy_falls pos.2.2 turn stable (s := lockErr (pllAfter pll theta n) (theta n) omega)
    rw [← follows] at falls
    have fallen' := falls.trans (mul_le_mul_of_nonneg_left fallen nonneg)
    rw [← mul_assoc, ← pow_succ'] at fallen'
    have power := pow_le_one₀ nonneg (rate_lt_one pos.2.2 turn stable).le (n := n + 1)
    exact ⟨left', fallen', fallen'.trans ((mul_le_of_le_one_left start power).trans near)⟩

/-- A loop that is sampled fast enough, on an angle that moves at one speed, pulls in from every start that is near
enough: its two errors follow the equations of the loop and never meet the wrap of the angle, the energy falls by the
same factor with every call, and the squares of the errors are below what is left of it. -/
theorem pll_locks (n : Nat) :
    let after := pllAfter pll theta n
    let err := fun k => lockErr (pllAfter pll theta k) (theta k) omega
    let share := 1 - cross pll.cfg.damp (pll.cfg.wc / pll.cfg.fs)
    let factor := rate pll.cfg.damp (pll.cfg.wc / pll.cfg.fs)
    0 < share ∧ 0 ≤ factor ∧ factor < 1 ∧
      |warpPi (theta n - after.theta)| ≤ pi ∧
      err (n + 1) = PhaseLoop.next pll.cfg.damp (pll.cfg.wc / pll.cfg.fs) (err n) ∧
      energy pll.cfg.damp (pll.cfg.wc / pll.cfg.fs) (err (n + 1)) ≤
        factor * energy pll.cfg.damp (pll.cfg.wc / pll.cfg.fs) (err n) ∧
      share * (warpPi (theta n - after.theta) ^ 2 + ((after.kiOut - omega) / pll.cfg.wc) ^ 2) ≤
        factor ^ n * energy pll.cfg.damp (pll.cfg.wc / pll.cfg.fs) (lockErr pll (theta 0) omega) := by
  intro after err share factor
  have turn := div_pos pos.2.1 pos.1
  obtain ⟨left, fallen, low⟩ := pllAfter_left pos tuned stable ramp near n
  have follows : err (n + 1) = PhaseLoop.next pll.cfg.damp (pll.cfg.wc / pll.cfg.fs) (err n) :=
    (left.follows pos stable (ramp n) low).2
  have falls := energy_falls pos.2.2 turn stable (s := err n)
  rw [← follows] at falls
  have within : |warpPi (theta n - after.theta)| ≤ pi := by
    have phase := phase_near pos stable low
    rw [lockErr] at phase
    exact phase
  have lower := energy_lower pos.2.2 turn (s := lockErr after (theta n) omega)
  rw [lockErr, left.wc, ← sq, ← sq] at lower
  rw [lockErr, left.wc] at fallen
  exact ⟨sub_pos.mpr (cross_lt pos.2.2 turn stable), rate_nonneg pos.2.2 turn stable, rate_lt_one pos.2.2 turn stable,
    within, follows, falls, lower.trans fallen⟩

end Locking

/-- A thousand samples a second, and a loop that starts at rest. -/
def slowPll : Pll :=
  ⟨⟨1000, 100, 0.5, 10, 5, 100, 10000⟩, 0, 0, 0, 0, ⟨1000, 100, 0.5, 10, 5, 100, 10000⟩, 0, 0, 0, 0, 0⟩

theorem pll_locks_slow :
    (1 - cross 0.5 0.1) * (warpPi (3 / 1000 - (pllAfter slowPll (fun n => n / 1000) 3).theta) ^ 2 +
        (((pllAfter slowPll (fun n => n / 1000) 3).kiOut - 1) / 100) ^ 2) ≤
      rate 0.5 0.1 ^ 3 * energy 0.5 0.1 (lockErr slowPll 0 1) := by
  have ratio : slowPll.cfg.wc / slowPll.cfg.fs = 0.1 := by norm_num [slowPll]
  have damp : slowPll.cfg.damp = 0.5 := rfl
  have stable : slowPll.cfg.wc / slowPll.cfg.fs *
      (slowPll.cfg.damp + slowPll.cfg.damp + slowPll.cfg.wc / slowPll.cfg.fs) ≤ 1 := by
    norm_num [ratio, damp]
  have ramp : ∀ n : Nat, ∃ m : ℤ, ((n + 1 : Nat) : ℚ) / 1000 = (n : ℚ) / 1000 + 1 / slowPll.cfg.fs + m * tau := by
    refine fun n => ⟨0, ?_⟩
    push_cast [slowPll]
    ring
  have near : energy slowPll.cfg.damp (slowPll.cfg.wc / slowPll.cfg.fs) (lockErr slowPll ((0 : Nat) / 1000) 1) ≤
      (1 - cross slowPll.cfg.damp (slowPll.cfg.wc / slowPll.cfg.fs)) * (pi * pi) := by
    have still : warpPi 0 = 0 := by norm_num [warpPi, pi, tau]
    norm_num [ratio, damp, energy, cross, lockErr, slowPll, still, pi]
  have pos : 0 < slowPll.cfg.fs ∧ 0 < slowPll.cfg.wc ∧ 0 < slowPll.cfg.damp := by norm_num [slowPll]
  have tuned : PllTuned slowPll := ⟨by norm_num [slowPll], by norm_num [slowPll]⟩
  have locked := (@pll_locks slowPll (fun n => n / 1000) 1 pos tuned stable ramp near 3).2.2.2.2.2.2
  rw [ratio, damp] at locked
  norm_num at locked ⊢
  exact locked

end AvaModule
