import AvaModule.Foc.First

/-! A second calibration of the same `foc_t`: when it stores what the first one would have
stored on the same readings. -/
namespace AvaModule.FocDrive
open Finset (range)

variable {s s₀ z : Foc} {c c' : FocCfg} {pll : PllCfg} {r r' : Nat → Reading} {sensor sensor' : Sensor}
  {i k n : Nat} {sum : ℚ}

section Still

/-- A sensor that has only seen the angle 0. -/
structure Sensor.Still (sensor : Sensor) : Prop where
  theta : sensor.pll.theta = 0
  kiOut : sensor.pll.kiOut = 0
  lpfOmega : sensor.pll.lpfOmega = 0
  omega : sensor.omega = 0

theorem warpPi_zero : warpPi 0 = 0 := by
  norm_num [warpPi, pi, tau]

/-- Without pole pairs every angle is 0. -/
theorem quiet_of_none (none : c.npp = 0) (theta : ℚ) : theta * c.npp.toNat = 0 := by
  rw [none]
  exact mul_zero _

variable (offset : c.thetaOffset = 0)
include offset

theorem Sensor.Still.angle (still : sensor.Still) {theta : ℚ} (quiet : theta * c.npp.toNat = 0) :
    sensor.angle c theta = 0 := by
  rw [Sensor.angle, quiet, offset, still.omega, mul_zero, zero_div, sub_zero, add_zero, warpTau_zero]

theorem Sensor.Still.next (still : sensor.Still) {theta : ℚ} (quiet : theta * c.npp.toNat = 0) :
    (sensor.next c theta).Still := by
  have angle := still.angle offset quiet
  obtain ⟨theta', kiOut, lpfOmega, omega⟩ := still
  unfold Sensor.next
  rw [angle]
  unfold pllExecThetaIn pllExec
  dsimp only
  split
  · constructor <;> simp [pllInit, integrator, lowpass, theta', kiOut, lpfOmega, warpPi_zero, warpTau_zero]
  · constructor <;> simp [integrator, lowpass, theta', kiOut, lpfOmega, warpPi_zero, warpTau_zero]

theorem Sensor.Still.chain (still : sensor.Still) (quiet : ∀ i, (r i).theta * c.npp.toNat = 0) :
    (chain c sensor r k).Still := by
  induction k with
  | zero => exact still
  | succ k ih => exact ih.next offset (quiet k)

end Still

section Alike

/-- The configuration that the next call runs with. -/
def Sensor.checked (sensor : Sensor) : PllCfg :=
  if sensor.pll.cfg ≠ sensor.pll.loCfg then (pllInit sensor.pll sensor.pll.cfg).cfg else sensor.pll.cfg

/-- Two sensors in which nothing differs that the calls to come depend on. -/
structure Sensor.Alike (sensor' sensor : Sensor) : Prop where
  checked : sensor'.checked = sensor.checked
  loCfg : sensor'.pll.loCfg = sensor.pll.loCfg
  theta : sensor'.pll.theta = sensor.pll.theta
  kiOut : sensor'.pll.kiOut = sensor.pll.kiOut
  lpfOmega : sensor'.pll.lpfOmega = sensor.pll.lpfOmega
  omega : sensor'.omega = sensor.omega

/-- What a call makes of the filter. -/
theorem Sensor.next_eq (c : FocCfg) (sensor : Sensor) (theta : ℚ) :
    let cfg := sensor.checked
    let err := warpPi (sensor.angle c theta - sensor.pll.theta)
    let kiOut := integrator sensor.pll.kiOut err cfg.ki cfg.fs
    let next := sensor.next c theta
    (next.pll.cfg = cfg ∧ next.pll.loCfg = sensor.pll.loCfg) ∧
      next.pll.theta = warpTau (integrator sensor.pll.theta (cfg.kp * err + kiOut) 1 cfg.fs) ∧ next.pll.kiOut = kiOut ∧
      next.pll.lpfOmega = lowpass sensor.pll.lpfOmega (cfg.kp * err + kiOut) cfg.lpfFc cfg.fs ∧
      next.omega = next.pll.lpfOmega := by
  unfold Sensor.next Sensor.checked pllExecThetaIn pllExec
  by_cases changed : sensor.pll.cfg ≠ sensor.pll.loCfg
  · simp only [if_pos changed, pllInit, and_self]
  · simp only [if_neg changed, and_self]

/-- The gains are worked out once. -/
theorem Sensor.next_checked (c : FocCfg) (sensor : Sensor) (theta : ℚ) : (sensor.next c theta).checked = sensor.checked := by
  obtain ⟨⟨cfg, loCfg⟩, -⟩ := sensor.next_eq c theta
  rw [Sensor.checked, cfg, loCfg, Sensor.checked]
  by_cases changed : sensor.pll.cfg ≠ sensor.pll.loCfg
  · simp only [if_pos changed]
    split <;> rfl
  · simp only [if_neg changed]

theorem Sensor.Alike.next (alike : sensor'.Alike sensor) (c : FocCfg) (theta : ℚ) :
    (sensor'.next c theta).Alike (sensor.next c theta) := by
  obtain ⟨⟨-, loCfg'⟩, theta', kiOut', lpfOmega', omega'⟩ := sensor'.next_eq c theta
  obtain ⟨⟨-, loCfg⟩, theta, kiOut, lpfOmega, omega⟩ := sensor.next_eq c theta
  have angle : sensor'.angle c = sensor.angle c := by
    funext theta
    rw [Sensor.angle, Sensor.angle, alike.omega]
  rw [alike.checked, angle, alike.theta, alike.kiOut] at theta' kiOut'
  rw [alike.checked, angle, alike.theta, alike.kiOut, alike.lpfOmega] at lpfOmega'
  have speed := lpfOmega'.trans lpfOmega.symm
  refine ⟨?_, ?_, theta'.trans theta.symm, kiOut'.trans kiOut.symm, speed, ?_⟩
  · rw [Sensor.next_checked, Sensor.next_checked, alike.checked]
  · rw [loCfg', loCfg, alike.loCfg]
  · rw [omega', omega, speed]

theorem Sensor.Alike.chain (alike : sensor'.Alike sensor) (c : FocCfg) (r : Nat → Reading) (k : Nat) :
    (chain c sensor' r k).Alike (chain c sensor r k) := by
  induction k with
  | zero => exact alike
  | succ k ih => exact ih.next c _

/-- A run keeps the gains, and with them what `CFG_CHECK` compares. -/
theorem after_checked (s : Foc) (r : Nat → Reading) (k : Nat) :
    (after s r k).sensor.checked = s.sensor.checked ∧ (after s r k).sensor.pll.loCfg = s.sensor.pll.loCfg := by
  induction k with
  | zero => exact ⟨rfl, rfl⟩
  | succ k ih =>
    rw [after, focExec_sensor]
    exact ⟨(Sensor.next_checked _ _ _).trans ih.1, (Sensor.next_eq _ _ _).1.2.trans ih.2⟩

end Alike

section Sums

theorem total_turnSamples {phase : FocCali} :
    total (turnSamples c phase sensor r k n) = ∑ i ∈ range n, angleAt c sensor r (sampleAt c (k + i)) := by
  induction n with
  | zero => rfl
  | succ n ih =>
    rw [Finset.sum_range_succ, ← ih, turnSamples, List.range_succ, List.map_append, total_append]
    simp [total, turnSamples]

theorem total_caliSamples :
    total (caliSamples c sensor r) = ∑ i ∈ range (allTurns c), angleAt c sensor r (sampleAt c i) := by
  rw [caliSamples, total_append, total_turnSamples, total_turnSamples, allTurns, Finset.sum_range_add]
  simp

theorem allTurns_mod : allTurns c % 2 ^ 32 ≠ 0 := by
  have bound := c.npp.isLt
  unfold allTurns cwTurns ccwTurns
  split <;> omega

end Sums

section Leads

/-- What the sensor adds to the mechanical angle. -/
def Sensor.lead (c : FocCfg) (sensor : Sensor) : ℚ := c.sensorThetaCompGain * sensor.omega / c.execFreq - c.thetaOffset

theorem angle_lead (sensor : Sensor) (theta : ℚ) :
    sensor.angle c theta = warpTau (theta * c.npp.toNat + sensor.lead c) := by
  rw [Sensor.angle, Sensor.lead]
  congr 1
  ring

/-- The chain depends on the readings so far. -/
theorem chain_congr (same : ∀ j < k, r j = r' j) : chain c sensor r k = chain c sensor r' k := by
  induction k with
  | zero => rfl
  | succ k ih => rw [chain, chain, ih fun j lt => same j (Nat.lt_succ_of_lt lt), same k (Nat.lt_succ_self k)]

theorem angleAt_congr (same : ∀ j ≤ k, r j = r' j) : angleAt c sensor r k = angleAt c sensor r' k := by
  rw [angleAt, angleAt, chain_congr fun j lt => same j (Nat.le_of_lt lt), same k (Nat.le_refl k)]

variable (npp : c'.npp = c.npp) (some : 1 ≤ c.npp.toNat)
include npp some

/-- A reading moves two angles by the same, so they differ by the same only with equal leads. -/
theorem lead_of_fixed {e : ℚ} (fixed : ∀ theta, sensor'.angle c' theta - sensor.angle c theta = e) :
    sensor'.lead c' = sensor.lead c := by
  have nonzero : (c.npp.toNat : ℚ) ≠ 0 := Nat.cast_ne_zero.mpr (Nat.ne_of_gt some)
  refine warpTau_shift (e := e) fun x => ?_
  have at_x := fixed (x / c.npp.toNat)
  rw [angle_lead, angle_lead, npp, div_mul_cancel₀ _ nonzero] at at_x
  exact at_x

/-- If two chains give the same sum at the same calls for all readings, they are the same at
each of these calls. The induction is on the number of calls: the last reading changes nothing
before it. -/
theorem leads_of_sums {times : Nat → Nat} (mono : StrictMono times)
    (same : ∀ r, sum + ∑ i ∈ range n, angleAt c' sensor' r (times i) = ∑ i ∈ range n, angleAt c sensor r (times i)) :
    sum = 0 ∧ ∀ i < n, ∀ r, (chain c' sensor' r (times i)).lead c' = (chain c sensor r (times i)).lead c := by
  induction n with
  | zero => exact ⟨by simpa using same fun _ => ⟨⟨⟨0, 0, 0⟩, 0⟩, 0⟩, nofun⟩
  | succ n ih =>
    have last (r : Nat → Reading) :
        (chain c' sensor' r (times n)).lead c' = (chain c sensor r (times n)).lead c := by
      refine lead_of_fixed npp some
        (e := ∑ i ∈ range n, angleAt c sensor r (times i) - sum - ∑ i ∈ range n, angleAt c' sensor' r (times i))
        fun theta => ?_
      let moved := Function.update r (times n) { r (times n) with theta }
      have before (j : Nat) (lt : j < times n) : moved j = r j := Function.update_of_ne (Nat.ne_of_lt lt) _ _
      have unmoved (c : FocCfg) (sensor : Sensor) :
          ∑ i ∈ range n, angleAt c sensor moved (times i) = ∑ i ∈ range n, angleAt c sensor r (times i) := by
        refine Finset.sum_congr rfl fun i mem => angleAt_congr fun j le => before j ?_
        exact Nat.lt_of_le_of_lt le (mono (Finset.mem_range.mp mem))
      have there (c : FocCfg) (sensor : Sensor) :
          angleAt c sensor moved (times n) = (chain c sensor r (times n)).angle c theta := by
        rw [angleAt, chain_congr before]
        simp [moved]
      have both := same moved
      rw [Finset.sum_range_succ, Finset.sum_range_succ, unmoved, unmoved, there, there] at both
      linarith
    obtain ⟨zero, earlier⟩ := ih fun r => by
      have both := same r
      have equal : angleAt c' sensor' r (times n) = angleAt c sensor r (times n) := by
        rw [angleAt, angleAt, angle_lead, angle_lead, last r, npp]
      rw [Finset.sum_range_succ, Finset.sum_range_succ, equal] at both
      linarith
    refine ⟨zero, fun i lt r => ?_⟩
    rcases Nat.lt_succ_iff_lt_or_eq.mp lt with before | rfl
    · exact earlier i before r
    · exact last r

end Leads

section Currents
variable {axis : Axis} {o : I32Uvw}

/-- What `i32` holds. -/
def Narrow (o : I32Uvw) : Prop := ∀ axis, -2 ^ 31 ≤ o.get axis ∧ o.get axis < 2 ^ 31

theorem narrow_zero : Narrow ⟨0, 0, 0⟩ := by
  intro axis
  cases axis <;> decide

theorem bmod_eq {x : Int} (lower : -2 ^ 31 ≤ x) (upper : x < 2 ^ 31) : x.bmod (2 ^ 32) = x :=
  Int.bmod_eq_of_le (by simpa using lower) (by simpa using upper)

theorem shiftRight_nonneg_iff (x : Int) (n : Nat) : 0 ≤ x >>> n ↔ 0 ≤ x := by
  rw [Int.shiftRight_eq_div_pow]
  exact Int.ediv_nonneg_iff_of_pos (by positivity)

theorem shiftRight_narrow {x : Int} (n : Nat) (lower : -2 ^ 31 ≤ x) (upper : x < 2 ^ 31) :
    -2 ^ 31 ≤ x >>> n ∧ x >>> n < 2 ^ 31 := by
  have pos : (0 : Int) < 2 ^ n := by positivity
  rw [Int.shiftRight_eq_div_pow]
  push_cast
  constructor
  · exact Int.le_ediv_of_mul_le pos (by nlinarith)
  · exact Int.ediv_lt_of_lt_mul pos (by nlinarith)

theorem adcSum_narrow (narrow : Narrow o) : Narrow ((adcSum o r k).shiftRight n) := by
  intro axis
  obtain ⟨lower, upper⟩ := narrow axis
  rw [I32Uvw.get_shiftRight, adcSum_get (bmod_eq lower upper)]
  refine shiftRight_narrow n ?_ ?_
  · exact Int.le_bmod (by decide)
  · exact Int.bmod_lt (by decide)

/-- The current `x` once, and no current after it. -/
def burst (x : Int) (i : Nat) : Reading := ⟨⟨if i = 0 then ⟨x, x, x⟩ else ⟨0, 0, 0⟩, 0⟩, 0⟩

theorem adcSum_burst (narrow : Narrow o) {x : Int} (pos : 0 < k) (axis : Axis) (lower : -2 ^ 31 ≤ o.get axis + x)
    (upper : o.get axis + x < 2 ^ 31) : (adcSum o (burst x) k).get axis = o.get axis + x := by
  obtain ⟨low, up⟩ := narrow axis
  have current (i : Nat) : (burst x i).adc.iUvw.get axis = if i = 0 then x else 0 := by
    unfold burst
    cases axis <;> (dsimp only; split <;> rfl)
  rw [adcSum_get (bmod_eq low up)]
  simp only [current]
  rw [Finset.sum_ite_eq' (range k) 0 fun _ => x, if_pos (Finset.mem_range.mpr pos)]
  exact bmod_eq lower upper

/-- An offset that was left is seen by some currents. -/
theorem adcSum_same_iff (narrow : Narrow o) (pos : 0 < k) :
    (∀ r, (adcSum o r k).shiftRight n = (adcSum ⟨0, 0, 0⟩ r k).shiftRight n) ↔ o = ⟨0, 0, 0⟩ := by
  constructor
  · intro same
    refine I32Uvw.ext_get fun axis => ?_
    have zero : I32Uvw.get ⟨0, 0, 0⟩ axis = 0 := by cases axis <;> rfl
    obtain ⟨lower, upper⟩ := narrow axis
    -- One unit of current takes 0 below zero, and not a positive offset.
    have shifted (x : Int) (room : -1 ≤ x ∧ x ≤ 0) (fits : -2 ^ 31 ≤ o.get axis + x) :
        (o.get axis + x) >>> n = x >>> n := by
      have at_x := congrArg (I32Uvw.get · axis) (same (burst x))
      simp only [I32Uvw.get_shiftRight] at at_x
      rwa [adcSum_burst narrow pos axis fits (by omega),
        adcSum_burst narrow_zero pos axis (by rw [zero]; omega) (by rw [zero]; omega), zero, zero_add] at at_x
    rw [zero]
    rcases Int.lt_trichotomy (o.get axis) 0 with below | equal | above
    · have sign := shifted 0 (by omega) (by omega)
      have keeps := (shiftRight_nonneg_iff (o.get axis + 0) n).mp
        (by rw [sign]; exact (shiftRight_nonneg_iff 0 n).mpr (le_refl 0))
      omega
    · exact equal
    · have sign := shifted (-1) (by omega) (by omega)
      have keeps := (shiftRight_nonneg_iff (-1) n).mp (by rw [← sign]; exact (shiftRight_nonneg_iff _ n).mpr (by omega))
      omega
  · rintro rfl _
    rfl

end Currents

section Again

/-- The offsets of an earlier calibration. -/
def FocCfg.withOffsets (c : FocCfg) (o : I32Uvw) (t : ℚ) : FocCfg := { c.bare.withAdc o with thetaOffset := t }

/-- What every start of a calibration has in common. -/
structure Start (c : FocCfg) (s₀ : Foc) : Prop where
  primed : Primed s₀
  cfg : ∃ o t, s₀.cfg = c.withOffsets o t
  narrow : Narrow s₀.cfg.adcOffset.iUvw
  still : c.npp = 0 → s₀.sensor.Still ∧ s₀.cfg.thetaOffset = 0 ∧ s₀.lo.thetaOffsetSum = 0

/-- A calibration is asked for. -/
def again (foc : Foc) : Foc := { foc with lo := { foc.lo with eState := .cali, eCali := .init } }

/-- What a calibration leaves for the next. -/
structure Left (c : FocCfg) (z : Foc) : Prop where
  start : Start c (again z)
  climbs : 0 < inc c
  offset : z.cfg.thetaOffset = z.lo.thetaOffsetSum / (allTurns c % 2 ^ 32 : Nat)

theorem zeroed_start (c : FocCfg) (pll : PllCfg) : Start c (zeroed c pll) where
  primed := zeroed_primed c pll
  cfg := ⟨⟨0, 0, 0⟩, 0, rfl⟩
  narrow := narrow_zero
  still _ := ⟨⟨rfl, rfl, rfl, rfl⟩, rfl, rfl⟩

/-- While every angle is 0, nothing is summed up, and the sensor stays as it was. -/
theorem Start.keeps_still (start : Start c s₀) (pos : 0 < inc c)
    (still : s₀.sensor.Still ∧ s₀.cfg.thetaOffset = 0 ∧ s₀.lo.thetaOffsetSum = 0)
    (quiet : ∀ i, (r i).theta * c.npp.toNat = 0) (k : Nat) : caliSum s₀ r = 0 ∧ (after s₀ r k).sensor.Still := by
  obtain ⟨primed, ⟨o, t, cfg⟩, _, _⟩ := start
  obtain ⟨still, offset, sum⟩ := still
  have quiet : ∀ i, (r i).theta * s₀.cfg.npp.toNat = 0 := by
    rw [cfg]
    exact quiet
  have pos : 0 < inc s₀.cfg := by
    rw [cfg]
    exact pos
  have total_zero : caliSum s₀ r = 0 := by
    rw [caliSum, sum, total_caliSamples, zero_add]
    exact Finset.sum_eq_zero fun i _ => (still.chain offset quiet).angle offset (quiet _)
  refine ⟨total_zero, ?_⟩
  induction k with
  | zero => exact still
  | succ k ih =>
    rw [after, focExec_sensor]
    rcases Nat.lt_or_ge k (allCalls s₀.cfg) with before | past
    · obtain ⟨o', cfg'⟩ := (primed.busy pos before (r := r)).1
      rw [cfg']
      exact ih.next offset (quiet k)
    · have left := primed.left ((primed.ready_iff pos (r := r)).mpr past)
      have zero : (caliCfg s₀ r).thetaOffset = 0 := by
        change caliSum s₀ r / _ = 0
        rw [total_zero, zero_div]
      rw [left.cfg]
      exact ih.next zero (quiet k)

/-- What a calibration stores. -/
theorem Start.stored (start : Start c s₀) (ready : (after s₀ r n).lo.eState = .ready) :
    (after s₀ r n).cfg = c.withOffsets
      ((adcSum s₀.cfg.adcOffset.iUvw r (initCalls c)).shiftRight c.adcCaliCntMax.toNat)
      (caliSum s₀ r / (allTurns c % 2 ^ 32 : Nat)) := by
  obtain ⟨o, t, cfg⟩ := start.cfg
  rw [(start.primed.left ready).cfg, caliCfg, meanCfg, cfg]
  rfl

theorem Start.ready (start : Start c s₀) (pos : 0 < inc c) : (after s₀ r (allCalls c)).lo.eState = .ready := by
  obtain ⟨o, t, cfg⟩ := start.cfg
  have pos' : 0 < inc s₀.cfg := by
    rw [cfg]
    exact pos
  refine (start.primed.ready_iff pos').mpr ?_
  rw [cfg]
  exact Nat.le_refl _

theorem Start.left (start : Start c s₀) (ready : (after s₀ r n).lo.eState = .ready) : Left c (after s₀ r n) := by
  have finished := start.primed.left ready
  have cfg' := start.stored ready
  have pos : 0 < inc c := by
    obtain ⟨o, t, cfg⟩ := start.cfg
    have climbs := start.primed.climbs ready
    rwa [cfg] at climbs
  constructor
  case start =>
    constructor
    case primed =>
      exact ⟨rfl, rfl, finished.adcCnt, finished.thetaCnt, finished.hold, finished.force⟩
    case cfg =>
      exact ⟨_, _, cfg'⟩
    case narrow =>
      change Narrow (after s₀ r n).cfg.adcOffset.iUvw
      rw [cfg']
      exact adcSum_narrow start.narrow
    case still =>
      intro none
      obtain ⟨zero, still⟩ := start.keeps_still (r := r) pos (start.still none) (fun _ => quiet_of_none none _) n
      refine ⟨still, ?_, finished.sum.trans zero⟩
      change (after s₀ r n).cfg.thetaOffset = 0
      rw [cfg', zero]
      exact zero_div _
  case climbs =>
    exact pos
  case offset =>
    rw [cfg', finished.sum]
    rfl

/-- A `foc_t` that was calibrated, once or more, for any readings, and is READY. -/
inductive Calibrated (c : FocCfg) (pll : PllCfg) : Foc → Prop where
  | first {r : Nat → Reading} {n : Nat} (ready : (after (zeroed c pll) r n).lo.eState = .ready) :
      Calibrated c pll (after (zeroed c pll) r n)
  | another {z : Foc} {r : Nat → Reading} {n : Nat} (calibrated : Calibrated c pll z)
      (ready : (after (again z) r n).lo.eState = .ready) : Calibrated c pll (after (again z) r n)

theorem Calibrated.left (calibrated : Calibrated c pll z) : Left c z := by
  induction calibrated with
  | first ready => exact (zeroed_start c pll).left ready
  | another _ ready ih => exact ih.start.left ready

end Again

section Claim

/-- Both calibrations end, and store the same offsets. -/
def Agrees (c : FocCfg) (pll : PllCfg) (z : Foc) (r : Nat → Reading) : Prop :=
  ∃ n, (after (again z) r n).lo.eState = .ready ∧ (after (zeroed c pll) r n).lo.eState = .ready ∧
    (after (again z) r n).cfg.adcOffset.iUvw = (after (zeroed c pll) r n).cfg.adcOffset.iUvw ∧
    (after (again z) r n).cfg.thetaOffset = (after (zeroed c pll) r n).cfg.thetaOffset

/-- Two sensors turn the same readings into the same speeds at the calls that take samples. -/
def SameSpeeds (c : FocCfg) (sensor' sensor : Sensor) : Prop :=
  ∀ r, ∀ i < allTurns c, (chain c sensor' r (sampleAt c i)).omega = (chain c sensor r (sampleAt c i)).omega

/-- An earlier calibration that left nothing which the next one sees. -/
structure Clean (c : FocCfg) (pll : PllCfg) (z : Foc) : Prop where
  adcOffset : z.cfg.adcOffset.iUvw = ⟨0, 0, 0⟩
  sum : z.lo.thetaOffsetSum = 0
  speed : c.sensorThetaCompGain = 0 ∨ SameSpeeds c.bare z.sensor (zeroed c pll).sensor

/-- What the filter of the sensor holds decides about the speeds of every run to come. -/
theorem Clean.of_alike (adcOffset : z.cfg.adcOffset.iUvw = ⟨0, 0, 0⟩) (sum : z.lo.thetaOffsetSum = 0)
    (alike : z.sensor.Alike (zeroed c pll).sensor) : Clean c pll z :=
  ⟨adcOffset, sum, .inr fun r _ _ => (alike.chain c.bare r _).omega⟩

theorem agrees_iff (left : Left c z) : Agrees c pll z r ↔
    (adcSum z.cfg.adcOffset.iUvw r (initCalls c)).shiftRight c.adcCaliCntMax.toNat =
      (adcSum ⟨0, 0, 0⟩ r (initCalls c)).shiftRight c.adcCaliCntMax.toNat ∧
    z.lo.thetaOffsetSum + ∑ i ∈ range (allTurns c), angleAt z.cfg z.sensor r (sampleAt c i) =
      ∑ i ∈ range (allTurns c), angleAt c.bare (zeroed c pll).sensor r (sampleAt c i) := by
  have fresh := zeroed_start c pll
  have turns : (allTurns c % 2 ^ 32 : Nat) ≠ (0 : ℚ) := Nat.cast_ne_zero.mpr allTurns_mod
  have sum : caliSum (again z) r =
      z.lo.thetaOffsetSum + ∑ i ∈ range (allTurns c), angleAt z.cfg z.sensor r (sampleAt c i) := by
    obtain ⟨o, t, cfg⟩ := left.start.cfg
    have cfg : z.cfg = c.withOffsets o t := cfg
    change z.lo.thetaOffsetSum + total (caliSamples z.cfg z.sensor r) = _
    rw [total_caliSamples, cfg]
    rfl
  have sum' : caliSum (zeroed c pll) r =
      ∑ i ∈ range (allTurns c), angleAt c.bare (zeroed c pll).sensor r (sampleAt c i) := by
    change 0 + total (caliSamples c.bare (zeroed c pll).sensor r) = _
    rw [total_caliSamples, zero_add]
    rfl
  rw [← sum, ← sum']
  constructor
  · rintro ⟨n, ready, ready', adc, theta⟩
    rw [left.start.stored ready, fresh.stored ready'] at adc theta
    exact ⟨adc, (div_left_inj' turns).mp theta⟩
  · rintro ⟨adc, theta⟩
    have ready := left.start.ready left.climbs (r := r)
    have ready' := fresh.ready left.climbs (r := r)
    refine ⟨allCalls c, ready, ready', ?_, ?_⟩
    · rw [left.start.stored ready, fresh.stored ready']
      exact adc
    · rw [left.start.stored ready, fresh.stored ready', theta]
      rfl

theorem Left.narrow (left : Left c z) : Narrow z.cfg.adcOffset.iUvw := left.start.narrow

/-- Without sums that were left, the offsets are zero as well. -/
theorem Left.bare (left : Left c z) (adc : z.cfg.adcOffset.iUvw = ⟨0, 0, 0⟩) (sum : z.lo.thetaOffsetSum = 0) :
    z.cfg = c.bare := by
  have offset := left.offset
  obtain ⟨o, t, cfg⟩ := left.start.cfg
  have cfg : z.cfg = c.withOffsets o t := cfg
  rw [sum, zero_div] at offset
  rw [cfg] at adc offset ⊢
  obtain rfl : o = ⟨0, 0, 0⟩ := adc
  obtain rfl : t = 0 := offset
  rfl

theorem sampleAt_strictMono : StrictMono (sampleAt c) := by
  refine strictMono_nat_of_lt_succ fun i => ?_
  have pos := turnCalls_pos c
  rw [sampleAt, sampleAt, sampleCall, sampleCall, Nat.succ_mul]
  omega

/-- The leads are the same at a call when the gain is zero or the speeds are. -/
theorem lead_bare (freq : c.execFreq ≠ 0) :
    sensor'.lead c.bare = sensor.lead c.bare ↔ c.sensorThetaCompGain = 0 ∨ sensor'.omega = sensor.omega := by
  change c.sensorThetaCompGain * sensor'.omega / c.execFreq - 0 = c.sensorThetaCompGain * sensor.omega / c.execFreq - 0 ↔ _
  rw [sub_zero, sub_zero, div_left_inj' freq, mul_eq_mul_left_iff, or_comm]

/-- The next calibration stores, for every readings, what it would store in a zeroed `foc_t`,
just when the earlier ones left nothing behind. -/
theorem second_calibration (calibrated : Calibrated c pll z) : (∀ r, Agrees c pll z r) ↔ Clean c pll z := by
  have left := calibrated.left
  have freq : c.execFreq ≠ 0 := by
    intro zero
    have climbs := left.climbs
    rw [inc, zero, div_zero] at climbs
    exact lt_irrefl 0 climbs
  constructor
  · intro agrees
    have adc : z.cfg.adcOffset.iUvw = ⟨0, 0, 0⟩ :=
      (adcSum_same_iff left.narrow initCalls_pos).mp fun r => ((agrees_iff left).mp (agrees r)).1
    have sums (r : Nat → Reading) := ((agrees_iff left).mp (agrees r)).2
    by_cases none : c.npp = 0
    · obtain ⟨still, _, zero⟩ := left.start.still none
      refine ⟨adc, zero, .inr fun r i _ => ?_⟩
      have here : (chain c.bare z.sensor r (sampleAt c.bare i)).Still := still.chain rfl fun _ => quiet_of_none none _
      have fresh : (chain c.bare (zeroed c pll).sensor r (sampleAt c.bare i)).Still :=
        Sensor.Still.chain rfl ⟨rfl, rfl, rfl, rfl⟩ fun _ => quiet_of_none none _
      rw [here.omega, fresh.omega]
    · have some : 1 ≤ c.bare.npp.toNat := Nat.one_le_iff_ne_zero.mpr fun zero => none (BitVec.eq_of_toNat_eq zero)
      have npp : z.cfg.npp = c.bare.npp := by
        obtain ⟨o, t, cfg⟩ := left.start.cfg
        have cfg : z.cfg = c.withOffsets o t := cfg
        rw [cfg]
        rfl
      obtain ⟨zero, leads⟩ := leads_of_sums npp some sampleAt_strictMono sums
      rw [left.bare adc zero] at leads
      refine ⟨adc, zero, ?_⟩
      by_cases gain : c.sensorThetaCompGain = 0
      · exact .inl gain
      · exact .inr fun r i lt => ((lead_bare freq).mp (leads i lt r)).resolve_left gain
  · rintro ⟨adc, zero, speed⟩ r
    refine (agrees_iff left).mpr ⟨by rw [adc], ?_⟩
    rw [left.bare adc zero, zero, zero_add]
    refine Finset.sum_congr rfl fun i mem => ?_
    have leads : (chain c.bare z.sensor r (sampleAt c i)).lead c.bare =
        (chain c.bare (zeroed c pll).sensor r (sampleAt c i)).lead c.bare :=
      (lead_bare freq).mpr (speed.imp_right fun same => same r i (Finset.mem_range.mp mem))
    rw [angleAt, angleAt, angle_lead, angle_lead, leads]

theorem motor_inc {npp : U32} : 0 < inc (motor npp) := by
  norm_num [inc, motor]

/-- A motor whose drive makes up for the delay of its sensor, after a calibration in which nothing was measured. -/
def compensated : FocCfg := { motor 7 with sensorThetaCompGain := 1 }

def quietly : Foc := after (zeroed compensated motorPll) (burst 0) (allCalls compensated)

theorem quietly_clean : Calibrated compensated motorPll quietly ∧ Clean compensated motorPll quietly := by
  have start := zeroed_start compensated motorPll
  have pos : 0 < inc compensated := @motor_inc 7
  have ready := start.ready pos (r := burst 0)
  have finished := start.primed.left ready
  obtain ⟨zero, still⟩ := start.keeps_still (r := burst 0) pos ⟨⟨rfl, rfl, rfl, rfl⟩, rfl, rfl⟩
    (fun _ => zero_mul _) (allCalls compensated)
  obtain ⟨checked, loCfg⟩ := after_checked (zeroed compensated motorPll) (burst 0) (allCalls compensated)
  unfold quietly
  refine ⟨.first ready, .of_alike ?_ (finished.sum.trans zero) ?_⟩
  · rw [start.stored ready]
    refine I32Uvw.ext_get fun axis => ?_
    have none : I32Uvw.get ⟨0, 0, 0⟩ axis = 0 := by cases axis <;> rfl
    change ((adcSum ⟨0, 0, 0⟩ (burst 0) (initCalls compensated)).shiftRight 10).get axis = _
    rw [I32Uvw.get_shiftRight, adcSum_burst narrow_zero initCalls_pos axis (by rw [none]; decide) (by rw [none]; decide), none]
    rfl
  · exact ⟨checked, loCfg, still.theta, still.kiOut, still.lpfOmega, still.omega⟩

theorem second_calibration_compensated :
    compensated.sensorThetaCompGain ≠ 0 ∧ ∀ r, Agrees compensated motorPll quietly r :=
  ⟨one_ne_zero, (second_calibration quietly_clean.1).mpr quietly_clean.2⟩

/-- A motor after a calibration with a mean current of 1. -/
def biased : Foc := after (zeroed (motor 7) motorPll) (burst 1024) (allCalls (motor 7))

theorem biased_ready : biased.lo.eState = .ready := by
  unfold biased
  exact (zeroed_start (motor 7) motorPll).ready motor_inc

theorem biased_calibrated : Calibrated (motor 7) motorPll biased := by
  have ready := biased_ready
  unfold biased at ready ⊢
  exact .first ready

theorem biased_offset (axis : Axis) : biased.cfg.adcOffset.iUvw.get axis = 1 := by
  have zero : I32Uvw.get ⟨0, 0, 0⟩ axis = 0 := by cases axis <;> rfl
  have ready := biased_ready
  unfold biased at ready ⊢
  rw [(zeroed_start (motor 7) motorPll).stored ready]
  change ((adcSum ⟨0, 0, 0⟩ (burst 1024) (initCalls (motor 7))).shiftRight 10).get axis = 1
  rw [I32Uvw.get_shiftRight, adcSum_burst narrow_zero initCalls_pos axis (by rw [zero]; decide) (by rw [zero]; decide), zero]
  rfl

/-- The offset 1 takes part in the second sum: a sum of -1 becomes 0. -/
theorem biased_disagrees : Calibrated (motor 7) motorPll biased ∧ ¬Agrees (motor 7) motorPll biased (burst (-1)) := by
  refine ⟨biased_calibrated, fun agrees => ?_⟩
  have left := biased_calibrated.left
  have adc := congrArg (I32Uvw.get · .u) ((agrees_iff left).mp agrees).1
  have one := biased_offset .u
  simp only [I32Uvw.get_shiftRight] at adc
  rw [adcSum_burst left.narrow initCalls_pos .u (by rw [one]; decide) (by rw [one]; decide), one,
    adcSum_burst narrow_zero initCalls_pos .u (by decide) (by decide)] at adc
  revert adc
  decide

end Claim

end AvaModule.FocDrive
