import AvaModule.Foc.Current

/-! What `foc_disable` leaves of the current loop, and when it is felt after the next enable. -/
namespace AvaModule.FocCurrent
open FocDrive

variable {sin cos : ℚ → ℚ} {d d' : Drive} {p p' q q' : Pid} {adc a : AdcRaw} {c max ref fdb ffd : ℚ} {n : Nat}

section Calibration

theorem focSelectMode_foc (d : Drive) : (focSelectMode d).foc = d.foc := by
  unfold focSelectMode
  split <;> rfl

theorem focCurCtl_foc (d : Drive) : (focCurCtl d).foc = d.foc := by
  unfold focCurCtl
  dsimp only
  split <;> rfl

theorem focVelCtl_foc (d : Drive) : (focVelCtl d).foc = d.foc := by
  unfold focVelCtl
  dsimp only
  split <;> rfl

theorem focPosCtl_foc (d : Drive) : (focPosCtl d).foc = d.foc := by
  unfold focPosCtl
  dsimp only
  split <;> rfl

theorem focPdCtl_foc (d : Drive) : (focPdCtl d).foc = d.foc := by
  unfold focPdCtl
  dsimp only
  split <;> rfl

theorem focModeCtl_foc (d : Drive) : (focModeCtl d).foc = d.foc := by
  unfold focModeCtl
  split <;> simp only [focVolCtl, focCurCtl_foc, focVelCtl_foc, focPosCtl_foc, focPdCtl_foc]

/-- The controllers leave to the calibration what its own `foc_enable` leaves. -/
theorem focEnable_foc (d : Drive) (adc : AdcRaw) : (focEnable sin cos d adc).foc = FocDrive.focEnable d.foc adc := by
  rw [focEnable, focModulate, focModeCtl_foc, focSelectMode_foc, focMeasure]

theorem focExecEnabled_foc (enabled : d.foc.lo.eState = .enable) (reading : Reading) :
    (focExecEnabled sin cos d reading).foc = FocDrive.focExec d.foc reading := by
  have kept : (FocDrive.focRotorCal { d.foc with lo := { d.foc.lo with execCnt := d.foc.lo.execCnt + 1 } }
      reading.theta).lo.eState = .enable := enabled
  rw [focExecEnabled, focGetFdb, focEnable_foc, FocDrive.focExec]
  simp only [kept]

theorem focEnable_lo (foc : Foc) (adc : AdcRaw) : (FocDrive.focEnable foc adc).lo = foc.lo := by
  unfold FocDrive.focEnable focSelectTheta
  dsimp only
  split <;> rfl

theorem focExecEnabled_mode (d : Drive) (reading : Reading) :
    (focExecEnabled sin cos d reading).foc.lo.eMode = d.foc.lo.eMode := by
  rw [focExecEnabled, focGetFdb, focEnable_foc, FocDrive.focGetFdb, focEnable_lo]
  rfl

end Calibration

section Alike

/-- Two current controllers with the same gains that are fed alike from now on will answer alike. -/
structure PidAlike (p p' : Pid) : Prop where
  fs : p.cfg.fs = p'.cfg.fs
  kp : p.cfg.kp = p'.cfg.kp
  ki : p.cfg.ki = p'.cfg.ki
  kd : p.cfg.kd = p'.cfg.kd
  val : p.val = p'.val
  kiOut : p.kiOut = p'.kiOut
  prevErr : p.cfg.kd ≠ 0 → p.prevErr = p'.prevErr

theorem PidAlike.exec (alike : PidAlike p p') (max ref fdb ffd : ℚ) :
    PidAlike (pidExecIn (limited p max) ref fdb ffd) (pidExecIn (limited p' max) ref fdb ffd) := by
  obtain ⟨fs, kp, ki, kd, val, kiOut, prevErr⟩ := alike
  have slope : derivative (ref - fdb) p.prevErr p.cfg.kd p.cfg.fs = derivative (ref - fdb) p'.prevErr p'.cfg.kd p'.cfg.fs := by
    rw [derivative, derivative, ← kd, ← fs]
    by_cases zero : p.cfg.kd = 0
    · simp only [zero, zero_mul]
    · rw [prevErr zero]
  have integral : (pidExecIn (limited p max) ref fdb ffd).kiOut = (pidExecIn (limited p' max) ref fdb ffd).kiOut := by
    simp only [pidExecIn, pidExec, limited, kiOut, ki, fs]
  refine ⟨fs, kp, ki, kd, ?_, integral, fun _ => rfl⟩
  simp only [pidExecIn, pidExec, limited] at integral ⊢
  rw [slope, integral, kp]

/-- The same drive with another raw sample, measured current and current controllers. -/
def Drive.swap (d : Drive) (a : AdcRaw) (c : ℚ) (p q : Pid) : Drive :=
  { d with foc := { d.foc with adcRaw := a }, fdbCur := c, idPid := p, iqPid := q }

/-- Two drives that no later duty tells apart. -/
def Alike (d d' : Drive) : Prop := ∃ a c p q, d' = d.swap a c p q ∧ PidAlike d.idPid p ∧ PidAlike d.iqPid q

theorem focSelectMode_swap : focSelectMode (d.swap a c p q) = (focSelectMode d).swap a c p q := by
  have entered : enterMode (d.swap a c p q) = (enterMode d).swap a c p q := rfl
  by_cases same : d.foc.lo.eMode = d.eLastMode
  · rw [focSelectMode, focSelectMode, if_pos same]
    exact if_pos same
  · rw [focSelectMode, focSelectMode, if_neg same, ← entered]
    exact if_neg same

theorem curLoops_swap (id : PidAlike d.idPid p) (iq : PidAlike d.iqPid q) :
    ∃ p' q', curLoops (d.swap a c p q) = (curLoops d).swap a c p' q' ∧
      PidAlike (curLoops d).idPid p' ∧ PidAlike (curLoops d).iqPid q' := by
  have idExec := id.exec (d.vBus / sqrt3 * d.cfg.pwm.pwmMax) d.foc.lo.refId d.iDq.d
    (-d.foc.rotor.omega * d.cfg.lq * d.iDq.q * 0.7)
  have iqExec := iq.exec (d.vBus / sqrt3 * d.cfg.pwm.pwmMax) (d.refPvct.cur + d.compIq) d.iDq.q
    (d.foc.rotor.omega * d.cfg.psi * 0.7)
  have volts := congrArg₂ Dq.mk idExec.val iqExec.val
  refine ⟨_, _, ?_, idExec, iqExec⟩
  simp only [curLoops, Drive.swap, volts]

theorem focCurCtl_acts (due : ¬ d.curDivCnt + 1 < d.cfg.curDiv) :
    focCurCtl d = curLoops { d with curDivCnt := 0 } := if_neg due

theorem focCurCtl_swap (id : PidAlike d.idPid p) (iq : PidAlike d.iqPid q) :
    ∃ p' q', focCurCtl (d.swap a c p q) = (focCurCtl d).swap a c p' q' ∧
      PidAlike (focCurCtl d).idPid p' ∧ PidAlike (focCurCtl d).iqPid q' := by
  by_cases waits : d.curDivCnt + 1 < d.cfg.curDiv
  · have here : focCurCtl d = { d with curDivCnt := d.curDivCnt + 1 } := if_pos waits
    rw [here]
    exact ⟨p, q, if_pos waits, id, iq⟩
  · rw [focCurCtl_acts waits, focCurCtl_acts (d := d.swap a c p q) waits]
    exact curLoops_swap (d := { d with curDivCnt := 0 }) id iq

theorem focSelectMode_pids (d : Drive) : (focSelectMode d).idPid = d.idPid ∧ (focSelectMode d).iqPid = d.iqPid := by
  unfold focSelectMode
  split <;> exact ⟨rfl, rfl⟩

theorem focModeCtl_cur (cur : d.foc.lo.eMode = .cur) : focModeCtl d = focCurCtl d := by
  unfold focModeCtl
  rw [cur]
  rfl

/-- `foc_exec` up to the Park transform. -/
def measured (sin cos : ℚ → ℚ) (d : Drive) (reading : Reading) : Drive :=
  let foc := { d.foc with lo := { d.foc.lo with execCnt := d.foc.lo.execCnt + 1 } }
  focMeasure sin cos { d with foc := FocDrive.focRotorCal foc reading.theta } reading.adc

theorem measured_mode (cur : d.foc.lo.eMode = .cur) (reading : Reading) :
    (focSelectMode (measured sin cos d reading)).foc.lo.eMode = .cur := by
  rw [focSelectMode_foc, measured, focMeasure, focEnable_lo]
  exact cur

theorem focExecEnabled_cur (cur : d.foc.lo.eMode = .cur) (reading : Reading) : focExecEnabled sin cos d reading =
    focGetFdb (focModulate sin cos (focCurCtl (focSelectMode (measured sin cos d reading)))) := by
  rw [← focModeCtl_cur (measured_mode cur reading)]
  rfl

/-- What comes after the current controllers reads nothing that is swapped. -/
theorem Alike.modulated (id : PidAlike d.idPid p) (iq : PidAlike d.iqPid q) :
    Alike (focGetFdb (focModulate sin cos d)) (focGetFdb (focModulate sin cos (d.swap a c p q))) :=
  ⟨_, _, p, q, rfl, id, iq⟩

theorem measured_swap (reading : Reading) : measured sin cos (d.swap a c p q) reading =
    (measured sin cos d reading).swap (measured sin cos d reading).foc.adcRaw c p q := rfl

/-- What one step of the current loop keeps. -/
theorem Alike.enabled (alike : Alike d d') (cur : d.foc.lo.eMode = .cur) (reading : Reading) :
    Alike (focExecEnabled sin cos d reading) (focExecEnabled sin cos d' reading) := by
  obtain ⟨a, c, p, q, rfl, id, iq⟩ := alike
  obtain ⟨sameId, sameIq⟩ := focSelectMode_pids (measured sin cos d reading)
  obtain ⟨p', q', acted, id', iq'⟩ := focCurCtl_swap (d := focSelectMode (measured sin cos d reading))
    (a := (measured sin cos d reading).foc.adcRaw) (c := c) (sameId.symm ▸ id) (sameIq.symm ▸ iq)
  rw [focExecEnabled_cur cur, focExecEnabled_cur (d := d.swap a c p q) cur, measured_swap, focSelectMode_swap, acted]
  exact Alike.modulated id' iq'

end Alike

section Runs

/-- The drive after a number of steps. -/
def execs (sin cos : ℚ → ℚ) (d : Drive) (readings : Nat → Reading) : Nat → Drive
  | 0 => d
  | n + 1 => focExecEnabled sin cos (execs sin cos d readings n) (readings n)

/-- The duties that a step passes to `f_set_pwm`. -/
def dutyAt (sin cos : ℚ → ℚ) (d : Drive) (readings : Nat → Reading) (n : Nat) : Uvw U32 :=
  (execs sin cos d readings (n + 1)).out.svpwm.u32PwmDuty

/-- What earlier activity of the current loop leaves in a drive. -/
structure Leftover where
  adcRaw : AdcRaw
  f32IUvw : Uvw ℚ
  iAb : Ab ℚ
  iDq : Dq ℚ
  fdbCur : ℚ
  out : FocOut ℚ
  idPid : Pid
  iqPid : Pid

/-- The contents of a controller under the gains of another. -/
def withGains (c : PidCfg) (pid : Pid) : Pid :=
  { pid with cfg := { c with kiOutMax := pid.cfg.kiOutMax, outMax := pid.cfg.outMax } }

def Drive.leaves (d : Drive) (l : Leftover) : Drive :=
  { d with
    foc := { d.foc with adcRaw := l.adcRaw }
    f32IUvw := l.f32IUvw
    iAb := l.iAb
    iDq := l.iDq
    fdbCur := l.fdbCur
    out := l.out
    idPid := withGains d.idPid.cfg l.idPid
    iqPid := withGains d.iqPid.cfg l.iqPid }

/-- `foc_disable`, and the modes of an enabled current loop with a forced angle. -/
def restart (d : Drive) : Drive :=
  let d := focDisable d
  { d with foc := { d.foc with lo := { d.foc.lo with eState := .enable, eMode := .cur, eTheta := .force } } }

/-- The integrators agree, and so do the previous errors of a controller with a differential gain. -/
def Settled (d : Drive) (l l' : Leftover) : Prop :=
  (l.idPid.kiOut = l'.idPid.kiOut ∧ (d.idPid.cfg.kd ≠ 0 → l.idPid.prevErr = l'.idPid.prevErr)) ∧
  (l.iqPid.kiOut = l'.iqPid.kiOut ∧ (d.iqPid.cfg.kd ≠ 0 → l.iqPid.prevErr = l'.iqPid.prevErr))

theorem execs_alike (alike : Alike d d') (cur : d.foc.lo.eMode = .cur) (readings : Nat → Reading) (n : Nat) :
    Alike (execs sin cos d readings n) (execs sin cos d' readings n) ∧
      (execs sin cos d readings n).foc.lo.eMode = .cur := by
  induction n with
  | zero => exact ⟨alike, cur⟩
  | succ n ih => exact ⟨ih.1.enabled ih.2 _, (focExecEnabled_mode _ _).trans ih.2⟩

theorem restart_alike {l l' : Leftover} (settled : Settled d l l') :
    Alike (restart (d.leaves l)) (restart (d.leaves l')) := by
  obtain ⟨⟨idKi, idPrev⟩, iqKi, iqPrev⟩ := settled
  exact ⟨l'.adcRaw, l'.fdbCur, _, _, rfl, ⟨rfl, rfl, rfl, rfl, rfl, idKi, idPrev⟩, rfl, rfl, rfl, rfl, rfl, iqKi, iqPrev⟩

theorem dutyAt_eq {l l' : Leftover} (settled : Settled d l l') (readings : Nat → Reading) (n : Nat) :
    dutyAt sin cos (restart (d.leaves l)) readings n = dutyAt sin cos (restart (d.leaves l')) readings n := by
  obtain ⟨⟨a, c, p, q, same, -⟩, -⟩ := execs_alike (restart_alike settled) rfl readings (n + 1)
  rw [dutyAt, dutyAt, same]
  rfl

end Runs

section Probe
variable {l l' : Leftover} {c cD cQ : PidCfg} {pid : Pid} {x : ℚ}

/-- A drive at rest that asks for one ampere on both axes, whose voltages reach `max`. -/
def probe (max : ℚ) (cD cQ : PidCfg) : Drive where
  foc := {
    cfg := ⟨1, 1, 0, 0, ⟨⟨0, 0, 0⟩, 0⟩, 0, 0, 0, 0⟩
    adcRaw := ⟨⟨0, 0, 0⟩, 0⟩
    rotor := ⟨0, 0, 0, 0, 0, 0, 0, 0, 0, 0, 0, 0, 0, 0⟩
    lo := ⟨0, 0, 0, 0, 0, [], 0, 0, 1, .enable, .force, .cur, .init,
      ⟨⟨0, 0, 0, 0, 0, 0, 0⟩, 0, 0, 0, 0, ⟨0, 0, 0, 0, 0, 0, 0⟩, 0, 0, 0, 0, 0⟩⟩
    drv := false }
  cfg := ⟨⟨2, 0, 1⟩, 0, max * sqrt3, 0, 0, 0, 0, 0, 0, 0, 0⟩
  vBus := 0
  compTheta := 0
  f32IUvw := ⟨0, 0, 0⟩
  iAb := ⟨0, 0⟩
  iDq := ⟨0, 0⟩
  out := noOut
  refPvct := ⟨0, 0, 0, 0, 1, 0⟩
  fdbCur := 0
  refIq := 0
  compIq := 0
  ffdVDq := ⟨0, 0⟩
  eLastMode := .cur
  idPid := ⟨cD, 0, 0, 0, 0, 0, 0, 0, 0, 0⟩
  iqPid := ⟨cQ, 0, 0, 0, 0, 0, 0, 0, 0, 0⟩
  velPid := ⟨⟨0, 0, 0, 0, 0, 0⟩, 0, 0, 0, 0, 0, 0, 0, 0, 0⟩
  posPid := ⟨⟨0, 0, 0, 0, 0, 0⟩, 0, 0, 0, 0, 0, 0, 0, 0, 0⟩
  pdPid := ⟨⟨0, 0, 0, 0, 0, 0⟩, 0, 0, 0, 0, 0, 0, 0, 0, 0⟩
  curDivCnt := 0
  velDivCnt := 0
  posDivCnt := 0
  pdDivCnt := 0

/-- No current flows, and the bus reads one. -/
def sample : Reading := ⟨⟨⟨0, 0, 0⟩, 1⟩, 0⟩

/-- The counts of a timer of two steps. -/
def counts (vAbSv : Ab ℚ) : Uvw U32 := (focSvpwm divSqrt3By2 ⟨2, 0, 1⟩ { noOut with vAbSv }).svpwm.u32PwmDuty

/-- The voltage that a controller asks for at the first step. -/
def firstVolt (max : ℚ) (c : PidCfg) (pid : Pid) : ℚ :=
  (pidExecIn (limited { withGains c pid with val := 0 } max) 1 0 0).val

theorem dutyAt_probe (sin0 : sin 0 = 0) (cos0 : cos 0 = 1) (max : ℚ) (cD cQ : PidCfg) (l : Leftover) :
    dutyAt sin cos (restart ((probe max cD cQ).leaves l)) (fun _ => sample) 0 =
      counts ⟨firstVolt max cD l.idPid / (max * sqrt3), firstVolt max cQ l.iqPid / (max * sqrt3)⟩ := by
  let m := measured sin cos (restart ((probe max cD cQ).leaves l)) sample
  have kept : focSelectMode m = m := if_pos rfl
  have due : ¬ m.curDivCnt + 1 < m.cfg.curDiv := by
    change ¬ (0 : U32) + 1 < 0
    decide
  have acts := focCurCtl_acts due
  have bus : m.vBus = max * sqrt3 := by
    change ((1 : Int) : ℚ) * (max * sqrt3) = max * sqrt3
    rw [Int.cast_one, one_mul]
  have current : m.iDq = ⟨0, 0⟩ := by
    change park sin cos (clarke divSqrt3By2 _ 0) 0 = _
    simp [park, clarke]
  have limit : m.vBus / sqrt3 * m.cfg.pwm.pwmMax = max := by
    change m.vBus / sqrt3 * 1 = max
    rw [bus, mul_one, mul_div_cancel_right₀ _ (by norm_num [sqrt3])]
  have volts : (curLoops { m with curDivCnt := 0 }).out.vDq = ⟨firstVolt max cD l.idPid, firstVolt max cQ l.iqPid⟩ := by
    change Dq.mk (pidExecIn (limited { withGains cD l.idPid with val := 0 } (m.vBus / sqrt3 * m.cfg.pwm.pwmMax)) 1
      m.iDq.d (-0 * 0 * m.iDq.q * 0.7)).val (pidExecIn (limited { withGains cQ l.iqPid with val := 0 }
      (m.vBus / sqrt3 * m.cfg.pwm.pwmMax)) (1 + 0) m.iDq.q (0 * 0 * 0.7)).val = _
    simp only [limit, current, add_zero, mul_zero, zero_mul]
    rfl
  have first : dutyAt sin cos (restart ((probe max cD cQ).leaves l)) (fun _ => sample) 0 =
      (focModulate sin cos (focCurCtl (focSelectMode m))).out.svpwm.u32PwmDuty := by
    rw [dutyAt, execs, execs, focExecEnabled_cur rfl]
    rfl
  have modulated : (focModulate sin cos (curLoops { m with curDivCnt := 0 })).out.svpwm.u32PwmDuty =
      counts ⟨(invPark sin cos (curLoops { m with curDivCnt := 0 }).out.vDq (0 + 0 * 0 / 1)).a / m.vBus,
        (invPark sin cos (curLoops { m with curDivCnt := 0 }).out.vDq (0 + 0 * 0 / 1)).b / m.vBus⟩ := rfl
  rw [first, kept, acts, modulated, volts, bus]
  simp [invPark, sin0, cos0]

theorem counts_zero : counts ⟨0, 0⟩ = ⟨1, 1, 1⟩ := by decide +kernel

theorem pwmCount_low (low : x < 1 / 2) : pwmCount 2 (clamp x 0 1) = 0 := by
  have small : clamp x 0 1 < 1 / 2 := by
    unfold clamp
    split
    · norm_num
    · split
      · exact low
      · linarith
  have two : (2 : BitVec 32).toNat = 2 := rfl
  rw [pwmCount, two, Nat.cast_ofNat, Nat.floor_eq_zero.mpr (by linarith)]
  rfl

/-- A negative voltage along the first phase takes its duty below a half. -/
theorem counts_d (neg : x < 0) : (counts ⟨x, 0⟩).u = 0 := by
  have phases : invClarke divSqrt3By2 ⟨x, 0⟩ = ⟨x, -(x * 0.5), -(x * 0.5)⟩ := by simp [invClarke]
  have extremes : maxMin (⟨x, -(x * 0.5), -(x * 0.5)⟩ : Uvw ℚ) = (-(x * 0.5), x) := by
    have above : x ≤ -(x * 0.5) := by linarith
    rw [maxMin_eq, max_eq_right above, max_self, min_eq_left above, min_eq_left above]
  have duty : (counts ⟨x, 0⟩).u = pwmCount 2 (clamp (x + -(0.5 * (-(x * 0.5) + x)) + 0.5) 0 1) := by
    rw [counts, focSvpwm]
    simp only [phases, extremes]
    rfl
  rw [duty]
  exact pwmCount_low (by linarith)

theorem counts_q (neg : x < 0) : (counts ⟨0, x⟩).v = 0 := by
  have below : x * divSqrt3By2 < 0 := mul_neg_of_neg_of_pos neg (by norm_num [divSqrt3By2])
  have phases : invClarke divSqrt3By2 ⟨0, x⟩ = ⟨0, x * divSqrt3By2, -(x * divSqrt3By2)⟩ := by simp [invClarke]
  have extremes : maxMin (⟨0, x * divSqrt3By2, -(x * divSqrt3By2)⟩ : Uvw ℚ) =
      (-(x * divSqrt3By2), x * divSqrt3By2) := by
    rw [maxMin_eq, max_eq_left below.le, max_eq_right (by linarith), min_eq_right below.le, min_eq_left (by linarith)]
  have duty : (counts ⟨0, x⟩).v = pwmCount 2 (clamp (x * divSqrt3By2 +
      -(0.5 * (-(x * divSqrt3By2) + x * divSqrt3By2)) + 0.5) 0 1) := by
    rw [counts, focSvpwm]
    simp only [phases, extremes]
    rfl
  rw [duty]
  exact pwmCount_low (by linarith)

/-- A voltage below zero along one axis is seen in the duty of one phase. -/
theorem counts_apart {phase : Uvw U32 → U32} {axis : ℚ → Ab ℚ} {max : ℚ} (half : phase ⟨1, 1, 1⟩ = 1)
    (low : ∀ {x}, x < 0 → phase (counts (axis x)) = 0) (pos : 0 < max) (neg : x < 0) :
    counts (axis (x / (max * sqrt3))) ≠ ⟨1, 1, 1⟩ := by
  intro same
  have scale : 0 < max * sqrt3 := mul_pos pos (by norm_num [sqrt3])
  have duty := low (div_neg_of_neg_of_pos neg scale)
  rw [same, half] at duty
  exact absurd duty (by decide)

/-- What the first voltage would be without limits. -/
def response (c : PidCfg) (pid : Pid) : ℚ := c.kp + pid.kiOut + c.kd * (1 - pid.prevErr) * c.fs

/-- Within its limits, a controller without integral gain adds up what it is left with. -/
theorem firstVolt_linear {max : ℚ} (flat : c.ki = 0) (integral : |pid.kiOut| ≤ max) (sum : |response c pid| ≤ max) :
    firstVolt max c pid = response c pid := by
  have kept : clamp (integrator pid.kiOut (1 - 0) c.ki c.fs) (-max) max = pid.kiOut := by
    rw [integrator, flat, zero_mul, zero_div, add_zero, clamp_eq_self (abs_le.mp integral).1 (abs_le.mp integral).2]
  have parts : firstVolt max c pid = clamp (c.kp * (1 - 0) + clamp (integrator pid.kiOut (1 - 0) c.ki c.fs) (-max) max +
      derivative (1 - 0) pid.prevErr c.kd c.fs + 0) (-max) max := rfl
  rw [parts, kept, derivative, sub_zero, mul_one, add_zero]
  exact clamp_eq_self (abs_le.mp sum).1 (abs_le.mp sum).2

/-- A controller whose integrator is driven to its limit forgets what it was left with. -/
theorem firstVolt_saturated {max ki : ℚ} (full : max ≤ pid.kiOut + ki) (nonneg : 0 ≤ max) :
    firstVolt max ⟨1, -max, ki, 0, 0, 0⟩ pid = 0 := by
  have top : clamp (integrator pid.kiOut (1 - 0) ki 1) (-max) max = max := by
    rw [integrator, sub_zero, mul_one, div_one]
    exact clamp_eq_max (by linarith) full
  have parts : firstVolt max ⟨1, -max, ki, 0, 0, 0⟩ pid = clamp (-max * (1 - 0) +
      clamp (integrator pid.kiOut (1 - 0) ki 1) (-max) max + derivative (1 - 0) pid.prevErr 0 1 + 0) (-max) max := rfl
  rw [parts, top, derivative, sub_zero, mul_one, zero_mul, zero_mul, add_zero, add_zero, neg_add_cancel]
  exact clamp_eq_self (neg_nonpos.mpr nonneg) nonneg

/-- One axis can be looked at on its own: its controller within the limits and the other one saturated. -/
theorem isolated (flat : c.ki = 0) (p p' q q' : Pid) : ∃ max cE, 0 < max ∧
    firstVolt max c p = response c p ∧ firstVolt max c p' = response c p' ∧
    firstVolt max cE q = 0 ∧ firstVolt max cE q' = 0 := by
  have nonneg := abs_nonneg p.kiOut
  have nonneg' := abs_nonneg p'.kiOut
  have nonnegR := abs_nonneg (response c p)
  have nonnegR' := abs_nonneg (response c p')
  obtain ⟨max, sum⟩ : ∃ max, max = 1 + |p.kiOut| + |p'.kiOut| + |response c p| + |response c p'| := ⟨_, rfl⟩
  refine ⟨max, ⟨1, -max, max + |q.kiOut| + |q'.kiOut|, 0, 0, 0⟩, by linarith, ?_, ?_, ?_, ?_⟩
  · exact firstVolt_linear flat (by linarith) (by linarith)
  · exact firstVolt_linear flat (by linarith) (by linarith)
  · exact firstVolt_saturated (by linarith [neg_abs_le q.kiOut, abs_nonneg q'.kiOut]) (by linarith)
  · exact firstVolt_saturated (by linarith [neg_abs_le q'.kiOut, abs_nonneg q.kiOut]) (by linarith)

/-- No later duty shows the difference between two leftovers. -/
def Forgotten (sin cos : ℚ → ℚ) (l l' : Leftover) : Prop := ∀ (d : Drive) (readings : Nat → Reading) (n : Nat),
  dutyAt sin cos (restart (d.leaves l)) readings n = dutyAt sin cos (restart (d.leaves l')) readings n

theorem Forgotten.symm (forgotten : Forgotten sin cos l l') : Forgotten sin cos l' l :=
  fun d readings n => (forgotten d readings n).symm

variable (sin0 : sin 0 = 0) (cos0 : cos 0 = 1)
include sin0 cos0

theorem Forgotten.no_kick_d (forgotten : Forgotten sin cos l l') (flat : c.ki = 0) (zero : response c l'.idPid = 0) :
    0 ≤ response c l.idPid := by
  by_contra kick
  obtain ⟨max, cE, pos, here, there, erased, erased'⟩ := isolated flat l.idPid l'.idPid l.iqPid l'.iqPid
  have same := forgotten (probe max c cE) (fun _ => sample) 0
  rw [dutyAt_probe sin0 cos0, dutyAt_probe sin0 cos0, here, there, erased, erased', zero, zero_div, counts_zero] at same
  exact counts_apart rfl counts_d pos (lt_of_not_ge kick) same

theorem Forgotten.no_kick_q (forgotten : Forgotten sin cos l l') (flat : c.ki = 0) (zero : response c l'.iqPid = 0) :
    0 ≤ response c l.iqPid := by
  by_contra kick
  obtain ⟨max, cE, pos, here, there, erased, erased'⟩ := isolated flat l.iqPid l'.iqPid l.idPid l'.idPid
  have same := forgotten (probe max cE c) (fun _ => sample) 0
  rw [dutyAt_probe sin0 cos0, dutyAt_probe sin0 cos0, here, there, erased, erased', zero, zero_div, counts_zero] at same
  exact counts_apart rfl counts_q pos (lt_of_not_ge kick) same

omit sin0 cos0 in
/-- Two leftovers whose voltages never differ downwards agree. -/
theorem agree_of_responses (up : ∀ c : PidCfg, c.ki = 0 → response c p' = 0 → 0 ≤ response c p)
    (down : ∀ c : PidCfg, c.ki = 0 → response c p = 0 → 0 ≤ response c p') :
    p.kiOut = p'.kiOut ∧ p.prevErr = p'.prevErr := by
  have integral : p.kiOut = p'.kiOut := by
    have le := up ⟨1, -p'.kiOut, 0, 0, 0, 0⟩ rfl (by simp [response])
    have ge := down ⟨1, -p.kiOut, 0, 0, 0, 0⟩ rfl (by simp [response])
    simp only [response] at le ge
    linarith
  have previous : p.prevErr = p'.prevErr := by
    have le := up ⟨1, p'.prevErr - 1 - p'.kiOut, 0, 1, 0, 0⟩ rfl (by simp [response])
    have ge := down ⟨1, p.prevErr - 1 - p.kiOut, 0, 1, 0, 0⟩ rfl (by simp [response])
    simp only [response] at le ge
    linarith
  exact ⟨integral, previous⟩

/-- After a stop the duties do not depend on what the current loop left exactly if the integrators and the
previous errors agree, the latter where a differential gain reads them. -/
theorem disable_forgets : (∀ (d : Drive) (l l' : Leftover), Settled d l l' → ∀ (readings : Nat → Reading) (n : Nat),
      dutyAt sin cos (restart (d.leaves l)) readings n = dutyAt sin cos (restart (d.leaves l')) readings n) ∧
    ∀ l l', Forgotten sin cos l l' ↔ ∀ d, Settled d l l' := by
  refine ⟨fun d l l' settled => dutyAt_eq settled, fun l l' => ⟨fun forgotten d => ?_, fun settled d => dutyAt_eq (settled d)⟩⟩
  have id := agree_of_responses (fun _ flat zero => forgotten.no_kick_d sin0 cos0 flat zero)
    (fun _ flat zero => forgotten.symm.no_kick_d sin0 cos0 flat zero)
  have iq := agree_of_responses (fun _ flat zero => forgotten.no_kick_q sin0 cos0 flat zero)
    (fun _ flat zero => forgotten.symm.no_kick_q sin0 cos0 flat zero)
  exact ⟨⟨id.1, fun _ => id.2⟩, iq.1, fun _ => iq.2⟩

omit sin0 cos0

/-- A drive of 24 V with proportional and integral gains, at the angle 0. -/
def bench : Drive :=
  { probe 0 ⟨10000, 1, 50, 0, 0, 0⟩ ⟨10000, 1, 50, 0, 0, 0⟩ with
    cfg := ⟨⟨1000, 0, 0.95⟩, 0.01, 0.01, 2 / 3, 0, 0, 0, 1, 1, 1, 1⟩ }

def benchSample : Reading := ⟨⟨⟨0, 0, 0⟩, 2400⟩, 0⟩

def fresh : Leftover where
  adcRaw := ⟨⟨0, 0, 0⟩, 0⟩
  f32IUvw := ⟨0, 0, 0⟩
  iAb := ⟨0, 0⟩
  iDq := ⟨0, 0⟩
  fdbCur := 0
  out := noOut
  idPid := ⟨⟨0, 0, 0, 0, 0, 0⟩, 0, 0, 0, 0, 0, 0, 0, 0, 0⟩
  iqPid := ⟨⟨0, 0, 0, 0, 0, 0⟩, 0, 0, 0, 0, 0, 0, 0, 0, 0⟩

/-- A drive that was stopped while its integrator held 5 V. -/
def stopped : Leftover := { fresh with iqPid := { fresh.iqPid with val := 5, kiOut := 5 } }

/-- The 5 V are on the phases again at the first step after the stop. -/
theorem disable_kick : dutyAt (fun _ => 0) (fun _ => 1) (restart (bench.leaves fresh)) (fun _ => benchSample) 0 ≠
    dutyAt (fun _ => 0) (fun _ => 1) (restart (bench.leaves stopped)) (fun _ => benchSample) 0 := by
  decide +kernel

/-- Measured currents alone are forgotten. -/
theorem disable_forgets_current : dutyAt (fun _ => 0) (fun _ => 1) (restart (bench.leaves fresh)) (fun _ => benchSample) 7 =
    dutyAt (fun _ => 0) (fun _ => 1) (restart (bench.leaves { fresh with iDq := ⟨3, 4⟩ })) (fun _ => benchSample) 7 :=
  (disable_forgets rfl rfl).1 bench fresh { fresh with iDq := ⟨3, 4⟩ } ⟨⟨rfl, fun _ => rfl⟩, rfl, fun _ => rfl⟩ _ 7

end Probe

end AvaModule.FocCurrent
