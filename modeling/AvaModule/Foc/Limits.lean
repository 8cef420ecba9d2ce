import AvaModule.Foc.Exec
import AvaModule.Foc.Leftovers

/-! The limits that the drive keeps in every run: of its controllers and of the duties that it gives to the timer. -/
namespace AvaModule.FocMachine
open FocDrive FocCurrent SmoObs HfiObs LbgObs

/-- A controller whose integral and output are within its own limits. -/
structure Within (pid : Pid) : Prop where
  val : |pid.val| ≤ pid.cfg.outMax
  kiOut : |pid.kiOut| ≤ pid.cfg.kiOutMax

section Pid
variable {pid : Pid} {ref fdb ffd max volts : ℚ}

theorem clamp_abs {x max : ℚ} (nonneg : 0 ≤ max) : |clamp x (-max) max| ≤ max :=
  abs_le.mpr (clamp_mem (neg_le_self nonneg))

theorem pidExecIn_within (out : 0 ≤ pid.cfg.outMax) (kiOut : 0 ≤ pid.cfg.kiOutMax) : Within (pidExecIn pid ref fdb ffd) :=
  ⟨clamp_abs out, clamp_abs kiOut⟩

theorem Within.exec (within : Within pid) : Within (pidExecIn pid ref fdb ffd) :=
  pidExecIn_within ((abs_nonneg _).trans within.val) ((abs_nonneg _).trans within.kiOut)

/-- A current controller, whose limit comes from a bus voltage. -/
structure Supplied (volts : ℚ) (pid : Pid) : Prop where
  within : Within pid
  out : pid.cfg.outMax ≤ volts
  kiOut : pid.cfg.kiOutMax ≤ volts

theorem Supplied.limited (nonneg : 0 ≤ max) (le : max ≤ volts) : Supplied volts (pidExecIn (limited pid max) ref fdb ffd) where
  within := pidExecIn_within nonneg nonneg
  out := le
  kiOut := le

end Pid

/-- Limits of the duties that the timer can take. -/
structure Timed (pwm : PwmCfg ℚ) : Prop where
  low : 0 ≤ pwm.pwmMin
  ordered : pwm.pwmMin ≤ pwm.pwmMax
  high : pwm.pwmMax ≤ 1

/-- Off, or within the limits of the modulation. -/
def DutyOk (pwm : PwmCfg ℚ) (duty : ℚ) : Prop := duty = 0 ∨ 0 ≤ duty ∧ pwm.pwmMin ≤ duty ∧ duty ≤ pwm.pwmMax

theorem clamp_dutyOk {pwm : PwmCfg ℚ} (timed : Timed pwm) (x : ℚ) : DutyOk pwm (clamp x pwm.pwmMin pwm.pwmMax) := by
  have limits := @clamp_mem _ _ x _ _ timed.ordered
  exact .inr ⟨timed.low.trans limits.1, limits⟩

theorem DutyOk.count {pwm : PwmCfg ℚ} {duty : ℚ} (ok : DutyOk pwm duty) (timed : Timed pwm) :
    pwmCount pwm.pwmFullCnt duty ≤ pwm.pwmFullCnt := by
  apply pwmCount_le
  rcases ok with rfl | ⟨-, -, most⟩
  · exact zero_le_one
  · exact most.trans timed.high

/-- What holds between any two calls: `volts` is what the highest bus voltage can give. -/
structure Limited (c : DriveCfg) (volts : ℚ) (d : Drive) : Prop where
  cfg : d.cfg = c
  vel : Within d.velPid
  pos : Within d.posPid
  id : Supplied volts d.idPid
  iq : Supplied volts d.iqPid
  duty : d.out.svpwm.f32PwmDuty.All (DutyOk c.pwm)
  count : d.out.svpwm.u32PwmDuty.All (· ≤ c.pwm.pwmFullCnt)

/-- The voltages that the current controllers may ask for at a bus voltage. -/
def supply (c : DriveCfg) (vBus : ℚ) : ℚ := vBus / sqrt3 * c.pwm.pwmMax

/-- And during a call, once the bus voltage is read. -/
structure Fed (c : DriveCfg) (volts : ℚ) (d : Drive) : Prop extends Limited c volts d where
  nonneg : 0 ≤ supply c d.vBus
  le : supply c d.vBus ≤ volts

section Drive
variable {c : DriveCfg} {volts : ℚ} {d : Drive}

theorem Fed.velCtl (fed : Fed c volts d) : Fed c volts (focVelCtl d) := by
  unfold focVelCtl
  dsimp only
  split
  · exact { fed with }
  · exact { fed with vel := fed.vel.exec }

theorem Fed.posCtl (fed : Fed c volts d) : Fed c volts (focPosCtl d) := by
  unfold focPosCtl
  dsimp only
  split
  · exact { fed with }
  · exact { fed with pos := fed.pos.exec }

theorem Fed.pdCtl (fed : Fed c volts d) : Fed c volts (focPdCtl d) := by
  unfold focPdCtl
  dsimp only
  split <;> exact { fed with }

theorem Fed.curCtl (fed : Fed c volts d) : Fed c volts (focCurCtl d) := by
  have nonneg : 0 ≤ supply d.cfg d.vBus := fed.cfg ▸ fed.nonneg
  have le : supply d.cfg d.vBus ≤ volts := fed.cfg ▸ fed.le
  unfold focCurCtl
  dsimp only
  split
  · exact { fed with }
  · exact { fed with id := .limited nonneg le, iq := .limited nonneg le }

theorem Fed.modeCtl (fed : Fed c volts d) : Fed c volts (focModeCtl d) := by
  unfold focModeCtl focVolCtl
  cases d.foc.lo.eMode with
  | null | vol => exact fed
  | cur | asc => exact fed.curCtl
  | vel => exact fed.velCtl.curCtl
  | pos => exact fed.posCtl.velCtl.curCtl
  | pd => exact fed.pdCtl.curCtl

theorem Fed.selectMode (fed : Fed c volts d) : Fed c volts (focSelectMode d) := by
  unfold focSelectMode
  split
  · exact fed
  · exact { fed with }

theorem Fed.modulate (fed : Fed c volts d) (timed : Timed c.pwm) (sin cos : ℚ → ℚ) :
    Limited c volts (focModulate sin cos d) := by
  obtain ⟨limited, _, _⟩ := fed
  obtain rfl := limited.cfg
  have duty : (focModulate sin cos d).out.svpwm.f32PwmDuty.All (DutyOk d.cfg.pwm) :=
    ⟨clamp_dutyOk timed _, clamp_dutyOk timed _, clamp_dutyOk timed _⟩
  exact { limited with duty, count := ⟨duty.1.count timed, duty.2.1.count timed, duty.2.2.count timed⟩ }

end Drive

section Run
variable (sin cos : ℚ → ℚ) (atan2 : ℚ → ℚ → ℚ) {c : DriveCfg} {volts : ℚ} {m : Machine} {adc : AdcRaw}

/-- A reading of the bus that the limits allow for. -/
def BusOk (c : DriveCfg) (volts : ℚ) (adc : AdcRaw) : Prop :=
  0 ≤ supply c (adc.vBus * c.adc2vbus) ∧ supply c (adc.vBus * c.adc2vbus) ≤ volts

theorem Limited.sample (limited : Limited c volts m.drive) (bus : BusOk c volts adc) :
    Fed c volts (focSample m adc).drive := by
  obtain rfl := limited.cfg
  exact { limited with nonneg := bus.1, le := bus.2 }

theorem Fed.obsIAb (fed : Fed c volts m.drive) : Fed c volts (focObsIAb sin cos atan2 m).drive := by
  unfold focObsIAb
  split <;> exact { fed with }

theorem Fed.obsIDq (fed : Fed c volts m.drive) : Fed c volts (focObsIDq sin cos m).drive := by
  unfold focObsIDq
  split
  · split <;> exact { fed with }
  all_goals exact { fed with }

theorem Fed.obsVDq (fed : Fed c volts m.drive) : Fed c volts (focObsVDq m).drive := by
  unfold focObsVDq
  split <;> exact { fed with }

theorem Limited.setFoc (limited : Limited c volts m.drive) (foc : Foc) : Limited c volts (m.setFoc foc).drive :=
  { limited with }

theorem Supplied.off {pid : Pid} (supplied : Supplied volts pid) : Supplied volts { pid with val := 0 } where
  within := ⟨abs_zero.trans_le ((abs_nonneg _).trans supplied.within.val), supplied.within.kiOut⟩
  out := supplied.out
  kiOut := supplied.kiOut

theorem noOut_count (cnt : U32) : noOut.svpwm.u32PwmDuty.All (· ≤ cnt) :=
  have zero : 0#32 ≤ cnt := BitVec.le_def.mpr (Nat.zero_le _)
  ⟨zero, zero, zero⟩

theorem Limited.disable (limited : Limited c volts m.drive) : Limited c volts (focDisable m).drive :=
  { limited with
    id := limited.id.off
    iq := limited.iq.off
    duty := ⟨.inl rfl, .inl rfl, .inl rfl⟩
    count := noOut_count _ }

section Calls
variable (timed : Timed c.pwm)
include timed

theorem Limited.enable (limited : Limited c volts m.drive) (bus : BusOk c volts adc) :
    Limited c volts (focEnable sin cos atan2 m adc).drive := by
  have sampled := (limited.sample bus).obsIAb sin cos atan2
  have transformed : Fed c volts (focTransform sin cos (focObsIAb sin cos atan2 (focSample m adc))).drive :=
    { sampled with }
  have controlled := (transformed.obsIDq sin cos).selectMode.modeCtl
  exact controlled.obsVDq.modulate timed sin cos

theorem Limited.cali (limited : Limited c volts m.drive) (bus : BusOk c volts adc) :
    Limited c volts (focCali sin cos atan2 m adc).drive := by
  unfold focCali
  cases m.drive.foc.lo.eCali with
  | init => exact limited.setFoc _
  | cw | ccw => exact (limited.enable sin cos atan2 timed bus).setFoc _
  | finish => exact limited.disable.setFoc _

theorem Limited.dispatched (limited : Limited c volts m.drive) (bus : BusOk c volts adc) :
    Limited c volts (dispatched sin cos atan2 m adc).drive := by
  unfold FocMachine.dispatched
  cases m.drive.foc.lo.eState with
  | cali => exact limited.cali sin cos atan2 timed bus
  | enable => exact limited.enable sin cos atan2 timed bus
  | disable => exact limited.disable
  | ready | null => exact limited

theorem Limited.step (limited : Limited c volts m.drive) (act : Act)
    (bus : ∀ reading, act = .exec reading → BusOk c volts reading.adc) :
    Limited c volts (step sin cos atan2 m act).drive := by
  cases act with
  | exec reading =>
    have acted := (limited.setFoc (focRotorCal { m.drive.foc with
      lo := { m.drive.foc.lo with execCnt := m.drive.foc.lo.execCnt + 1 } } reading.theta)).dispatched sin cos atan2
      timed (bus reading rfl)
    exact { acted with }
  | state | theta | mode | refId => exact limited.setFoc _
  | obs | refs | voltage => exact { limited with }

theorem Limited.run (limited : Limited c volts m.drive) (acts : List Act)
    (bus : ∀ reading, .exec reading ∈ acts → BusOk c volts reading.adc) :
    Limited c volts (run sin cos atan2 m acts).drive := by
  induction acts generalizing m with
  | nil => exact limited
  | cons act acts ih =>
    have first := limited.step sin cos atan2 timed act fun reading eq => bus reading (eq ▸ List.mem_cons_self)
    exact ih first fun reading mem => bus reading (List.mem_cons_of_mem _ mem)

end Calls

/-- Nothing has run yet. -/
structure AtRest (d : Drive) : Prop where
  vel : d.velPid.val = 0 ∧ d.velPid.kiOut = 0
  pos : d.posPid.val = 0 ∧ d.posPid.kiOut = 0
  id : d.idPid.val = 0 ∧ d.idPid.kiOut = 0
  iq : d.iqPid.val = 0 ∧ d.iqPid.kiOut = 0
  out : d.out = noOut

theorem Within.rest {pid : Pid} (rest : pid.val = 0 ∧ pid.kiOut = 0) (out : 0 ≤ pid.cfg.outMax)
    (kiOut : 0 ≤ pid.cfg.kiOutMax) : Within pid :=
  ⟨(congrArg abs rest.1).trans_le (abs_zero.trans_le out), (congrArg abs rest.2).trans_le (abs_zero.trans_le kiOut)⟩

/-- From `foc_init` on, whatever is commanded and whatever the currents and the angle read, the controllers of the speed,
the position and the currents stay within their limits, those of the currents within what the bus voltage can give, and
the duties within those of the timer. -/
theorem drive_limited (cfg : InitCfg) (rest : AtRest m.drive) (volts : ℚ) (nonneg : 0 ≤ volts)
    (vel : 0 ≤ cfg.velCfg.outMax ∧ 0 ≤ cfg.velCfg.kiOutMax) (pos : 0 ≤ cfg.posCfg.outMax ∧ 0 ≤ cfg.posCfg.kiOutMax)
    (timed : Timed cfg.derived.pwm) (acts : List Act)
    (bus : ∀ reading, .exec reading ∈ acts → BusOk cfg.derived volts reading.adc) :
    Limited cfg.derived volts (run sin cos atan2 (focInit cfg sin cos m) acts).drive := by
  have start : Limited cfg.derived volts (focInit cfg sin cos m).drive := {
    cfg := rfl
    vel := .rest rest.vel vel.1 vel.2
    pos := .rest rest.pos pos.1 pos.2
    id := ⟨.rest rest.id le_rfl le_rfl, nonneg, nonneg⟩
    iq := ⟨.rest rest.iq le_rfl le_rfl, nonneg, nonneg⟩
    duty := by
      rw [focInit, rest.out]
      exact ⟨.inl rfl, .inl rfl, .inl rfl⟩
    count := by
      rw [focInit, rest.out]
      exact noOut_count _ }
  exact start.run sin cos atan2 timed acts bus

/-- A drive of 24 V with the sliding-mode observer. -/
def parked : Machine where
  drive := bench
  obs := ⟨.smo, SmoObs.still, HfiObs.zeroed HfiObs.probe, LbgObs.steady, 0, 0, 0, fun _ => 0, fun _ => 0⟩

/-- A bus of 50 V full scale, and a timer of 1000 counts. -/
def parkedCfg : InitCfg where
  foc := bench.foc.cfg
  drive := { bench.cfg with pwm := ⟨0, 0.05, 0.95⟩ }
  adcFullCnt := 4096
  curRange := 40
  vbusRange := 50
  timerFreq := 10000000
  pwmFreq := 10000
  rs := 1
  ld := 1
  wc := 1
  j := 1
  maxTor := 1
  cur2tor := fun _ => 0
  tor2cur := fun _ => 0
  velCfg := ⟨1, 1, 1, 0, 5, 5⟩
  posCfg := ⟨1, 1, 0, 0, 0, 20⟩
  pdCfg := ⟨1, 1, 0, 0, 0, 0⟩

theorem drive_limited_parked :
    Limited parkedCfg.derived 28 (run (fun _ => 0) (fun _ => 1) (fun _ _ => 0)
      (focInit parkedCfg (fun _ => 0) (fun _ => 1) parked)
      [.exec benchSample, .mode .pos, .exec benchSample, .state .disable]).drive := by
  have bus : BusOk parkedCfg.derived 28 benchSample.adc := by
    have full : BitVec.toNat (4096 : U32) = 4096 := rfl
    norm_num [BusOk, supply, InitCfg.derived, parkedCfg, benchSample, sqrt3, full]
  refine drive_limited _ _ _ parkedCfg (m := parked) ⟨⟨rfl, rfl⟩, ⟨rfl, rfl⟩, ⟨rfl, rfl⟩, ⟨rfl, rfl⟩, rfl⟩ 28 (by norm_num)
    (by norm_num [parkedCfg]) (by norm_num [parkedCfg]) ⟨?_, ?_, ?_⟩ _ fun reading mem => ?_
  · norm_num [InitCfg.derived, parkedCfg]
  · norm_num [InitCfg.derived, parkedCfg]
  · norm_num [InitCfg.derived, parkedCfg]
  · have eq : reading = benchSample := by simpa using mem
    exact eq ▸ bus

end Run

end AvaModule.FocMachine
