import AvaModule.Foc.Model
import AvaModule.Lib.RampHold

/-! One call of `foc_exec` during a calibration: the chain of the angle sensor, and the turns. -/
namespace AvaModule.FocDrive

variable {s foc : Foc} {r : Reading} {cfg : FocCfg} {phase : FocCali} {p : RampHold.State ℚ} {cnt : U32} {sum : ℚ}
  {samples : List Sample} {k : Nat}

section Chain

/-- What the sensor angles to come depend on, beside the configuration. -/
structure Sensor where
  pll : Pll
  omega : ℚ

def Foc.sensor (foc : Foc) : Sensor := ⟨foc.lo.pll, foc.rotor.sensorOmega⟩

/-- What the total angle is computed from, and the total angle. -/
@[ext]
structure Position where
  cycleCnt : Int
  prevTheta : ℚ
  totalTheta : ℚ

def Foc.position (foc : Foc) : Position := ⟨foc.rotor.mechCycleCnt, foc.rotor.mechPrevTheta, foc.rotor.mechTotalTheta⟩

/-- The angle of a reading. -/
def Sensor.angle (cfg : FocCfg) (sensor : Sensor) (theta : ℚ) : ℚ :=
  warpTau (theta * cfg.npp.toNat - cfg.thetaOffset + cfg.sensorThetaCompGain * sensor.omega / cfg.execFreq)

def Sensor.next (cfg : FocCfg) (sensor : Sensor) (theta : ℚ) : Sensor :=
  let pll := pllExecThetaIn sensor.pll (sensor.angle cfg theta)
  ⟨pll, pll.lpfOmega⟩

/-- The state in which a call enters its switch. -/
def entered (foc : Foc) (r : Reading) : Foc :=
  focRotorCal { foc with lo := { foc.lo with execCnt := foc.lo.execCnt + 1 } } r.theta

/-- The state of the drive picks what is done. -/
def dispatched (foc : Foc) (adc : AdcRaw) : Foc :=
  match foc.lo.eState with
  | .cali => focCali foc adc
  | .ready => focReady foc
  | .disable => focDisable foc
  | .enable => focEnable foc adc
  | .null => foc

theorem focExec_eq (foc : Foc) (r : Reading) : focExec foc r = focGetFdb (dispatched (entered foc r) r.adc) := rfl

@[simp] theorem entered_cfg : (entered foc r).cfg = foc.cfg := rfl

@[simp] theorem entered_eState : (entered foc r).lo.eState = foc.lo.eState := rfl

@[simp] theorem entered_eCali : (entered foc r).lo.eCali = foc.lo.eCali := rfl

@[simp] theorem entered_adcCaliCnt : (entered foc r).lo.adcCaliCnt = foc.lo.adcCaliCnt := rfl

@[simp] theorem entered_thetaCaliCnt : (entered foc r).lo.thetaCaliCnt = foc.lo.thetaCaliCnt := rfl

@[simp] theorem entered_thetaCaliHoldCnt : (entered foc r).lo.thetaCaliHoldCnt = foc.lo.thetaCaliHoldCnt := rfl

@[simp] theorem entered_thetaOffsetSum : (entered foc r).lo.thetaOffsetSum = foc.lo.thetaOffsetSum := rfl

@[simp] theorem entered_samples : (entered foc r).lo.samples = foc.lo.samples := rfl

@[simp] theorem entered_forceTheta : (entered foc r).rotor.forceTheta = foc.rotor.forceTheta := by
  unfold entered focRotorCal
  dsimp only
  split <;> rfl

@[simp] theorem entered_forceOmega : (entered foc r).rotor.forceOmega = foc.rotor.forceOmega := by
  unfold entered focRotorCal
  dsimp only
  split <;> rfl

@[simp] theorem entered_sensorTheta : (entered foc r).rotor.sensorTheta = foc.sensor.angle foc.cfg r.theta := by
  unfold entered focRotorCal
  dsimp only
  split <;> rfl

@[simp] theorem entered_sensor : (entered foc r).sensor = foc.sensor.next foc.cfg r.theta := by
  unfold entered focRotorCal Foc.sensor
  dsimp only
  split <;> rfl

end Chain

section Parts
variable {adc : AdcRaw}

@[simp] theorem focSelectTheta_cfg : (focSelectTheta foc).cfg = foc.cfg := by
  unfold focSelectTheta
  split <;> rfl

@[simp] theorem focSelectTheta_lo : (focSelectTheta foc).lo = foc.lo := by
  unfold focSelectTheta
  split <;> rfl

@[simp] theorem focSelectTheta_forceTheta : (focSelectTheta foc).rotor.forceTheta = foc.rotor.forceTheta := by
  unfold focSelectTheta
  split <;> rfl

@[simp] theorem focSelectTheta_forceOmega : (focSelectTheta foc).rotor.forceOmega = foc.rotor.forceOmega := by
  unfold focSelectTheta
  split <;> rfl

@[simp] theorem focSelectTheta_sensorTheta : (focSelectTheta foc).rotor.sensorTheta = foc.rotor.sensorTheta := by
  unfold focSelectTheta
  split <;> rfl

@[simp] theorem focSelectTheta_sensorOmega : (focSelectTheta foc).rotor.sensorOmega = foc.rotor.sensorOmega := by
  unfold focSelectTheta
  split <;> rfl

@[simp] theorem focEnable_cfg : (focEnable foc adc).cfg = foc.cfg := focSelectTheta_cfg

@[simp] theorem focEnable_lo : (focEnable foc adc).lo = foc.lo := focSelectTheta_lo

@[simp] theorem focEnable_forceTheta : (focEnable foc adc).rotor.forceTheta = foc.rotor.forceTheta :=
  focSelectTheta_forceTheta

@[simp] theorem focEnable_forceOmega : (focEnable foc adc).rotor.forceOmega = foc.rotor.forceOmega :=
  focSelectTheta_forceOmega

@[simp] theorem focEnable_sensorTheta : (focEnable foc adc).rotor.sensorTheta = foc.rotor.sensorTheta :=
  focSelectTheta_sensorTheta

@[simp] theorem focEnable_sensorOmega : (focEnable foc adc).rotor.sensorOmega = foc.rotor.sensorOmega :=
  focSelectTheta_sensorOmega

theorem focExec_cali (cali : foc.lo.eState = .cali) :
    focExec foc r = focGetFdb (focCali (entered foc r) r.adc) := by
  rw [focExec_eq, dispatched, show (entered foc r).lo.eState = .cali from cali]

theorem focExec_ready (ready : foc.lo.eState = .ready) : focExec foc r = focGetFdb (entered foc r) := by
  rw [focExec_eq, dispatched, show (entered foc r).lo.eState = .ready from ready]
  rfl

end Parts

end AvaModule.FocDrive
