import AvaModule.Ctl.Pid
import AvaModule.Foc.Model
import AvaModule.Foc.Svpwm

/-! `foc_enable` and `foc_disable` of foc/focstate.h with the controllers of foc/focctl.h, while `e_obs` is
`FOC_OBS_NULL`: the observers, their outputs and the torques only they read are left out. -/
namespace AvaModule.FocCurrent
open FocDrive

/-- `SQRT_3` -/
def sqrt3 : ℚ := 1.7320508

/-- `DIV_SQRT_3_BY_2` -/
def divSqrt3By2 : ℚ := 0.8660254

/-- `foc_ref_pvct_t` -/
structure RefPvct where
  pos : ℚ
  ffdVel : ℚ
  vel : ℚ
  ffdCur : ℚ
  cur : ℚ
  elecTor : ℚ

/-- The fields of `foc_cfg_t` that `FocCfg` has not. -/
structure DriveCfg where
  pwm : PwmCfg ℚ
  adc2cur : ℚ
  adc2vbus : ℚ
  mi : ℚ
  psi : ℚ
  lq : ℚ
  thetaCompGain : ℚ
  curDiv : U32
  velDiv : U32
  posDiv : U32
  pdDiv : U32

/-- `foc_t`; `foc` has its calibration, rotor and modes. -/
structure Drive where
  foc : Foc
  cfg : DriveCfg
  vBus : ℚ
  compTheta : ℚ
  f32IUvw : Uvw ℚ
  iAb : Ab ℚ
  iDq : Dq ℚ
  out : FocOut ℚ
  refPvct : RefPvct
  fdbCur : ℚ
  refIq : ℚ
  compIq : ℚ
  ffdVDq : Dq ℚ
  eLastMode : FocMode
  idPid : Pid
  iqPid : Pid
  velPid : Pid
  posPid : Pid
  pdPid : Pid
  curDivCnt : U32
  velDivCnt : U32
  posDivCnt : U32
  pdDivCnt : U32

/-- The reference that a new mode starts from. -/
def enterMode (d : Drive) : Drive :=
  let refPvct :=
    match d.foc.lo.eMode with
    | .cur => { d.refPvct with cur := 0 }
    | .vel => { d.refPvct with vel := 0 }
    | .pos | .pd => { d.refPvct with pos := d.foc.lo.fdbPos }
    | .null | .vol | .asc => d.refPvct
  { d with refPvct, eLastMode := d.foc.lo.eMode }

def focSelectMode (d : Drive) : Drive := if d.foc.lo.eMode = d.eLastMode then d else enterMode d

def focVolCtl (d : Drive) : Drive := d

/-- A current controller with the limit that the bus voltage gives it. -/
def limited (pid : Pid) (max : ℚ) : Pid := { pid with cfg := { pid.cfg with kiOutMax := max, outMax := max } }

/-- The two current controllers, and the voltages they ask for. -/
def curLoops (d : Drive) : Drive :=
  let refIq := d.refPvct.cur + d.compIq
  let max := d.vBus / sqrt3 * d.cfg.pwm.pwmMax
  let ffdVq := d.foc.rotor.omega * d.cfg.psi * 0.7
  let iqPid := pidExecIn (limited d.iqPid max) refIq d.iDq.q ffdVq
  let ffdVd := -d.foc.rotor.omega * d.cfg.lq * d.iDq.q * 0.7
  let idPid := pidExecIn (limited d.idPid max) d.foc.lo.refId d.iDq.d ffdVd
  { d with
    refIq, iqPid, idPid
    ffdVDq := ⟨ffdVd, ffdVq⟩
    out := { d.out with vDq := ⟨idPid.val, iqPid.val⟩ } }

def focCurCtl (d : Drive) : Drive :=
  let curDivCnt := d.curDivCnt + 1
  if curDivCnt < d.cfg.curDiv then { d with curDivCnt } else curLoops { d with curDivCnt := 0 }

def focVelCtl (d : Drive) : Drive :=
  let velDivCnt := d.velDivCnt + 1
  if velDivCnt < d.cfg.velDiv then { d with velDivCnt }
  else
    let velPid := pidExecIn d.velPid d.refPvct.vel d.foc.lo.fdbVel d.refPvct.ffdCur
    { d with velDivCnt := 0, velPid, refPvct := { d.refPvct with cur := velPid.val } }

def focPosCtl (d : Drive) : Drive :=
  let posDivCnt := d.posDivCnt + 1
  if posDivCnt < d.cfg.posDiv then { d with posDivCnt }
  else
    let posPid := pidExecIn d.posPid d.refPvct.pos d.foc.lo.fdbPos d.refPvct.ffdVel
    { d with posDivCnt := 0, posPid, refPvct := { d.refPvct with vel := posPid.val } }

def focPdCtl (d : Drive) : Drive :=
  let pdDivCnt := d.pdDivCnt + 1
  if pdDivCnt < d.cfg.pdDiv then { d with pdDivCnt }
  else
    let cur := d.pdPid.cfg.kp * (d.refPvct.pos - d.foc.lo.fdbPos) +
      d.pdPid.cfg.kd * (d.refPvct.vel - d.foc.lo.fdbVel) + d.refPvct.elecTor
    { d with pdDivCnt := 0, refPvct := { d.refPvct with cur } }

/-- The `switch` on `e_mode`. -/
def focModeCtl (d : Drive) : Drive :=
  match d.foc.lo.eMode with
  | .vol => focVolCtl d
  | .cur => focVolCtl (focCurCtl d)
  | .vel => focVolCtl (focCurCtl (focVelCtl d))
  | .pos => focVolCtl (focCurCtl (focVelCtl (focPosCtl d)))
  | .pd => focVolCtl (focCurCtl (focPdCtl d))
  | .asc => focVolCtl (focCurCtl d)
  | .null => d

section Trigonometry
variable (sin cos : ℚ → ℚ)

/-- `foc_enable` up to the Park transform. -/
def focMeasure (d : Drive) (adc : AdcRaw) : Drive :=
  let foc := FocDrive.focEnable d.foc adc
  let f32IUvw : Uvw ℚ :=
    ⟨foc.adcRaw.iUvw.u * d.cfg.adc2cur, foc.adcRaw.iUvw.v * d.cfg.adc2cur, foc.adcRaw.iUvw.w * d.cfg.adc2cur⟩
  let vBus := foc.adcRaw.vBus * d.cfg.adc2vbus
  let iAb := clarke divSqrt3By2 f32IUvw d.cfg.mi
  { d with foc, f32IUvw, vBus, iAb, iDq := park sin cos iAb foc.rotor.theta }

/-- `foc_enable` from the compensation of the angle on. -/
def focModulate (d : Drive) : Drive :=
  let compTheta := d.cfg.thetaCompGain * d.foc.rotor.omega / d.foc.cfg.execFreq
  let vAb := invPark sin cos d.out.vDq (d.foc.rotor.theta + compTheta)
  let vAbSv := ⟨vAb.a / d.vBus, vAb.b / d.vBus⟩
  { d with compTheta, out := focSvpwm divSqrt3By2 d.cfg.pwm { d.out with vAb, vAbSv } }

def focEnable (d : Drive) (adc : AdcRaw) : Drive :=
  focModulate sin cos (focModeCtl (focSelectMode (focMeasure sin cos d adc)))

end Trigonometry

/-- The outputs after `RESET_OUT`. -/
def noOut : FocOut ℚ := ⟨⟨0, 0⟩, ⟨0, 0⟩, ⟨0, 0⟩, ⟨0, 0, 0⟩, ⟨0, 0, 0, ⟨0, 0, 0⟩, ⟨0, 0, 0⟩⟩⟩

def focDisable (d : Drive) : Drive :=
  { d with
    foc := FocDrive.focDisable d.foc
    iAb := ⟨0, 0⟩, iDq := ⟨0, 0⟩, f32IUvw := ⟨0, 0, 0⟩
    out := noOut
    idPid := { d.idPid with val := 0 }
    iqPid := { d.iqPid with val := 0 } }

def focGetFdb (d : Drive) : Drive := { d with foc := FocDrive.focGetFdb d.foc, fdbCur := d.iDq.q }

/-- `foc_exec` while `e_state` is `FOC_STATE_ENABLE`. -/
def focExecEnabled (sin cos : ℚ → ℚ) (d : Drive) (reading : Reading) : Drive :=
  let foc := { d.foc with lo := { d.foc.lo with execCnt := d.foc.lo.execCnt + 1 } }
  focGetFdb (focEnable sin cos { d with foc := FocDrive.focRotorCal foc reading.theta } reading.adc)

end AvaModule.FocCurrent
