import AvaModule.Foc.Current
import AvaModule.Obs.Hfi
import AvaModule.Obs.Lbg
import AvaModule.Obs.Smo

/-! The whole of foc/foc.h, with the observers of foc/focobs.h and the torques that they read. -/
namespace AvaModule.FocMachine
open FocDrive FocCurrent SmoObs HfiObs LbgObs

/-- `foc_obs_e` -/
inductive FocObs where
  | null
  | smo
  | hfi
  | lbg
  deriving DecidableEq

/-- The observers, and what only they and the torques need. -/
structure Observers where
  eObs : FocObs
  smo : Smo
  hfi : Hfi
  lbg : Lbg
  fusionThetaErr : ℚ
  elecTor : ℚ
  loadTor : ℚ
  cur2tor : Nat → ℚ
  tor2cur : Nat → ℚ

/-- `foc_t` -/
structure Machine where
  drive : Drive
  obs : Observers

/-- The rest of `foc_cfg_t` that `foc_init` reads. -/
structure InitCfg where
  foc : FocCfg
  drive : DriveCfg
  adcFullCnt : U32
  curRange : ℚ
  vbusRange : ℚ
  timerFreq : U32
  pwmFreq : U32
  rs : ℚ
  ld : ℚ
  wc : ℚ
  j : ℚ
  maxTor : ℚ
  cur2tor : Nat → ℚ
  tor2cur : Nat → ℚ
  velCfg : PidCfg
  posCfg : PidCfg
  pdCfg : PidCfg

section Init
variable (cfg : InitCfg)

/-- The conversions and the timer's count that `foc_init` works out. -/
def InitCfg.derived : DriveCfg :=
  { cfg.drive with
    adc2cur := cfg.curRange / cfg.adcFullCnt.toNat
    adc2vbus := cfg.vbusRange / cfg.adcFullCnt.toNat
    pwm := { cfg.drive.pwm with pwmFullCnt := cfg.timerFreq / cfg.pwmFreq } }

/-- `cur_pid_cfg` -/
def InitCfg.curCfg : PidCfg where
  fs := cfg.foc.execFreq / cfg.drive.curDiv.toNat
  kp := cfg.wc * cfg.ld
  ki := cfg.wc * cfg.rs
  kd := 0
  kiOutMax := 0
  outMax := 0

/-- A configuration of a controller that runs once in `div` calls. -/
def InitCfg.divided (pidCfg : PidCfg) (div : U32) : PidCfg := { pidCfg with fs := cfg.foc.execFreq / div.toNat }

def focInit (sin cos : ℚ → ℚ) (m : Machine) : Machine where
  drive := { m.drive with
    cfg := cfg.derived
    foc :=
      let pll := { m.drive.foc.lo.pll with cfg := { m.drive.foc.lo.pll.cfg with fs := cfg.foc.execFreq } }
      { m.drive.foc with cfg := cfg.foc, lo := { m.drive.foc.lo with pll := pllInit pll pll.cfg } }
    pdPid := pidInit m.drive.pdPid (cfg.divided cfg.pdCfg cfg.drive.pdDiv)
    velPid := pidInit m.drive.velPid (cfg.divided cfg.velCfg cfg.drive.velDiv)
    posPid := pidInit m.drive.posPid (cfg.divided cfg.posCfg cfg.drive.posDiv)
    idPid := pidInit m.drive.idPid cfg.curCfg
    iqPid := pidInit m.drive.iqPid cfg.curCfg }
  obs := { m.obs with
    cur2tor := cfg.cur2tor
    tor2cur := cfg.tor2cur
    smo := smoInit m.obs.smo { m.obs.smo.cfg with fs := cfg.foc.execFreq, rs := cfg.rs, ld := cfg.ld, lq := cfg.drive.lq }
    hfi := hfiInit sin cos m.obs.hfi { m.obs.hfi.cfg with fs := cfg.foc.execFreq }
    lbg := lbgInit m.obs.lbg
      { m.obs.lbg.cfg with fs := cfg.foc.execFreq, npp := cfg.foc.npp, j := cfg.j, maxTor := cfg.maxTor } }

end Init

def Machine.setRotor (m : Machine) (rotor : Rotor) : Machine :=
  { m with drive := { m.drive with foc := { m.drive.foc with rotor } } }

/-- An observer's angle and speed. -/
def Machine.observed (m : Machine) (obsTheta obsOmega : ℚ) : Machine :=
  m.setRotor { m.drive.foc.rotor with obsTheta, obsOmega }

/-- A polynomial of `motor_cfg` on the magnitude, with the sign of its argument. -/
def signedPoly (coeffs : Nat → ℚ) (x : ℚ) : ℚ := cpysgn (polyEval coeffs 3 |x|) x

section Trigonometry
variable (sin cos : ℚ → ℚ) (atan2 : ℚ → ℚ → ℚ)

def focObsIAb (m : Machine) : Machine :=
  match m.obs.eObs with
  | .smo =>
    let smo := smoExecIn sin cos atan2 m.obs.smo m.drive.iAb m.drive.out.vAb
    { m with obs := { m.obs with smo } }.observed smo.estTheta smo.estOmega
  | .null | .hfi | .lbg => m

def focObsIDq (m : Machine) : Machine :=
  match m.obs.eObs with
  | .hfi =>
    if m.drive.foc.lo.eState ≠ .enable then m
    else
      let hfi := hfiExecIn sin cos m.obs.hfi m.drive.iDq
      let m := { m with obs := { m.obs with hfi } }.observed hfi.estTheta hfi.estOmega
      let lo := { m.drive.foc.lo with refId := hfi.id }
      { m with drive := { m.drive with foc := { m.drive.foc with lo } } }
  | .lbg =>
    let lbg := lbgExecIn m.obs.lbg m.drive.foc.rotor.theta m.obs.elecTor
    let loadTor := lbg.estLoadTor
    let m := { m with obs := { m.obs with lbg, loadTor } }.observed lbg.estTheta lbg.estOmega
    { m with drive := { m.drive with compIq := signedPoly m.obs.tor2cur loadTor } }
  | .null | .smo => m

def focObsVDq (m : Machine) : Machine :=
  match m.obs.eObs with
  | .hfi =>
    let vDq : Dq ℚ := ⟨m.drive.out.vDq.d + m.obs.hfi.vd, m.drive.out.vDq.q⟩
    { m with drive := { m.drive with out := { m.drive.out with vDq } } }
  | .null | .smo | .lbg => m

/-- The readings, and the currents in the frame of the stator. -/
def focSample (m : Machine) (adc : AdcRaw) : Machine :=
  let d := m.drive
  let adcRaw := { adc with iUvw := adc.iUvw.sub d.foc.cfg.adcOffset.iUvw }
  let f32IUvw : Uvw ℚ := ⟨adcRaw.iUvw.u * d.cfg.adc2cur, adcRaw.iUvw.v * d.cfg.adc2cur, adcRaw.iUvw.w * d.cfg.adc2cur⟩
  { m with drive := { d with
      foc := { d.foc with drv := true, adcRaw }
      f32IUvw
      vBus := adcRaw.vBus * d.cfg.adc2vbus
      iAb := clarke divSqrt3By2 f32IUvw d.cfg.mi } }

/-- The angle that was selected, the currents in its frame, and their torque. -/
def focTransform (m : Machine) : Machine :=
  let foc := focSelectTheta m.drive.foc
  let iDq := park sin cos m.drive.iAb foc.rotor.theta
  { m with
    drive := { m.drive with foc, iDq }
    obs := { m.obs with elecTor := signedPoly m.obs.cur2tor iDq.q } }

def focFuse (m : Machine) : Machine :=
  { m with obs := { m.obs with
      fusionThetaErr := warpPi (m.drive.foc.rotor.sensorTheta - m.drive.foc.rotor.obsTheta) } }

/-- The mode, its controllers, and what they leave to the modulation. -/
def focControl (m : Machine) : Machine := { m with drive := focModeCtl (focSelectMode m.drive) }

def focEnable (m : Machine) (adc : AdcRaw) : Machine :=
  let m := focObsIAb sin cos atan2 (focSample m adc)
  let m := focObsVDq (focControl (focFuse (focObsIDq sin cos (focTransform sin cos m))))
  { m with drive := focModulate sin cos m.drive }

/-- `RESET_OUT` clears what the observers tell, too. -/
def focDisable (m : Machine) : Machine where
  drive := FocCurrent.focDisable m.drive
  obs := { m.obs with
    smo := { m.obs.smo with estTheta := 0, estOmega := 0 }
    hfi := { m.obs.hfi with estTheta := 0, estOmega := 0, id := 0, vd := 0 } }

def Machine.setFoc (m : Machine) (foc : Foc) : Machine := { m with drive := { m.drive with foc } }

/-- What `foc_cali` does after `foc_enable` on the way forth. -/
def turnForth (foc : Foc) : Foc :=
  if foc.rotor.forceTheta ≥ tau then
    let foc := (foc.setForceTheta tau).setHoldCnt (foc.lo.thetaCaliHoldCnt + 1)
    if foc.lo.thetaCaliHoldCnt ≥ foc.cfg.thetaCaliCntMax then
      let foc := foc.addSample
      if foc.lo.thetaCaliCnt ≥ foc.cfg.npp then foc.setCali .ccw else foc.setForceTheta 0
    else foc
  else if foc.lo.thetaCaliHoldCnt = 0 then
    foc.setForceTheta (foc.rotor.forceTheta + foc.rotor.forceOmega / foc.cfg.execFreq)
  else foc

/-- And on the way back. -/
def turnBack (foc : Foc) : Foc :=
  if foc.rotor.forceTheta ≤ 0 then
    let foc := (foc.setForceTheta 0).setHoldCnt (foc.lo.thetaCaliHoldCnt + 1)
    if foc.lo.thetaCaliHoldCnt ≥ foc.cfg.thetaCaliCntMax then
      let foc := foc.addSample
      if foc.lo.thetaCaliCnt ≥ foc.cfg.npp * 2 then foc.setCali .finish else foc.setForceTheta tau
    else foc
  else if foc.lo.thetaCaliHoldCnt = 0 then
    foc.setForceTheta (foc.rotor.forceTheta - foc.rotor.forceOmega / foc.cfg.execFreq)
  else foc

def focCali (m : Machine) (adc : AdcRaw) : Machine :=
  match m.drive.foc.lo.eCali with
  | .init => m.setFoc (FocDrive.focCali m.drive.foc adc)
  | .cw =>
    let m := focEnable sin cos atan2 m adc
    m.setFoc (turnForth m.drive.foc)
  | .ccw =>
    let m := focEnable sin cos atan2 m adc
    m.setFoc (turnBack m.drive.foc)
  | .finish =>
    let m := focDisable m
    m.setFoc (FocDrive.focCali m.drive.foc adc)

/-- The `switch` on `e_state`. -/
def dispatched (m : Machine) (adc : AdcRaw) : Machine :=
  match m.drive.foc.lo.eState with
  | .cali => focCali sin cos atan2 m adc
  | .ready => m
  | .disable => focDisable m
  | .enable => focEnable sin cos atan2 m adc
  | .null => m

def focExec (m : Machine) (reading : Reading) : Machine :=
  let foc := { m.drive.foc with lo := { m.drive.foc.lo with execCnt := m.drive.foc.lo.execCnt + 1 } }
  let m := dispatched sin cos atan2 (m.setFoc (focRotorCal foc reading.theta)) reading.adc
  { m with drive := FocCurrent.focGetFdb m.drive }

/-- What happens to the drive: a call, or a field that the application writes between two calls. -/
inductive Act where
  | state (eState : FocState)
  | theta (eTheta : FocTheta)
  | mode (eMode : FocMode)
  | obs (eObs : FocObs)
  | refs (refPvct : RefPvct)
  | refId (refId : ℚ)
  | voltage (vDq : Dq ℚ)
  | exec (reading : Reading)

def step (m : Machine) : Act → Machine
  | .state eState => m.setFoc { m.drive.foc with lo := { m.drive.foc.lo with eState } }
  | .theta eTheta => m.setFoc { m.drive.foc with lo := { m.drive.foc.lo with eTheta } }
  | .mode eMode => m.setFoc { m.drive.foc with lo := { m.drive.foc.lo with eMode } }
  | .obs eObs => { m with obs := { m.obs with eObs } }
  | .refs refPvct => { m with drive := { m.drive with refPvct } }
  | .refId refId => m.setFoc { m.drive.foc with lo := { m.drive.foc.lo with refId } }
  | .voltage vDq => { m with drive := { m.drive with out := { m.drive.out with vDq } } }
  | .exec reading => focExec sin cos atan2 m reading

def run (m : Machine) (acts : List Act) : Machine := acts.foldl (step sin cos atan2) m

end Trigonometry

end AvaModule.FocMachine
