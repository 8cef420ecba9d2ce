import AvaModule.Filter.Pll

/-! `foc_exec` with the calibration of foc/foccali.h, in exact arithmetic. The controllers,
observers and outputs of `foc_enable` and `foc_disable` are left out: nothing here reads them. -/
namespace AvaModule.FocDrive

abbrev U32 := BitVec 32

/-- Addition of `i32`. -/
def addI32 (x y : Int) : Int := (x + y).bmod (2 ^ 32)

def subI32 (x y : Int) : Int := (x - y).bmod (2 ^ 32)

/-- `i32_uvw_t` -/
@[ext]
structure I32Uvw where
  u : Int
  v : Int
  w : Int
  deriving DecidableEq

/-- `UVW_ADD_VEC_IP` -/
def I32Uvw.add (x y : I32Uvw) : I32Uvw := ⟨addI32 x.u y.u, addI32 x.v y.v, addI32 x.w y.w⟩

/-- `UVW_SUB_VEC_IP` -/
def I32Uvw.sub (x y : I32Uvw) : I32Uvw := ⟨subI32 x.u y.u, subI32 x.v y.v, subI32 x.w y.w⟩

def I32Uvw.shiftRight (x : I32Uvw) (n : Nat) : I32Uvw := ⟨x.u >>> n, x.v >>> n, x.w >>> n⟩

structure AdcRaw where
  iUvw : I32Uvw
  vBus : Int

/-- What `f_get_adc` and `f_get_theta` return during a call. -/
structure Reading where
  adc : AdcRaw
  theta : ℚ

inductive FocState where
  | null
  | cali
  | ready
  | disable
  | enable
  deriving DecidableEq

inductive FocTheta where
  | null
  | force
  | sensor
  | sensorless
  | sensorfusion
  deriving DecidableEq

inductive FocCali where
  | init
  | cw
  | ccw
  | finish
  deriving DecidableEq

inductive FocMode where
  | null
  | vol
  | cur
  | vel
  | pos
  | pd
  | asc
  deriving DecidableEq

structure FocCfg where
  execFreq : ℚ
  npp : U32
  adcCaliCntMax : U32
  thetaCaliCntMax : U32
  adcOffset : AdcRaw
  thetaOffset : ℚ
  refThetaCaliId : ℚ
  refThetaCaliOmega : ℚ
  sensorThetaCompGain : ℚ

structure Rotor where
  theta : ℚ
  omega : ℚ
  forceTheta : ℚ
  forceOmega : ℚ
  sensorTheta : ℚ
  sensorCompTheta : ℚ
  sensorOmega : ℚ
  obsTheta : ℚ
  obsOmega : ℚ
  mechCycleCnt : Int
  mechTheta : ℚ
  mechPrevTheta : ℚ
  mechTotalTheta : ℚ
  mechOmega : ℚ

/-- A reading that was added to `theta_offset_sum`. -/
structure Sample where
  phase : FocCali
  forceTheta : ℚ
  sensorTheta : ℚ

/-- `samples` is kept for the record. -/
structure FocLo where
  execCnt : U32
  adcCaliCnt : U32
  thetaCaliCnt : U32
  thetaCaliHoldCnt : U32
  thetaOffsetSum : ℚ
  samples : List Sample
  fdbPos : ℚ
  fdbVel : ℚ
  refId : ℚ
  eState : FocState
  eTheta : FocTheta
  eMode : FocMode
  eCali : FocCali
  pll : Pll

structure Foc where
  cfg : FocCfg
  adcRaw : AdcRaw
  rotor : Rotor
  lo : FocLo
  drv : Bool

def focRotorCal (foc : Foc) (mechTheta : ℚ) : Foc :=
  let mechCycleCnt :=
    if mechTheta - foc.rotor.mechPrevTheta < -tau * 0.5 then addI32 foc.rotor.mechCycleCnt 1
    else if mechTheta - foc.rotor.mechPrevTheta > tau * 0.5 then subI32 foc.rotor.mechCycleCnt 1
    else foc.rotor.mechCycleCnt
  let mechTotalTheta := mechCycleCnt * tau + mechTheta
  let sensorCompTheta := foc.cfg.sensorThetaCompGain * foc.rotor.sensorOmega / foc.cfg.execFreq
  let sensorTheta := warpTau (mechTheta * foc.cfg.npp.toNat - foc.cfg.thetaOffset + sensorCompTheta)
  let pll := pllExecThetaIn foc.lo.pll sensorTheta
  let sensorOmega := pll.lpfOmega
  let mechOmega := sensorOmega / foc.cfg.npp.toNat
  let rotor := { foc.rotor with
    mechTheta, mechCycleCnt, mechTotalTheta, sensorTheta, sensorCompTheta, sensorOmega, mechOmega
    mechPrevTheta := mechTheta }
  let rotor := if foc.lo.eTheta = .sensor then { rotor with theta := sensorTheta, omega := sensorOmega } else rotor
  { foc with rotor, lo := { foc.lo with pll } }

def focSelectTheta (foc : Foc) : Foc :=
  match foc.lo.eTheta with
  | .force => { foc with rotor := { foc.rotor with theta := foc.rotor.forceTheta, omega := foc.rotor.forceOmega } }
  | .sensor => { foc with rotor := { foc.rotor with theta := foc.rotor.sensorTheta, omega := foc.rotor.sensorOmega } }
  | .sensorless => { foc with rotor := { foc.rotor with theta := foc.rotor.obsTheta, omega := foc.rotor.obsOmega } }
  | .sensorfusion | .null => foc

def focEnable (foc : Foc) (adc : AdcRaw) : Foc :=
  let adcRaw := { adc with iUvw := adc.iUvw.sub foc.cfg.adcOffset.iUvw }
  focSelectTheta { foc with drv := true, adcRaw }

def focDisable (foc : Foc) : Foc := { foc with drv := false }

def focReady (foc : Foc) : Foc := foc

def mebusy : Int := 2

/-- `LF` -/
def lf (n : U32) : U32 := 1#32 <<< n.toNat

def focAdcCali (foc : Foc) (adc : AdcRaw) : Int × Foc :=
  let sum := foc.cfg.adcOffset.iUvw.add adc.iUvw
  let adcCaliCnt := foc.lo.adcCaliCnt + 1
  let foc := { foc with drv := true, adcRaw := adc, lo := { foc.lo with adcCaliCnt } }
  if adcCaliCnt ≥ lf foc.cfg.adcCaliCntMax then
    let iUvw := sum.shiftRight foc.cfg.adcCaliCntMax.toNat
    (0, { foc with cfg := { foc.cfg with adcOffset := { foc.cfg.adcOffset with iUvw } }, drv := false })
  else (-mebusy, { foc with cfg := { foc.cfg with adcOffset := { foc.cfg.adcOffset with iUvw := sum } } })

def Foc.setForceTheta (foc : Foc) (forceTheta : ℚ) : Foc := { foc with rotor := { foc.rotor with forceTheta } }

def Foc.setHoldCnt (foc : Foc) (thetaCaliHoldCnt : U32) : Foc := { foc with lo := { foc.lo with thetaCaliHoldCnt } }

def Foc.setCali (foc : Foc) (eCali : FocCali) : Foc := { foc with lo := { foc.lo with eCali } }

/-- The reading is added, and the turn counted. -/
def Foc.addSample (foc : Foc) : Foc :=
  { foc with lo := { foc.lo with
      thetaOffsetSum := foc.lo.thetaOffsetSum + foc.rotor.sensorTheta
      samples := foc.lo.samples ++ [⟨foc.lo.eCali, foc.rotor.forceTheta, foc.rotor.sensorTheta⟩]
      thetaCaliHoldCnt := 0
      thetaCaliCnt := foc.lo.thetaCaliCnt + 1 } }

def focCali (foc : Foc) (adc : AdcRaw) : Foc :=
  match foc.lo.eCali with
  | .init =>
      let (ret, foc) := focAdcCali foc adc
      if ret < 0 then foc
      else
        { foc with
          rotor := { foc.rotor with forceOmega := foc.cfg.refThetaCaliOmega }
          lo := { foc.lo with refId := foc.cfg.refThetaCaliId, eMode := .cur, eTheta := .force, eCali := .cw } }
  | .cw =>
      let foc := focEnable foc adc
      if foc.rotor.forceTheta ≥ tau then
        let foc := (foc.setForceTheta tau).setHoldCnt (foc.lo.thetaCaliHoldCnt + 1)
        if foc.lo.thetaCaliHoldCnt ≥ foc.cfg.thetaCaliCntMax then
          let foc := foc.addSample
          if foc.lo.thetaCaliCnt ≥ foc.cfg.npp then foc.setCali .ccw else foc.setForceTheta 0
        else foc
      else if foc.lo.thetaCaliHoldCnt = 0 then
        foc.setForceTheta (foc.rotor.forceTheta + foc.rotor.forceOmega / foc.cfg.execFreq)
      else foc
  | .ccw =>
      let foc := focEnable foc adc
      if foc.rotor.forceTheta ≤ 0 then
        let foc := (foc.setForceTheta 0).setHoldCnt (foc.lo.thetaCaliHoldCnt + 1)
        if foc.lo.thetaCaliHoldCnt ≥ foc.cfg.thetaCaliCntMax then
          let foc := foc.addSample
          if foc.lo.thetaCaliCnt ≥ foc.cfg.npp * 2 then foc.setCali .finish else foc.setForceTheta tau
        else foc
      else if foc.lo.thetaCaliHoldCnt = 0 then
        foc.setForceTheta (foc.rotor.forceTheta - foc.rotor.forceOmega / foc.cfg.execFreq)
      else foc
  | .finish =>
      let foc := focDisable foc
      { foc with
        cfg := { foc.cfg with thetaOffset := foc.lo.thetaOffsetSum / foc.lo.thetaCaliCnt.toNat }
        rotor := { foc.rotor with forceTheta := 0, forceOmega := 0 }
        lo := { foc.lo with
          adcCaliCnt := 0, thetaCaliCnt := 0, refId := 0, eMode := .null, eTheta := .null, eState := .ready } }

def focGetFdb (foc : Foc) : Foc :=
  { foc with lo := { foc.lo with fdbPos := foc.rotor.mechTotalTheta, fdbVel := foc.rotor.mechOmega } }

def focExec (foc : Foc) (reading : Reading) : Foc :=
  let foc := { foc with lo := { foc.lo with execCnt := foc.lo.execCnt + 1 } }
  let foc := focRotorCal foc reading.theta
  let foc :=
    match foc.lo.eState with
    | .cali => focCali foc reading.adc
    | .ready => focReady foc
    | .disable => focDisable foc
    | .enable => focEnable foc reading.adc
    | .null => foc
  focGetFdb foc

end AvaModule.FocDrive
