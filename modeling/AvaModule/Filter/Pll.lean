import AvaModule.Util.MathDef

/-! filter/pll.h, for an angle or its error as the input. -/
namespace AvaModule

structure PllCfg where
  fs : ℚ
  wc : ℚ
  damp : ℚ
  lpfFc : ℚ
  ffdLpfFc : ℚ
  kp : ℚ
  ki : ℚ
  deriving DecidableEq

/-- `cfg`, `in`, `out` and `lo` of `pll_filter_t`; `loCfg` is the copy that `CFG_CHECK` reads
and nothing writes. -/
structure Pll where
  cfg : PllCfg
  inTheta : ℚ
  theta : ℚ
  omega : ℚ
  lpfOmega : ℚ
  loCfg : PllCfg
  kiOut : ℚ
  prevTheta : ℚ
  thetaErr : ℚ
  ffdOmega : ℚ
  lpfFfdOmega : ℚ

def pllInit (pll : Pll) (pllCfg : PllCfg) : Pll :=
  { pll with cfg := { pllCfg with
      kp := 2 * pllCfg.wc * pllCfg.damp
      ki := pllCfg.wc * pllCfg.wc
      ffdLpfFc := 0.5 * pllCfg.lpfFc } }

def pllExec (pll : Pll) : Pll :=
  let pll := if pll.cfg ≠ pll.loCfg then pllInit pll pll.cfg else pll
  let kiOut := integrator pll.kiOut pll.thetaErr pll.cfg.ki pll.cfg.fs
  let omega := pll.cfg.kp * pll.thetaErr + kiOut
  let lpfOmega := lowpass pll.lpfOmega omega pll.cfg.lpfFc pll.cfg.fs
  let theta := warpTau (integrator pll.theta omega 1 pll.cfg.fs)
  { pll with kiOut, omega, lpfOmega, theta }

def pllExecThetaIn (pll : Pll) (theta : ℚ) : Pll :=
  let ffdOmega := thetaDerivative theta pll.prevTheta 1 pll.cfg.fs
  let lpfFfdOmega := lowpass pll.lpfFfdOmega ffdOmega pll.cfg.ffdLpfFc pll.cfg.fs
  let thetaErr := warpPi (theta - pll.theta)
  pllExec { pll with inTheta := theta, prevTheta := theta, ffdOmega, lpfFfdOmega, thetaErr }

def pllExecThetaErrIn (pll : Pll) (thetaErr : ℚ) : Pll := pllExec { pll with thetaErr := warpPi thetaErr }

end AvaModule
