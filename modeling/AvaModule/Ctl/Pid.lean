import AvaModule.Util.MathDef

/-! ctl/pid.h in exact arithmetic. -/
namespace AvaModule

structure PidCfg where
  fs : ℚ
  kp : ℚ
  ki : ℚ
  kd : ℚ
  kiOutMax : ℚ
  outMax : ℚ

/-- `cfg`, `in`, `out` and `lo` of `pid_ctl_t`. -/
structure Pid where
  cfg : PidCfg
  ref : ℚ
  fdb : ℚ
  ffd : ℚ
  val : ℚ
  err : ℚ
  prevErr : ℚ
  kpOut : ℚ
  kiOut : ℚ
  kdOut : ℚ

/-- `DERIVATIVE` without its store of `prev_val`. -/
def derivative (val prevVal gain fs : ℚ) : ℚ := gain * (val - prevVal) * fs

def pidInit (pid : Pid) (pidCfg : PidCfg) : Pid := { pid with cfg := pidCfg }

def pidExec (pid : Pid) : Pid :=
  let err := pid.ref - pid.fdb
  let kpOut := pid.cfg.kp * err
  let kiOut := clamp (integrator pid.kiOut err pid.cfg.ki pid.cfg.fs) (-pid.cfg.kiOutMax) pid.cfg.kiOutMax
  let kdOut := derivative err pid.prevErr pid.cfg.kd pid.cfg.fs
  let val := clamp (kpOut + kiOut + kdOut + pid.ffd) (-pid.cfg.outMax) pid.cfg.outMax
  { pid with err, kpOut, kiOut, kdOut, prevErr := err, val }

def pidExecIn (pid : Pid) (ref fdb ffd : ℚ) : Pid := pidExec { pid with ref, fdb, ffd }

end AvaModule
