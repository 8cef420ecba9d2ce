import AvaModule.Util.MathDef

/-! filter/iir.h. The trigonometric functions of the target are parameters. -/
namespace AvaModule

/-- `iir_order_e`, and any other value. -/
inductive IirOrder where
  | other
  | iir1
  | iir2
  deriving DecidableEq

inductive IirType where
  | lowpass
  | highpass
  | bandpass
  deriving DecidableEq

structure IirCfg where
  fs : ℚ
  fc : ℚ
  q : ℚ
  order : IirOrder
  type : IirType
  deriving DecidableEq

/-- `cfg`, `in`, `out` and `lo` of `iir_filter_t`; nothing writes `loCfg`. -/
structure Iir where
  cfg : IirCfg
  x : ℚ
  y : ℚ
  loCfg : IirCfg
  rc : ℚ
  normalA0 : ℚ
  normalA1 : ℚ
  normalA2 : ℚ
  normalA3 : ℚ
  normalA4 : ℚ
  x1 : ℚ
  x2 : ℚ
  y1 : ℚ
  y2 : ℚ
  w0 : ℚ
  sinW0 : ℚ
  cosW0 : ℚ
  alpha : ℚ
  b0 : ℚ
  b1 : ℚ
  b2 : ℚ
  a0 : ℚ
  a1 : ℚ
  a2 : ℚ

/-- A zeroed filter. -/
def Iir.zeroed : Iir :=
  ⟨⟨0, 0, 0, .other, .lowpass⟩, 0, 0, ⟨0, 0, 0, .other, .lowpass⟩,
    0, 0, 0, 0, 0, 0, 0, 0, 0, 0, 0, 0, 0, 0, 0, 0, 0, 0, 0, 0⟩

section Trigonometry
variable (sin cos : ℚ → ℚ)

def iirInit1 (iir : Iir) : Iir :=
  let rc := 1 / (tau * iir.cfg.fc)
  let alpha := 1 / (1 + rc * iir.cfg.fs)
  match iir.cfg.type with
  | .lowpass => { iir with rc, alpha, b0 := alpha, b1 := 0, normalA1 := -(1 - alpha) }
  | .highpass => { iir with rc, alpha, b0 := 1 - alpha, b1 := -(1 - alpha), normalA1 := -(1 - alpha) }
  | .bandpass => { iir with rc, alpha }

def Iir.normalized (iir : Iir) : Iir :=
  { iir with
    normalA0 := iir.b0 / iir.a0
    normalA1 := iir.b1 / iir.a0
    normalA2 := iir.b2 / iir.a0
    normalA3 := iir.a1 / iir.a0
    normalA4 := iir.a2 / iir.a0 }

def iirInit2 (iir : Iir) : Iir :=
  let w0 := tau * iir.cfg.fc / iir.cfg.fs
  let sinW0 := sin w0
  let cosW0 := cos w0
  let alpha := sinW0 / (2 * iir.cfg.q)
  let iir := { iir with w0, sinW0, cosW0, alpha, a0 := 1 + alpha, a1 := -2 * cosW0, a2 := 1 - alpha }
  match iir.cfg.type with
  | .lowpass => { iir with b0 := (1 - cosW0) / 2, b1 := (1 - cosW0) / 2 * 2, b2 := (1 - cosW0) / 2 }.normalized
  | .highpass => { iir with b0 := (1 + cosW0) / 2, b1 := -((1 + cosW0) / 2) * 2, b2 := (1 + cosW0) / 2 }.normalized
  | .bandpass => { iir with b0 := alpha, b1 := 0, b2 := -alpha }.normalized

def iirInit (iir : Iir) (iirCfg : IirCfg) : Iir :=
  let iir := { iir with cfg := iirCfg }
  match iir.cfg.order with
  | .iir1 => iirInit1 iir
  | .iir2 => iirInit2 sin cos iir
  | .other => iir

def iirExec (iir : Iir) : Iir :=
  let iir := if iir.cfg ≠ iir.loCfg then iirInit sin cos iir iir.cfg else iir
  match iir.cfg.order with
  | .iir1 =>
    let y := iir.b0 * iir.x + iir.b1 * iir.x1 - iir.normalA1 * iir.y1
    { iir with y, x1 := iir.x, y1 := y }
  | .iir2 =>
    let y := iir.normalA0 * iir.x + iir.normalA1 * iir.x1 + iir.normalA2 * iir.x2 -
      iir.normalA3 * iir.y1 - iir.normalA4 * iir.y2
    { iir with y, x2 := iir.x1, x1 := iir.x, y2 := iir.y1, y1 := y }
  | .other => iir

def iirExecIn (iir : Iir) (x : ℚ) : Iir := iirExec sin cos { iir with x }

end Trigonometry

end AvaModule
