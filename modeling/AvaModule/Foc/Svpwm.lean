import AvaModule.Trans.Clarkepark
import AvaModule.Util.MathDef
import Mathlib.Algebra.Order.Floor.Semiring
import Mathlib.Algebra.Order.Archimedean.Real.Basic
import Mathlib.Analysis.Real.Sqrt
import Mathlib.Tactic.Linarith

/-! `foc_svpwm` of foc/focstate.h: the duties of the three phases. -/
namespace AvaModule.FocDrive

variable {K : Type}

/-- The fields of `periph_cfg_t` that the timer takes. -/
structure PwmCfg (K : Type) where
  pwmFullCnt : BitVec 32
  pwmMin : K
  pwmMax : K

/-- `svpwm_t` -/
structure Svpwm (K : Type) where
  vMax : K
  vMin : K
  vAvg : K
  f32PwmDuty : Uvw K
  u32PwmDuty : Uvw (BitVec 32)
  deriving DecidableEq

/-- `foc_out_t` -/
structure FocOut (K : Type) where
  vDq : Dq K
  vAb : Ab K
  vAbSv : Ab K
  f32VUvw : Uvw K
  svpwm : Svpwm K
  deriving DecidableEq

variable [Field K] [LinearOrder K] [FloorSemiring K]

/-- The comparisons that find the largest and the smallest phase. -/
def maxMin (v : Uvw K) : K × K :=
  let (vMax, vMin) := if v.u > v.v then (v.u, v.v) else (v.v, v.u)
  if v.w < vMin then (vMax, v.w) else if v.w > vMax then (v.w, vMin) else (vMax, vMin)

/-- The conversion of a duty to timer counts, which cuts the fraction off. A negative duty has the count 0
here; it has none in the source. -/
def pwmCount (pwmFullCnt : BitVec 32) (duty : K) : BitVec 32 := BitVec.ofNat 32 ⌊duty * (pwmFullCnt.toNat : K)⌋₊

def focSvpwm (divSqrt3By2 : K) (cfg : PwmCfg K) (out : FocOut K) : FocOut K :=
  let f32VUvw := invClarke divSqrt3By2 out.vAbSv
  let (vMax, vMin) := maxMin f32VUvw
  let vAvg := 0.5 * (vMax + vMin)
  let f32PwmDuty := ((f32VUvw.map (· + -vAvg)).map (· + 0.5)).map fun x => clamp x cfg.pwmMin cfg.pwmMax
  { out with f32VUvw, svpwm := ⟨vMax, vMin, vAvg, f32PwmDuty, f32PwmDuty.map (pwmCount cfg.pwmFullCnt)⟩ }

section Law
variable {divSqrt3By2 : K} {cfg : PwmCfg K} {duty : K} {v : Uvw K}

omit [Field K] [FloorSemiring K] in
theorem third_phase {lo hi w : K} (le : lo ≤ hi) :
    (if w < lo then (hi, w) else if w > hi then (w, lo) else (hi, lo)) = (max hi w, min lo w) := by
  split
  case isTrue low => rw [min_eq_right low.le, max_eq_left (low.le.trans le)]
  case isFalse not_low =>
    rw [min_eq_left (le_of_not_gt not_low)]
    split
    case isTrue high => rw [max_eq_right high.le]
    case isFalse not_high => rw [max_eq_left (le_of_not_gt not_high)]

omit [Field K] [FloorSemiring K] in
/-- The comparisons find the extremes in every order of the phases. -/
theorem maxMin_eq (v : Uvw K) : maxMin v = (max (max v.u v.v) v.w, min (min v.u v.v) v.w) := by
  unfold maxMin
  by_cases gt : v.u > v.v
  · rw [if_pos gt, max_eq_left gt.le, min_eq_right gt.le]
    exact third_phase gt.le
  · rw [if_neg gt, max_eq_right (le_of_not_gt gt), min_eq_left (le_of_not_gt gt)]
    exact third_phase (le_of_not_gt gt)

omit [Field K] [FloorSemiring K] in
theorem maxMin_all (v : Uvw K) : v.All fun x => (maxMin v).2 ≤ x ∧ x ≤ (maxMin v).1 := by
  rw [maxMin_eq]
  refine ⟨⟨?_, ?_⟩, ⟨?_, ?_⟩, ⟨?_, ?_⟩⟩ <;> simp

variable [IsStrictOrderedRing K]

theorem pwmCount_le (le : duty ≤ 1) (pwmFullCnt : BitVec 32) : pwmCount pwmFullCnt duty ≤ pwmFullCnt := by
  have scaled : duty * (pwmFullCnt.toNat : K) ≤ (pwmFullCnt.toNat : K) := mul_le_of_le_one_left (Nat.cast_nonneg _) le
  have floor : ⌊duty * (pwmFullCnt.toNat : K)⌋₊ ≤ pwmFullCnt.toNat := Nat.floor_le_of_le scaled
  rw [BitVec.le_def, pwmCount, BitVec.toNat_ofNat, Nat.mod_eq_of_lt (Nat.lt_of_le_of_lt floor pwmFullCnt.isLt)]
  exact floor

omit [FloorSemiring K] in
/-- Where the spread of the phases fits between the limits, no duty is clamped. -/
theorem clamp_phases (upper : 0.5 + ((maxMin v).1 - (maxMin v).2) / 2 ≤ cfg.pwmMax)
    (lower : cfg.pwmMin ≤ 0.5 - ((maxMin v).1 - (maxMin v).2) / 2) :
    (v.map fun x => clamp (x + -(0.5 * ((maxMin v).1 + (maxMin v).2)) + 0.5) cfg.pwmMin cfg.pwmMax) =
      v.map (· + (0.5 - 0.5 * ((maxMin v).1 + (maxMin v).2))) := by
  have half : (0.5 : K) = 1 / 2 := by norm_num
  rw [half] at *
  have phase : ∀ x, (maxMin v).2 ≤ x ∧ x ≤ (maxMin v).1 →
      clamp (x + -(1 / 2 * ((maxMin v).1 + (maxMin v).2)) + 1 / 2) cfg.pwmMin cfg.pwmMax =
        x + (1 / 2 - 1 / 2 * ((maxMin v).1 + (maxMin v).2)) := by
    intro x ⟨least, most⟩
    rw [clamp_eq_self (by linarith) (by linarith)]
    ring
  obtain ⟨u, w, w'⟩ := maxMin_all v
  exact Uvw.map_congr ⟨phase _ u, phase _ w, phase _ w'⟩

/-- From the phases of the commanded vector, the duties and counts stay within their limits, and where the spread of the
phases fits, the vector is produced exactly. -/
theorem focSvpwm_law (square : divSqrt3By2 ^ 2 = 3 / 4) (ordered : cfg.pwmMin ≤ cfg.pwmMax)
    (high : cfg.pwmMax ≤ 1) (out : FocOut K) :
    let svpwm := (focSvpwm divSqrt3By2 cfg out).svpwm
    let v := invClarke divSqrt3By2 out.vAbSv
    let vMax := max (max v.u v.v) v.w
    let vMin := min (min v.u v.v) v.w
    (focSvpwm divSqrt3By2 cfg out).f32VUvw = v ∧
    svpwm.vMax = vMax ∧ svpwm.vMin = vMin ∧ svpwm.vAvg = 0.5 * (vMax + vMin) ∧
    (svpwm.f32PwmDuty.All fun duty => cfg.pwmMin ≤ duty ∧ duty ≤ cfg.pwmMax) ∧
    (svpwm.u32PwmDuty.All fun count => count ≤ cfg.pwmFullCnt) ∧
    (0.5 + (vMax - vMin) / 2 ≤ cfg.pwmMax → cfg.pwmMin ≤ 0.5 - (vMax - vMin) / 2 →
      svpwm.f32PwmDuty = v.map (· + (0.5 - svpwm.vAvg)) ∧ clarke divSqrt3By2 svpwm.f32PwmDuty (2 / 3) = out.vAbSv) := by
  intro svpwm v vMax vMin
  have limits : svpwm.f32PwmDuty.All fun duty => cfg.pwmMin ≤ duty ∧ duty ≤ cfg.pwmMax :=
    ⟨clamp_mem ordered, clamp_mem ordered, clamp_mem ordered⟩
  have extremes : maxMin v = (vMax, vMin) := maxMin_eq v
  have counts : svpwm.u32PwmDuty.All fun count => count ≤ cfg.pwmFullCnt :=
    ⟨pwmCount_le (limits.1.2.trans high) _, pwmCount_le (limits.2.1.2.trans high) _,
      pwmCount_le (limits.2.2.2.trans high) _⟩
  have most : svpwm.vMax = (maxMin v).1 := rfl
  have least : svpwm.vMin = (maxMin v).2 := rfl
  have middle : svpwm.vAvg = 0.5 * ((maxMin v).1 + (maxMin v).2) := rfl
  rw [extremes] at most least middle
  refine ⟨rfl, most, least, middle, limits, counts, fun upper lower => ?_⟩
  have free : svpwm.f32PwmDuty = v.map (· + (0.5 - svpwm.vAvg)) :=
    clamp_phases (by rw [extremes]; exact upper) (by rw [extremes]; exact lower)
  exact ⟨free, free ▸ clarke_invClarke square out.vAbSv _⟩

end Law

section Reals
open Real

noncomputable def probeCfg : PwmCfg ℝ := ⟨1000, 0.05, 0.95⟩

/-- Half the bus voltage along the first phase. -/
noncomputable def probeOut : FocOut ℝ := ⟨⟨0, 0⟩, ⟨0, 0⟩, ⟨0.5, 0⟩, ⟨0, 0, 0⟩, ⟨0, 0, 0, ⟨0, 0, 0⟩, ⟨0, 0, 0⟩⟩⟩

theorem focSvpwm_law_half :
    clarke (√3 / 2) (focSvpwm (√3 / 2) probeCfg probeOut).svpwm.f32PwmDuty (2 / 3) = ⟨1 / 2, 0⟩ := by
  have square : (√3 / 2 : ℝ) ^ 2 = 3 / 4 := by
    rw [div_pow, sq_sqrt (by norm_num)]
    norm_num
  have ordered : probeCfg.pwmMin ≤ probeCfg.pwmMax := by norm_num [probeCfg]
  have high : probeCfg.pwmMax ≤ 1 := by norm_num [probeCfg]
  obtain ⟨-, -, -, -, -, -, exact⟩ := focSvpwm_law square ordered high probeOut
  have half : probeOut.vAbSv = ⟨1 / 2, 0⟩ := by norm_num [probeOut]
  rw [← half]
  refine (exact ?_ ?_).2
  · norm_num [invClarke, probeCfg, probeOut]
  · norm_num [invClarke, probeCfg, probeOut]

end Reals

end AvaModule.FocDrive
