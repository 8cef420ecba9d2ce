import AvaModule.Foc.Outcome
import Mathlib.Algebra.BigOperators.Fin
import Mathlib.Algebra.Order.BigOperators.Group.Finset
import Mathlib.Data.BitVec

/-! The first calibration of a zeroed `foc_t`. -/
namespace AvaModule.FocDrive
open Finset (range)

variable {c : FocCfg} {pll : PllCfg} {r : Nat → Reading} {k n : Nat}

section Zeroed

/-- A configuration whose offsets are still zero. -/
def FocCfg.bare (c : FocCfg) : FocCfg := { c with adcOffset := ⟨⟨0, 0, 0⟩, 0⟩, thetaOffset := 0 }

/-- A zeroed `foc_t` with its configuration, at the start of a calibration. -/
def zeroed (c : FocCfg) (pll : PllCfg) : Foc where
  cfg := c.bare
  adcRaw := ⟨⟨0, 0, 0⟩, 0⟩
  rotor := ⟨0, 0, 0, 0, 0, 0, 0, 0, 0, 0, 0, 0, 0, 0⟩
  lo := {
    execCnt := 0
    adcCaliCnt := 0
    thetaCaliCnt := 0
    thetaCaliHoldCnt := 0
    thetaOffsetSum := 0
    samples := []
    fdbPos := 0
    fdbVel := 0
    refId := 0
    eState := .cali
    eTheta := .null
    eMode := .null
    eCali := .init
    pll := ⟨pll, 0, 0, 0, 0, ⟨0, 0, 0, 0, 0, 0, 0⟩, 0, 0, 0, 0, 0⟩ }
  drv := false

theorem zeroed_primed (c : FocCfg) (pll : PllCfg) : Primed (zeroed c pll) where
  state := rfl
  cali := rfl
  adcCnt := rfl
  thetaCnt := rfl
  hold := rfl
  force := rfl

end Zeroed

section Currents

inductive Axis where
  | u
  | v
  | w

def I32Uvw.get (x : I32Uvw) : Axis → Int
  | .u => x.u
  | .v => x.v
  | .w => x.w

variable {axis : Axis} {o x y : I32Uvw}

theorem I32Uvw.ext_get (same : ∀ axis, x.get axis = y.get axis) : x = y :=
  I32Uvw.ext (same .u) (same .v) (same .w)

@[simp] theorem I32Uvw.get_add (x y : I32Uvw) : (x.add y).get axis = addI32 (x.get axis) (y.get axis) := by
  cases axis <;> rfl

@[simp] theorem I32Uvw.get_shiftRight (x : I32Uvw) : (x.shiftRight n).get axis = x.get axis >>> n := by
  cases axis <;> rfl

/-- The currents are summed up in `i32`. -/
theorem adcSum_get (narrow : (o.get axis).bmod (2 ^ 32) = o.get axis) :
    (adcSum o r k).get axis = (o.get axis + ∑ i ∈ range k, (r i).adc.iUvw.get axis).bmod (2 ^ 32) := by
  induction k with
  | zero => simpa [adcSum] using narrow.symm
  | succ k ih =>
    rw [adcSum, I32Uvw.get_add, ih, addI32, Int.bmod_add_bmod, Finset.sum_range_succ, add_assoc]

theorem shiftRight_floor (x : Int) (n : Nat) : x >>> n = ⌊(x : ℚ) / 2 ^ n⌋ := by
  rw [Int.shiftRight_eq_div_pow]
  exact_mod_cast (Rat.floor_intCast_div_natCast x (2 ^ n)).symm

end Currents

section Claim

/-- The sum of the `2^N` currents of each phase fits in `i32`. -/
def SumsFit (c : FocCfg) (r : Nat → Reading) : Prop :=
  ∀ axis, -2 ^ 31 ≤ ∑ i ∈ range (2 ^ c.adcCaliCntMax.toNat), (r i).adc.iUvw.get axis ∧
    ∑ i ∈ range (2 ^ c.adcCaliCntMax.toNat), (r i).adc.iUvw.get axis < 2 ^ 31

def meanCurrent (c : FocCfg) (r : Nat → Reading) (axis : Axis) : ℚ :=
  (∑ i ∈ range (2 ^ c.adcCaliCntMax.toNat), (r i).adc.iUvw.get axis : ℤ) / 2 ^ c.adcCaliCntMax.toNat

/-- What a first calibration is for: the samples that were taken are `npp` in each direction,
and the offset is their mean. -/
structure Averaged (c : FocCfg) (s : Foc) : Prop where
  ready : s.lo.eState = .ready
  both : ∃ cw ccw, s.lo.samples = cw ++ ccw ∧ cw.length = c.npp.toNat ∧ ccw.length = c.npp.toNat ∧
    (∀ sample ∈ cw, sample.phase = .cw ∧ sample.forceTheta = tau) ∧
    ∀ sample ∈ ccw, sample.phase = .ccw ∧ sample.forceTheta = 0
  offset : s.cfg.thetaOffset = total s.lo.samples / (2 * c.npp.toNat)

structure Calibrates (c : FocCfg) (pll : PllCfg) (r : Nat → Reading) : Prop where
  init : ∀ k < 2 ^ c.adcCaliCntMax.toNat, (after (zeroed c pll) r k).lo.eCali = .init
  left : (after (zeroed c pll) r (2 ^ c.adcCaliCntMax.toNat)).lo.eCali = .cw
  adcOffset : ∀ axis, (after (zeroed c pll) r (2 ^ c.adcCaliCntMax.toNat)).cfg.adcOffset.iUvw.get axis =
    ⌊meanCurrent c r axis⌋
  averaged : ∃ n, Averaged c (after (zeroed c pll) r n)

theorem turnSamples_length {phase : FocCali} {sensor : Sensor} : (turnSamples c phase sensor r k n).length = n := by
  simp [turnSamples]

theorem turnSamples_forall {phase : FocCali} {sensor : Sensor} :
    ∀ sample ∈ turnSamples c phase sensor r k n, sample.phase = phase ∧ sample.forceTheta = stop phase := by
  intro sample mem
  obtain ⟨j, _, rfl⟩ := List.mem_map.mp mem
  exact ⟨rfl, rfl⟩

theorem initCalls_pow (small : c.adcCaliCntMax.toNat < 31) : initCalls c = 2 ^ c.adcCaliCntMax.toNat := by
  have bound : 2 ^ c.adcCaliCntMax.toNat < 2 ^ 32 := Nat.pow_lt_pow_right (by omega) (by omega)
  have pos : 0 < 2 ^ c.adcCaliCntMax.toNat := Nat.two_pow_pos _
  rw [initCalls, lf]
  simp only [BitVec.toNat_shiftLeft, BitVec.toNat_ofNat, Nat.shiftLeft_eq]
  omega

/-- The samples that a first calibration has taken when it is over. -/
theorem Averaged.left (averaged : Averaged c (after (zeroed c pll) r n)) :
    Finished (caliCfg (zeroed c pll) r) (caliSum (zeroed c pll) r) (caliSamples c.bare (zeroed c pll).sensor r)
      (after (zeroed c pll) r n) :=
  (zeroed_primed c pll).left averaged.ready

end Claim

section Enough
variable (pos : 0 < inc c) (npp : 1 ≤ c.npp.toNat)
include pos npp

/-- Unless `npp * 2` overflows, as many samples are taken in each direction. -/
theorem averages (small : c.npp.toNat < 2 ^ 31) : Averaged c (after (zeroed c pll) r (allCalls c.bare)) := by
  have finished : Finished (caliCfg (zeroed c pll) r) (caliSum (zeroed c pll) r)
      (caliSamples c.bare (zeroed c pll).sensor r) (after (zeroed c pll) r (allCalls c.bare)) :=
    (zeroed_primed c pll).finished pos
  have cw : cwTurns c.bare = c.npp.toNat := max_eq_right npp
  have ccw : ccwTurns c.bare = c.npp.toNat := by
    have room : ¬(2 ^ 31 ≤ c.bare.npp.toNat ∧ c.bare.npp.toNat < 2 ^ 32 - 1) := fun wide => small.not_ge wide.1
    rw [ccwTurns, if_neg room]
    exact cw
  have all : allTurns c.bare % 2 ^ 32 = 2 * c.npp.toNat := by
    rw [allTurns, cw, ccw]
    omega
  constructor
  case ready =>
    exact finished.state
  case both =>
    refine ⟨_, _, finished.samples, ?_, ?_, turnSamples_forall, turnSamples_forall⟩
    · rw [turnSamples_length, cw]
    · rw [turnSamples_length, ccw]
  case offset =>
    rw [finished.samples, finished.cfg]
    change caliSum (zeroed c pll) r / (allTurns c.bare % 2 ^ 32 : Nat) = _
    rw [all, caliSum]
    change (0 + total (caliSamples c.bare (zeroed c pll).sensor r)) / _ = _
    push_cast
    rw [zero_add]

end Enough

/-- The phase INIT keeps its part of the claim, whatever `npp` is. -/
theorem offsets_mean (small : c.adcCaliCntMax.toNat < 31) (fit : SumsFit c r) (axis : Axis) :
    (after (zeroed c pll) r (2 ^ c.adcCaliCntMax.toNat)).cfg.adcOffset.iUvw.get axis = ⌊meanCurrent c r axis⌋ := by
  have divided := (zeroed_primed c pll).divided (r := r)
  have calls : initCalls (zeroed c pll).cfg = 2 ^ c.adcCaliCntMax.toNat := initCalls_pow small
  obtain ⟨lower, upper⟩ := fit axis
  have whole : (adcSum ⟨0, 0, 0⟩ r (2 ^ c.adcCaliCntMax.toNat)).get axis =
      ∑ i ∈ range (2 ^ c.adcCaliCntMax.toNat), (r i).adc.iUvw.get axis := by
    have zero : I32Uvw.get ⟨0, 0, 0⟩ axis = 0 := by cases axis <;> rfl
    rw [adcSum_get (by rw [zero]; rfl), zero, zero_add]
    exact Int.bmod_eq_of_le (by simpa using lower) (by simpa using upper)
  rw [calls] at divided
  rw [divided.cfg]
  change ((adcSum ⟨0, 0, 0⟩ r (initCalls (zeroed c pll).cfg)).shiftRight _).get axis = _
  rw [calls, I32Uvw.get_shiftRight, whole]
  exact shiftRight_floor ..

section Steered

/-- The mechanical angle that the sensor turns into the angle `x`. -/
def aim (c : FocCfg) (x : ℚ) (sensor : Sensor) : ℚ :=
  (x - c.sensorThetaCompGain * sensor.omega / c.execFreq + c.thetaOffset) / c.npp.toNat

theorem angle_aim (npp : 1 ≤ c.npp.toNat) (x : ℚ) (sensor : Sensor) : sensor.angle c (aim c x sensor) = warpTau x := by
  have some : (c.npp.toNat : ℚ) ≠ 0 := Nat.cast_ne_zero.mpr (Nat.ne_of_gt npp)
  rw [Sensor.angle, aim, div_mul_cancel₀ _ some]
  congr 1
  ring

/-- The sensor under readings that are all aimed at `x`. -/
def aimed (c : FocCfg) (x : ℚ) (sensor : Sensor) : Nat → Sensor
  | 0 => sensor
  | k + 1 => (aimed c x sensor k).next c (aim c x (aimed c x sensor k))

def steered (c : FocCfg) (x : ℚ) (sensor : Sensor) (k : Nat) : Reading :=
  ⟨⟨⟨0, 0, 0⟩, 0⟩, aim c x (aimed c x sensor k)⟩

theorem chain_steered (x : ℚ) (sensor : Sensor) : chain c sensor (steered c x sensor) k = aimed c x sensor k := by
  induction k with
  | zero => rfl
  | succ k ih =>
    rw [chain, ih]
    rfl

theorem angleAt_steered (npp : 1 ≤ c.npp.toNat) (x : ℚ) (sensor : Sensor) :
    angleAt c sensor (steered c x sensor) k = warpTau x := by
  rw [angleAt, chain_steered]
  exact angle_aim npp ..

theorem sumsFit_steered (c' : FocCfg) (x : ℚ) (sensor : Sensor) : SumsFit c' (steered c x sensor) := by
  intro axis
  have zero (i : Nat) : (steered c x sensor i).adc.iUvw.get axis = 0 := by cases axis <;> rfl
  simp [zero]

theorem total_const {samples : List Sample} {x : ℚ} (same : ∀ sample ∈ samples, sample.sensorTheta = x) :
    total samples = samples.length * x := by
  have sum : total samples = (samples.map Sample.sensorTheta).length • x :=
    List.sum_eq_card_nsmul _ _ (by simpa using same)
  rw [sum, List.length_map, nsmul_eq_mul]

theorem caliSamples_length {sensor : Sensor} : (caliSamples c sensor r).length = allTurns c := by
  rw [caliSamples, List.length_append, turnSamples_length, turnSamples_length, allTurns]

theorem total_steered (npp : 1 ≤ c.npp.toNat) (x : ℚ) (sensor : Sensor) :
    total (caliSamples c sensor (steered c x sensor)) = allTurns c * warpTau x := by
  have count : (caliSamples c sensor (steered c x sensor)).length = allTurns c := caliSamples_length
  rw [← count]
  refine total_const fun sample mem => ?_
  rcases List.mem_append.mp mem with cw | ccw
  · obtain ⟨j, _, rfl⟩ := List.mem_map.mp cw
    exact angleAt_steered npp ..
  · obtain ⟨j, _, rfl⟩ := List.mem_map.mp ccw
    exact angleAt_steered npp ..

end Steered

/-- Where `npp * 2` overflows, the phase CCW is too short, or the count is wrong by which the sum
is divided: the angle of every sample is 1 here. -/
theorem wide_not_averaged (wide : 2 ^ 31 ≤ c.npp.toNat) :
    ¬Averaged c (after (zeroed c pll) (steered c.bare 1 (zeroed c pll).sensor) n) := by
  intro averaged
  have left := averaged.left
  have bound := c.npp.isLt
  obtain ⟨_, ⟨cw, ccw, samples, cw_length, ccw_length, _⟩, offset⟩ := averaged
  have count : allTurns c.bare = 2 * c.npp.toNat := by
    have length := congrArg List.length left.samples
    rw [caliSamples_length, samples, List.length_append, cw_length, ccw_length] at length
    omega
  have last : c.npp.toNat = 2 ^ 32 - 1 := by
    have npp_eq : c.bare.npp = c.npp := rfl
    rw [allTurns, cwTurns, ccwTurns, npp_eq] at count
    split at count <;> omega
  have summed : total (caliSamples c.bare (zeroed c pll).sensor (steered c.bare 1 (zeroed c pll).sensor)) = 2 ^ 33 - 2 := by
    rw [total_steered (show 1 ≤ c.bare.npp.toNat from Nat.le_trans (by decide) wide), count, last]
    norm_num [warpTau, tau]
  have stored : (caliCfg (zeroed c pll) (steered c.bare 1 (zeroed c pll).sensor)).thetaOffset =
      (0 + total (caliSamples c.bare (zeroed c pll).sensor (steered c.bare 1 (zeroed c pll).sensor))) /
        (allTurns c.bare % 2 ^ 32 : Nat) := rfl
  rw [left.cfg, left.samples, stored, summed, count, last] at offset
  norm_num at offset

/-- A first calibration takes `npp` samples in each direction and stores the mean of all of them,
for any readings, just when twice `npp` fits in `u32`. -/
theorem first_calibration (freq : 0 < c.execFreq) (omega : 0 < c.refThetaCaliOmega) (npp : 1 ≤ c.npp.toNat)
    (small : c.adcCaliCntMax.toNat < 31) :
    (∀ r, SumsFit c r → Calibrates c pll r) ↔ c.npp.toNat < 2 ^ 31 := by
  have pos : 0 < inc c := div_pos omega freq
  have calls : initCalls (zeroed c pll).cfg = 2 ^ c.adcCaliCntMax.toNat := initCalls_pow small
  constructor
  · intro all
    by_contra wide
    obtain ⟨n, averaged⟩ := (all (steered c.bare 1 (zeroed c pll).sensor) (sumsFit_steered c 1 _)).averaged
    exact wide_not_averaged (not_lt.mp wide) averaged
  · intro narrow r fit
    have primed := zeroed_primed c pll
    constructor
    case init =>
      intro k lt
      have summed : Summing (zeroed c pll) r k (after (zeroed c pll) r k) := primed.summed (calls ▸ lt)
      exact summed.cali
    case left =>
      rw [← calls]
      exact primed.divided.cali
    case adcOffset =>
      exact offsets_mean small fit
    case averaged =>
      exact ⟨_, averages pos npp narrow⟩

/-- A motor, its forced angle advancing by one radian each call. -/
def motor (npp : U32) : FocCfg where
  execFreq := 10000
  npp := npp
  adcCaliCntMax := 10
  thetaCaliCntMax := 100
  adcOffset := ⟨⟨0, 0, 0⟩, 0⟩
  thetaOffset := 0
  refThetaCaliId := 3
  refThetaCaliOmega := 10000
  sensorThetaCompGain := 0

def motorPll : PllCfg := ⟨10000, 500, 1, 100, 0, 0, 0⟩

theorem first_calibration_seven :
    (∀ r, SumsFit (motor 7) r → Calibrates (motor 7) motorPll r) ↔ (motor 7).npp.toNat < 2 ^ 31 :=
  first_calibration (by norm_num [motor]) (by norm_num [motor]) (by decide) (by decide)

/-- The readings of a rotor that stands still. -/
def still : Nat → Reading := steered (motor (2 ^ 31)).bare 1 (zeroed (motor (2 ^ 31)) motorPll).sensor

theorem overflow_cuts_short :
    0 < (motor (2 ^ 31)).execFreq ∧ 0 < (motor (2 ^ 31)).refThetaCaliOmega ∧ 1 ≤ (motor (2 ^ 31)).npp.toNat ∧
      (motor (2 ^ 31)).adcCaliCntMax.toNat < 31 ∧ SumsFit (motor (2 ^ 31)) still ∧
      ¬Calibrates (motor (2 ^ 31)) motorPll still := by
  refine ⟨by norm_num [motor], by norm_num [motor], by decide, by decide, sumsFit_steered _ _ _, ?_⟩
  intro calibrates
  obtain ⟨n, averaged⟩ := calibrates.averaged
  exact wide_not_averaged (by decide) averaged

end AvaModule.FocDrive
