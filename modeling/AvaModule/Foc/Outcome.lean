import AvaModule.Foc.Calibration

/-! The first phase, and what a whole calibration leaves behind. -/
namespace AvaModule.FocDrive

variable {s s₀ foc : Foc} {c : FocCfg} {cnt : U32} {sum : ℚ} {samples : List Sample} {r : Nat → Reading}
  {k n : Nat}

section Init

/-- The currents of the first calls added to what was there. -/
def adcSum (o : I32Uvw) (r : Nat → Reading) : Nat → I32Uvw
  | 0 => o
  | k + 1 => (adcSum o r k).add (r k).adc.iUvw

/-- The calls of the first phase. -/
def initCalls (c : FocCfg) : Nat := max 1 (lf c.adcCaliCntMax).toNat

/-- A calibration that is about to start. -/
structure Primed (s : Foc) : Prop where
  state : s.lo.eState = .cali
  cali : s.lo.eCali = .init
  adcCnt : s.lo.adcCaliCnt = 0
  thetaCnt : s.lo.thetaCaliCnt = 0
  hold : s.lo.thetaCaliHoldCnt = 0
  force : s.rotor.forceTheta = 0

/-- The first phase after `k` calls. -/
structure Summing (s₀ : Foc) (r : Nat → Reading) (k : Nat) (s : Foc) : Prop where
  cfg : s.cfg = s₀.cfg.withAdc (adcSum s₀.cfg.adcOffset.iUvw r k)
  state : s.lo.eState = .cali
  cali : s.lo.eCali = .init
  adcCnt : s.lo.adcCaliCnt = BitVec.ofNat 32 k
  thetaCnt : s.lo.thetaCaliCnt = 0
  hold : s.lo.thetaCaliHoldCnt = 0
  force : s.rotor.forceTheta = 0
  sum : s.lo.thetaOffsetSum = s₀.lo.thetaOffsetSum
  samples : s.lo.samples = s₀.lo.samples

theorem Primed.summing (primed : Primed s₀) : Summing s₀ r 0 s₀ where
  cfg := rfl
  state := primed.state
  cali := primed.cali
  adcCnt := primed.adcCnt
  thetaCnt := primed.thetaCnt
  hold := primed.hold
  force := primed.force
  sum := rfl
  samples := rfl

/-- The currents summed up are divided by their number. -/
def meanCfg (s₀ : Foc) (r : Nat → Reading) : FocCfg :=
  s₀.cfg.withAdc ((adcSum s₀.cfg.adcOffset.iUvw r (initCalls s₀.cfg)).shiftRight s₀.cfg.adcCaliCntMax.toNat)

namespace Summing

theorem enough_iff (inv : Summing s₀ r k s) (lt : k < initCalls s₀.cfg) (reading : Reading) :
    (entered s reading).lo.adcCaliCnt + 1 ≥ lf (entered s reading).cfg.adcCaliCntMax ↔ k + 1 = initCalls s₀.cfg := by
  have bound := (lf s₀.cfg.adcCaliCntMax).isLt
  have one : (1 : U32).toNat = 1 := rfl
  have counted : (BitVec.ofNat 32 k + 1).toNat = k + 1 := by
    unfold initCalls at lt
    rw [BitVec.toNat_add, BitVec.toNat_ofNat, one]
    omega
  have max_eq : (entered s reading).cfg.adcCaliCntMax = s₀.cfg.adcCaliCntMax := by
    rw [entered_cfg, inv.cfg]
    rfl
  rw [ge_iff_le, BitVec.le_def, entered_adcCaliCnt, inv.adcCnt, counted, max_eq]
  unfold initCalls at lt ⊢
  omega

/-- The sum that a call of the first phase stores. -/
theorem sum_eq (inv : Summing s₀ r k s) :
    (entered s (r k)).cfg.adcOffset.iUvw.add (r k).adc.iUvw = adcSum s₀.cfg.adcOffset.iUvw r (k + 1) := by
  rw [entered_cfg, inv.cfg]
  rfl

theorem summed (inv : Summing s₀ r k s) (more : k + 1 < initCalls s₀.cfg) :
    Summing s₀ r (k + 1) (focExec s (r k)) := by
  have enough : ¬_ := mt (inv.enough_iff (Nat.lt_of_succ_lt more) (r k)).mp (Nat.ne_of_lt more)
  have sum_eq := inv.sum_eq
  obtain ⟨cfg, state, cali, adcCnt, thetaCnt, hold, force, sum, samples⟩ := inv
  have cali' : (entered s (r k)).lo.eCali = .init := cali
  rw [focExec_cali state]
  unfold focCali focAdcCali
  rw [cali']
  dsimp only
  rw [if_neg enough, if_pos (show -mebusy < 0 by decide)]
  constructor
  case cfg =>
    simp only [focGetFdb, sum_eq]
    simp [cfg, FocCfg.withAdc]
  case adcCnt =>
    simp [focGetFdb, adcCnt, BitVec.ofNat_add]
  all_goals simp [focGetFdb, state, cali, thetaCnt, hold, force, sum, samples]

theorem divided (inv : Summing s₀ r k s) (last : k + 1 = initCalls s₀.cfg) :
    At (meanCfg s₀ r) .cw ⟨0, 0⟩ 0 s₀.lo.thetaOffsetSum s₀.lo.samples (focExec s (r k)) := by
  have enough := (inv.enough_iff (by omega) (r k)).mpr last
  have sum_eq := inv.sum_eq
  obtain ⟨cfg, state, cali, adcCnt, thetaCnt, hold, force, sum, samples⟩ := inv
  have cali' : (entered s (r k)).lo.eCali = .init := cali
  rw [focExec_cali state]
  unfold focCali focAdcCali
  rw [cali']
  dsimp only
  rw [if_pos enough, if_neg (show ¬(0 : Int) < 0 by decide)]
  constructor
  case cfg =>
    simp only [focGetFdb, sum_eq, last]
    simp [cfg, FocCfg.withAdc, meanCfg]
  case omega =>
    simp only [focGetFdb, entered_cfg, cfg]
    rfl
  all_goals simp [focGetFdb, travel, state, thetaCnt, hold, force, sum, samples]

end Summing

theorem initCalls_pos : 0 < initCalls c := Nat.lt_of_lt_of_le Nat.one_pos (le_max_left 1 _)

variable (primed : Primed s₀)
include primed

theorem Primed.summed (lt : k < initCalls s₀.cfg) : Summing s₀ r k (after s₀ r k) := by
  induction k with
  | zero => exact primed.summing
  | succ k ih => exact (ih (Nat.lt_of_succ_lt lt)).summed lt

theorem Primed.divided :
    At (meanCfg s₀ r) .cw ⟨0, 0⟩ 0 s₀.lo.thetaOffsetSum s₀.lo.samples (after s₀ r (initCalls s₀.cfg)) := by
  obtain ⟨k, last⟩ : ∃ k, k + 1 = initCalls s₀.cfg := ⟨initCalls s₀.cfg - 1, Nat.succ_pred_eq_of_pos initCalls_pos⟩
  rw [← last]
  exact (primed.summed (by omega)).divided last

theorem Primed.sensor_divided :
    (after s₀ r (initCalls s₀.cfg)).sensor = chain s₀.cfg s₀.sensor r (initCalls s₀.cfg) :=
  after_sensor fun _ lt => ⟨_, Summing.cfg (primed.summed lt)⟩

/-- Only a calibration whose angle moves ends. -/
theorem Primed.climbs (ready : (after s₀ r n).lo.eState = .ready) : 0 < inc s₀.cfg := by
  by_contra stuck
  suffices busy : (after s₀ r n).lo.eState = .cali by
    rw [busy] at ready
    cases ready
  rcases Nat.lt_or_ge n (initCalls s₀.cfg) with init | later
  · exact Summing.state (primed.summed init)
  · obtain ⟨j, rfl⟩ := Nat.exists_eq_add_of_le later
    rw [after_add]
    obtain ⟨q, here, _⟩ := primed.divided.stuck .cw (not_lt.mp stuck) tau_pos rfl
    exact here.state

end Init

section Turns

/-- The turns of the phase CW. -/
def cwTurns (c : FocCfg) : Nat := max 1 c.npp.toNat

/-- The turns of the phase CCW: `npp * 2` can overflow. -/
def ccwTurns (c : FocCfg) : Nat :=
  if 2 ^ 31 ≤ c.npp.toNat ∧ c.npp.toNat < 2 ^ 32 - 1 then 1 else max 1 c.npp.toNat

theorem cwTurns_count : (0 + BitVec.ofNat 32 n : U32) ≥ turns c .cw ↔ c.npp.toNat ≤ n % 2 ^ 32 := by
  rw [ge_iff_le, BitVec.le_def, turns]
  simp

theorem ccwTurns_count : (0 + BitVec.ofNat 32 (cwTurns c) + BitVec.ofNat 32 n : U32) ≥ turns c .ccw ↔
    c.npp.toNat * 2 % 2 ^ 32 ≤ (cwTurns c + n) % 2 ^ 32 := by
  rw [ge_iff_le, BitVec.le_def, turns]
  · simp
  · intro same
    cases same

theorem cwTurns_more (pos : 0 < n) (lt : n < cwTurns c) : ¬(0 + BitVec.ofNat 32 n : U32) ≥ turns c .cw := by
  have bound := c.npp.isLt
  rw [cwTurns_count]
  unfold cwTurns at lt
  omega

theorem cwTurns_last : (0 + BitVec.ofNat 32 (cwTurns c) : U32) ≥ turns c .cw := by
  have bound := c.npp.isLt
  rw [cwTurns_count]
  unfold cwTurns
  omega

theorem ccwTurns_more (pos : 0 < n) (lt : n < ccwTurns c) :
    ¬(0 + BitVec.ofNat 32 (cwTurns c) + BitVec.ofNat 32 n : U32) ≥ turns c .ccw := by
  have bound := c.npp.isLt
  rw [ccwTurns_count]
  unfold ccwTurns at lt
  unfold cwTurns
  split at lt <;> omega

theorem ccwTurns_last : (0 + BitVec.ofNat 32 (cwTurns c) + BitVec.ofNat 32 (ccwTurns c) : U32) ≥ turns c .ccw := by
  have bound := c.npp.isLt
  rw [ccwTurns_count]
  unfold cwTurns ccwTurns
  split <;> omega

end Turns

section Whole

/-- The call with which a turn takes its sample, counted over both phases. -/
def sampleAt (c : FocCfg) (i : Nat) : Nat := initCalls c + sampleCall c i

/-- The turns of a calibration, and its calls. -/
def allTurns (c : FocCfg) : Nat := cwTurns c + ccwTurns c

def allCalls (c : FocCfg) : Nat := initCalls c + allTurns c * turnCalls c + 1

/-- The samples of `n` turns from the `i`-th on. -/
def turnSamples (c : FocCfg) (phase : FocCali) (sensor : Sensor) (r : Nat → Reading) (i n : Nat) : List Sample :=
  (List.range n).map fun j => ⟨phase, stop phase, angleAt c sensor r (sampleAt c (i + j))⟩

def caliSamples (c : FocCfg) (sensor : Sensor) (r : Nat → Reading) : List Sample :=
  turnSamples c .cw sensor r 0 (cwTurns c) ++ turnSamples c .ccw sensor r (cwTurns c) (ccwTurns c)

theorem chain_withAdc (o : I32Uvw) (sensor : Sensor) : chain (c.withAdc o) sensor r k = chain c sensor r k := by
  induction k with
  | zero => rfl
  | succ k ih =>
    rw [chain, ih]
    rfl

theorem phaseSamples_eq (o : I32Uvw) (phase : FocCali) (sensor : Sensor) (k n : Nat) :
    phaseSamples (c.withAdc o) phase (chain c sensor r (initCalls c + k * turnCalls c))
      (fun i => r (initCalls c + k * turnCalls c + i)) n = turnSamples c phase sensor r k n := by
  refine List.map_congr_left fun j _ => ?_
  have place : sampleAt c (k + j) = initCalls c + k * turnCalls c + sampleCall c j := by
    simp only [sampleAt, sampleCall, Nat.add_mul, Nat.add_assoc]
  rw [place, angleAt_add, angleAt, chain_withAdc]
  rfl

/-- A calibration that is over. -/
structure Finished (c : FocCfg) (sum : ℚ) (samples : List Sample) (s : Foc) : Prop where
  cfg : s.cfg = c
  state : s.lo.eState = .ready
  adcCnt : s.lo.adcCaliCnt = 0
  thetaCnt : s.lo.thetaCaliCnt = 0
  hold : s.lo.thetaCaliHoldCnt = 0
  force : s.rotor.forceTheta = 0
  sum : s.lo.thetaOffsetSum = sum
  samples : s.lo.samples = samples

theorem At.finished (inv : At c .finish ⟨0, 0⟩ cnt sum samples s) (reading : Reading) :
    Finished { c with thetaOffset := sum / cnt.toNat } sum samples (focExec s reading) := by
  obtain ⟨rfl, state, cali, omega, place, hold, rfl, rfl, rfl⟩ := inv
  have cali' : (entered s reading).lo.eCali = .finish := cali
  have free : s.lo.thetaCaliHoldCnt = 0 := BitVec.eq_of_toNat_eq hold
  rw [focExec_cali state]
  unfold focCali
  rw [cali']
  constructor
  all_goals simp [focGetFdb, focDisable, free]

theorem Finished.ready {reading : Reading} (finished : Finished c sum samples s) :
    Finished c sum samples (focExec s reading) := by
  obtain ⟨cfg, state, adcCnt, thetaCnt, hold, force, rfl, rfl⟩ := finished
  rw [focExec_ready state]
  constructor
  all_goals simp [focGetFdb, cfg, state, adcCnt, thetaCnt, hold, force]

theorem Finished.readys (finished : Finished c sum samples s) : Finished c sum samples (after s r n) := by
  induction n with
  | zero => exact finished
  | succ n ih => exact ih.ready

/-- What is summed up, and what is left in the configuration. -/
def caliSum (s₀ : Foc) (r : Nat → Reading) : ℚ := s₀.lo.thetaOffsetSum + total (caliSamples s₀.cfg s₀.sensor r)

def caliCfg (s₀ : Foc) (r : Nat → Reading) : FocCfg :=
  { meanCfg s₀ r with thetaOffset := caliSum s₀ r / (allTurns s₀.cfg % 2 ^ 32 : Nat) }

variable (primed : Primed s₀) (pos : 0 < inc s₀.cfg)
include primed pos

/-- The phase CW. -/
theorem Primed.turned_cw :
    Turned (meanCfg s₀ r) .cw 0 s₀.lo.thetaOffsetSum s₀.lo.samples (fun i => r (initCalls s₀.cfg + i))
      (cwTurns s₀.cfg) .ccw (after s₀ r (initCalls s₀.cfg)) :=
  primed.divided.ends .cw pos (Nat.lt_of_lt_of_le Nat.one_pos (le_max_left 1 _)) (fun _ => cwTurns_more) cwTurns_last

/-- The calls before the phase CCW. -/
theorem Primed.before_ccw (lt : k < initCalls s₀.cfg + cwTurns s₀.cfg * turnCalls s₀.cfg) :
    (∃ o, (after s₀ r k).cfg = s₀.cfg.withAdc o) ∧ (after s₀ r k).lo.eState = .cali := by
  by_cases init : k < initCalls s₀.cfg
  · have summed : Summing s₀ r k (after s₀ r k) := primed.summed init
    exact ⟨⟨_, summed.cfg⟩, summed.state⟩
  · obtain ⟨j, rfl⟩ := Nat.exists_eq_add_of_le (Nat.le_of_not_lt init)
    rw [after_add]
    obtain ⟨cfg, state⟩ := (primed.turned_cw pos).busy j (Nat.lt_of_add_lt_add_left lt)
    exact ⟨⟨_, cfg⟩, state⟩

/-- The phase CCW, in terms of the first call. -/
theorem Primed.turned_ccw :
    Turned (meanCfg s₀ r) .ccw (0 + BitVec.ofNat 32 (cwTurns s₀.cfg))
      (s₀.lo.thetaOffsetSum + total (turnSamples s₀.cfg .cw s₀.sensor r 0 (cwTurns s₀.cfg)))
      (s₀.lo.samples ++ turnSamples s₀.cfg .cw s₀.sensor r 0 (cwTurns s₀.cfg))
      (fun i => r (initCalls s₀.cfg + cwTurns s₀.cfg * turnCalls s₀.cfg + i)) (ccwTurns s₀.cfg) .finish
      (after s₀ r (initCalls s₀.cfg + cwTurns s₀.cfg * turnCalls s₀.cfg)) := by
  have some : 0 < ccwTurns s₀.cfg := by
    unfold ccwTurns
    split <;> omega
  have here := (primed.turned_cw pos (r := r)).here
  have samples := phaseSamples_eq (c := s₀.cfg) (r := r)
    ((adcSum s₀.cfg.adcOffset.iUvw r (initCalls s₀.cfg)).shiftRight s₀.cfg.adcCaliCntMax.toNat) .cw s₀.sensor 0
    (cwTurns s₀.cfg)
  rw [Nat.zero_mul, Nat.add_zero, ← primed.sensor_divided] at samples
  have samples' : phaseSamples (meanCfg s₀ r) .cw _ _ (cwTurns s₀.cfg) = _ := samples
  rw [samples', ← after_add] at here
  exact here.ends .ccw pos some (fun _ => ccwTurns_more) ccwTurns_last

/-- A calibration ends, whatever the readings. -/
theorem Primed.finished :
    Finished (caliCfg s₀ r) (caliSum s₀ r) (s₀.lo.samples ++ caliSamples s₀.cfg s₀.sensor r)
      (after s₀ r (allCalls s₀.cfg)) := by
  have here := (primed.turned_ccw pos (r := r)).here
  have sensor : (after s₀ r (initCalls s₀.cfg + cwTurns s₀.cfg * turnCalls s₀.cfg)).sensor = chain s₀.cfg s₀.sensor r _ :=
    after_sensor fun k lt => (primed.before_ccw pos lt).1
  have samples := phaseSamples_eq (c := s₀.cfg) (r := r)
    ((adcSum s₀.cfg.adcOffset.iUvw r (initCalls s₀.cfg)).shiftRight s₀.cfg.adcCaliCntMax.toNat) .ccw s₀.sensor
    (cwTurns s₀.cfg) (ccwTurns s₀.cfg)
  rw [← sensor] at samples
  have samples' : phaseSamples (meanCfg s₀ r) .ccw _ _ (ccwTurns s₀.cfg) = _ := samples
  have place : initCalls s₀.cfg + cwTurns s₀.cfg * turnCalls s₀.cfg + ccwTurns s₀.cfg * turnCalls (meanCfg s₀ r) =
      initCalls s₀.cfg + allTurns s₀.cfg * turnCalls s₀.cfg := by
    rw [allTurns, Nat.add_mul, ← Nat.add_assoc]
    rfl
  have count : (0 + BitVec.ofNat 32 (cwTurns s₀.cfg) + BitVec.ofNat 32 (ccwTurns s₀.cfg) : U32).toNat =
      allTurns s₀.cfg % 2 ^ 32 := by
    simp [allTurns]
  rw [samples', ← after_add, place, add_assoc s₀.lo.thetaOffsetSum, List.append_assoc, ← total_append] at here
  have finished := here.finished (r (initCalls s₀.cfg + allTurns s₀.cfg * turnCalls s₀.cfg))
  rw [count] at finished
  exact finished

/-- The calls before the last. -/
theorem Primed.busy (lt : k < allCalls s₀.cfg) :
    (∃ o, (after s₀ r k).cfg = s₀.cfg.withAdc o) ∧ (after s₀ r k).lo.eState = .cali := by
  by_cases early : k < initCalls s₀.cfg + cwTurns s₀.cfg * turnCalls s₀.cfg
  · exact primed.before_ccw pos early
  · obtain ⟨j, rfl⟩ := Nat.exists_eq_add_of_le (Nat.le_of_not_lt early)
    have turned := primed.turned_ccw pos (r := r)
    rw [after_add]
    rcases Nat.lt_or_ge j (ccwTurns s₀.cfg * turnCalls s₀.cfg) with before | past
    · obtain ⟨cfg, state⟩ := turned.busy j before
      exact ⟨⟨_, cfg⟩, state⟩
    · have last : j = ccwTurns s₀.cfg * turnCalls s₀.cfg := by
        rw [allCalls, allTurns, Nat.add_mul] at lt
        omega
      rw [last]
      exact ⟨⟨_, turned.here.cfg⟩, turned.here.state⟩

/-- A calibration is over with its last call, and stays so. -/
theorem Primed.ready_iff : (after s₀ r n).lo.eState = .ready ↔ allCalls s₀.cfg ≤ n := by
  constructor
  · intro ready
    by_contra early
    rw [(primed.busy pos (Nat.lt_of_not_le early)).2] at ready
    cases ready
  · intro late
    obtain ⟨j, rfl⟩ := Nat.exists_eq_add_of_le late
    rw [after_add]
    exact (primed.finished pos).readys.state

omit pos in
/-- Whenever it is over, it has left the same. -/
theorem Primed.left (ready : (after s₀ r n).lo.eState = .ready) :
    Finished (caliCfg s₀ r) (caliSum s₀ r) (s₀.lo.samples ++ caliSamples s₀.cfg s₀.sensor r) (after s₀ r n) := by
  have pos := primed.climbs ready
  obtain ⟨j, rfl⟩ := Nat.exists_eq_add_of_le ((primed.ready_iff pos).mp ready)
  rw [after_add]
  exact (primed.finished pos).readys

end Whole

end AvaModule.FocDrive
