import AvaModule.Foc.Steps

/-! The turns of the calibration: the forced angle ramps to its limit, is held there, a
sample is taken, and the next turn starts. -/
namespace AvaModule.FocDrive

variable {s foc : Foc} {r : Reading} {adc : AdcRaw} {c : FocCfg} {phase : FocCali} {p q : RampHold.State ℚ}
  {cnt : U32} {sum : ℚ} {samples : List Sample} {k : Nat}

/-- The phases in which the rotor turns. -/
inductive Turning : FocCali → Prop where
  | cw : Turning .cw
  | ccw : Turning .ccw

/-- How far the forced angle has come in its turn. -/
def travel : FocCali → ℚ → ℚ
  | .ccw, force => tau - force
  | _, force => force

/-- The forced angle at the start of a turn, and at its end. -/
def start : FocCali → ℚ
  | .ccw => tau
  | _ => 0

def stop : FocCali → ℚ
  | .cw => tau
  | _ => 0

/-- The count at which a phase is over. -/
def turns (c : FocCfg) : FocCali → U32
  | .cw => c.npp
  | _ => c.npp * 2

def next : FocCali → FocCali
  | .cw => .ccw
  | _ => .finish

def inc (c : FocCfg) : ℚ := c.refThetaCaliOmega / c.execFreq

/-- The angle stays at the end of the turn, and the calls are counted. -/
def held (foc : Foc) (adc : AdcRaw) : Foc :=
  ((focEnable foc adc).setForceTheta (stop foc.lo.eCali)).setHoldCnt (foc.lo.thetaCaliHoldCnt + 1)

section Branches
variable (turning : Turning foc.lo.eCali)
include turning

theorem focCali_ramp (adc : AdcRaw) (below : travel foc.lo.eCali foc.rotor.forceTheta < tau)
    (free : foc.lo.thetaCaliHoldCnt = 0) :
    ∃ force, focCali foc adc = (focEnable foc adc).setForceTheta force ∧
      travel foc.lo.eCali force =
        travel foc.lo.eCali foc.rotor.forceTheta + foc.rotor.forceOmega / foc.cfg.execFreq := by
  generalize cali : foc.lo.eCali = phase at turning below
  unfold focCali
  rw [cali]
  cases turning with
  | cw =>
    have under : ¬(focEnable foc adc).rotor.forceTheta ≥ tau := by simpa [travel] using below
    dsimp only
    rw [if_neg under, if_pos (by simpa using free)]
    refine ⟨_, rfl, ?_⟩
    simp only [focEnable_forceTheta, focEnable_forceOmega, focEnable_cfg, travel]
  | ccw =>
    have past : ¬(focEnable foc adc).rotor.forceTheta ≤ 0 := by simpa [travel] using below
    dsimp only
    rw [if_neg past, if_pos (by simpa using free)]
    refine ⟨_, rfl, ?_⟩
    simp only [focEnable_forceTheta, focEnable_forceOmega, focEnable_cfg, travel]
    ring

theorem focCali_wait (below : travel foc.lo.eCali foc.rotor.forceTheta < tau) (busy : foc.lo.thetaCaliHoldCnt ≠ 0) :
    focCali foc adc = focEnable foc adc := by
  generalize cali : foc.lo.eCali = phase at turning below
  unfold focCali
  rw [cali]
  cases turning with
  | cw =>
    have under : ¬(focEnable foc adc).rotor.forceTheta ≥ tau := by simpa [travel] using below
    dsimp only
    rw [if_neg under, if_neg (by simpa using busy)]
  | ccw =>
    have past : ¬(focEnable foc adc).rotor.forceTheta ≤ 0 := by simpa [travel] using below
    dsimp only
    rw [if_neg past, if_neg (by simpa using busy)]

theorem focCali_hold (past : tau ≤ travel foc.lo.eCali foc.rotor.forceTheta)
    (more : ¬foc.lo.thetaCaliHoldCnt + 1 ≥ foc.cfg.thetaCaliCntMax) : focCali foc adc = held foc adc := by
  generalize cali : foc.lo.eCali = phase at turning past
  unfold focCali held
  rw [cali]
  cases turning with
  | cw =>
    have reached : (focEnable foc adc).rotor.forceTheta ≥ tau := by simpa [travel] using past
    dsimp only
    rw [if_pos reached, if_neg (by simpa [Foc.setHoldCnt, Foc.setForceTheta] using more)]
    simp only [focEnable_lo, stop]
  | ccw =>
    have reached : (focEnable foc adc).rotor.forceTheta ≤ 0 := by simpa [travel] using past
    dsimp only
    rw [if_pos reached, if_neg (by simpa [Foc.setHoldCnt, Foc.setForceTheta] using more)]
    simp only [focEnable_lo, stop]

theorem focCali_sample (past : tau ≤ travel foc.lo.eCali foc.rotor.forceTheta)
    (enough : foc.lo.thetaCaliHoldCnt + 1 ≥ foc.cfg.thetaCaliCntMax) :
    focCali foc adc =
      if foc.lo.thetaCaliCnt + 1 ≥ turns foc.cfg foc.lo.eCali then
        (held foc adc).addSample.setCali (next foc.lo.eCali)
      else (held foc adc).addSample.setForceTheta (start foc.lo.eCali) := by
  generalize cali : foc.lo.eCali = phase at turning past
  unfold focCali held
  rw [cali]
  cases turning with
  | cw =>
    have reached : (focEnable foc adc).rotor.forceTheta ≥ tau := by simpa [travel] using past
    dsimp only
    rw [if_pos reached, if_pos (by simpa [Foc.setHoldCnt, Foc.setForceTheta] using enough)]
    simp only [focEnable_lo, stop, next, start, turns, Foc.addSample, Foc.setHoldCnt, Foc.setForceTheta, focEnable_cfg]
  | ccw =>
    have reached : (focEnable foc adc).rotor.forceTheta ≤ 0 := by simpa [travel] using past
    dsimp only
    rw [if_pos reached, if_pos (by simpa [Foc.setHoldCnt, Foc.setForceTheta] using enough)]
    simp only [focEnable_lo, stop, next, start, turns, Foc.addSample, Foc.setHoldCnt, Foc.setForceTheta, focEnable_cfg]

end Branches

/-- A calibration in a phase after the first, at a place of its turn. -/
structure At (c : FocCfg) (phase : FocCali) (p : RampHold.State ℚ) (cnt : U32) (sum : ℚ) (samples : List Sample)
    (s : Foc) : Prop where
  cfg : s.cfg = c
  state : s.lo.eState = .cali
  cali : s.lo.eCali = phase
  omega : s.rotor.forceOmega = c.refThetaCaliOmega
  place : travel phase s.rotor.forceTheta = p.travel
  hold : s.lo.thetaCaliHoldCnt.toNat = p.hold
  cnt : s.lo.thetaCaliCnt = cnt
  sum : s.lo.thetaOffsetSum = sum
  samples : s.lo.samples = samples

namespace At

theorem travel_stop (turning : Turning phase) : travel phase (stop phase) = tau := by
  cases turning <;> simp [travel, stop]

theorem travel_start (turning : Turning phase) : travel phase (start phase) = 0 := by
  cases turning <;> simp [travel, start]

theorem travel_next (turning : Turning phase) : travel (next phase) (stop phase) = 0 := by
  cases turning <;> simp [travel, stop, next]

/-- The hold counter does not wrap before it is enough. -/
theorem held_toNat (inv : At c phase p cnt sum samples s) (room : p.hold < max 1 c.thetaCaliCntMax.toNat) :
    (s.lo.thetaCaliHoldCnt + 1).toNat = p.hold + 1 := by
  have bound := c.thetaCaliCntMax.isLt
  rw [BitVec.toNat_add, inv.hold]
  exact Nat.mod_eq_of_lt (show p.hold + 1 < 2 ^ 32 by omega)

theorem enough_iff (inv : At c phase p cnt sum samples s) (room : p.hold < max 1 c.thetaCaliCntMax.toNat) :
    (entered s r).lo.thetaCaliHoldCnt + 1 ≥ (entered s r).cfg.thetaCaliCntMax ↔
      c.thetaCaliCntMax.toNat ≤ p.hold + 1 := by
  rw [ge_iff_le, BitVec.le_def, entered_thetaCaliHoldCnt, inv.held_toNat room, entered_cfg, inv.cfg]

/-- Before the end of a turn, the angle moves or is held. -/
theorem moved (inv : At c phase p cnt sum samples s) (turning : Turning phase)
    (room : p.hold < max 1 c.thetaCaliCntMax.toNat)
    (step : RampHold.step tau (inc c) c.thetaCaliCntMax.toNat p = some q) :
    At c phase q cnt sum samples (focExec s r) := by
  have held_eq := inv.held_toNat room
  have enough := inv.enough_iff (r := r) room
  obtain ⟨rfl, state, rfl, omega, place, hold, rfl, rfl, rfl⟩ := inv
  have turning' : Turning (entered s r).lo.eCali := turning
  have place' : travel (entered s r).lo.eCali (entered s r).rotor.forceTheta = p.travel := by simpa using place
  rw [focExec_cali state]
  unfold RampHold.step at step
  by_cases past : tau ≤ p.travel
  · rw [if_pos past] at step
    by_cases more : s.cfg.thetaCaliCntMax.toNat ≤ p.hold + 1
    · rw [if_pos more] at step
      cases step
    · rw [if_neg more] at step
      obtain rfl := Option.some.inj step
      rw [focCali_hold turning' (place'.symm ▸ past) (mt enough.mp more)]
      constructor
      case hold => exact held_eq
      all_goals simp [held, focGetFdb, Foc.setHoldCnt, Foc.setForceTheta, travel_stop turning, omega, state]
  · rw [if_neg past] at step
    by_cases free : p.hold = 0
    · rw [if_pos free] at step
      obtain rfl := Option.some.inj step
      have none : (entered s r).lo.thetaCaliHoldCnt = 0 := BitVec.eq_of_toNat_eq (hold.trans free)
      obtain ⟨force, eq, moved⟩ := focCali_ramp turning' r.adc (place'.symm ▸ not_le.mp past) none
      rw [eq]
      constructor
      case place =>
        refine moved.trans ?_
        rw [place', entered_forceOmega, omega]
        rfl
      all_goals simp [focGetFdb, Foc.setForceTheta, omega, state, hold, free]
    · rw [if_neg free] at step
      obtain rfl := Option.some.inj step
      have busy : (entered s r).lo.thetaCaliHoldCnt ≠ 0 := by
        intro none
        exact free (hold.symm.trans (congrArg BitVec.toNat none))
      rw [focCali_wait turning' (place'.symm ▸ not_le.mp past) busy]
      constructor
      all_goals simp [focGetFdb, omega, state, hold, place]

/-- At the end of a turn, a sample is taken. The phase ends with its last turn. -/
theorem fired (inv : At c phase p cnt sum samples s) (turning : Turning phase)
    (room : p.hold < max 1 c.thetaCaliCntMax.toNat)
    (step : RampHold.step tau (inc c) c.thetaCaliCntMax.toNat p = none) :
    At c (if cnt + 1 ≥ turns c phase then next phase else phase) ⟨0, 0⟩ (cnt + 1)
      (sum + s.sensor.angle c r.theta) (samples ++ [⟨phase, stop phase, s.sensor.angle c r.theta⟩]) (focExec s r) := by
  have enough := inv.enough_iff (r := r) room
  obtain ⟨rfl, state, rfl, omega, place, hold, rfl, rfl, rfl⟩ := inv
  have turning' : Turning (entered s r).lo.eCali := turning
  have place' : travel (entered s r).lo.eCali (entered s r).rotor.forceTheta = p.travel := by simpa using place
  rw [focExec_cali state]
  unfold RampHold.step at step
  have past : tau ≤ p.travel := by
    by_contra under
    rw [if_neg under] at step
    split at step <;> cases step
  have all : s.cfg.thetaCaliCntMax.toNat ≤ p.hold + 1 := by
    by_contra more
    rw [if_pos past, if_neg more] at step
    cases step
  rw [focCali_sample turning' (place'.symm ▸ past) (enough.mpr all)]
  by_cases last : s.lo.thetaCaliCnt + 1 ≥ turns s.cfg s.lo.eCali
  · have last' : (entered s r).lo.thetaCaliCnt + 1 ≥ turns (entered s r).cfg (entered s r).lo.eCali := last
    rw [if_pos last, if_pos last']
    constructor
    case place =>
      exact travel_next turning
    all_goals simp [held, focGetFdb, Foc.addSample, Foc.setCali, Foc.setHoldCnt, Foc.setForceTheta, omega, state]
  · have more : ¬(entered s r).lo.thetaCaliCnt + 1 ≥ turns (entered s r).cfg (entered s r).lo.eCali := last
    rw [if_neg last, if_neg more]
    constructor
    case place =>
      exact travel_start turning
    all_goals simp [held, focGetFdb, Foc.addSample, Foc.setHoldCnt, Foc.setForceTheta, omega, state]

end At

end AvaModule.FocDrive
