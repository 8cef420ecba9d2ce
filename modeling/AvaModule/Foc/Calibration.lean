import AvaModule.Foc.Turns
import Mathlib.Algebra.BigOperators.Group.List.Basic

/-! A whole calibration: what it leaves behind, for any readings. -/
namespace AvaModule.FocDrive
open RampHold (period position)

variable {s foc : Foc} {c : FocCfg} {phase : FocCali} {cnt : U32} {sum : ℚ} {samples : List Sample}
  {r : Nat → Reading} {k n : Nat}

/-- The state after a number of calls. -/
def after (foc : Foc) (r : Nat → Reading) : Nat → Foc
  | 0 => foc
  | k + 1 => focExec (after foc r k) (r k)

theorem after_add (foc : Foc) (r : Nat → Reading) (k n : Nat) :
    after foc r (k + n) = after (after foc r k) (fun i => r (k + i)) n := by
  induction n with
  | zero => rfl
  | succ n ih => exact congrArg (focExec · (r (k + n))) ih

section Chain

/-- The chain of the sensor on its own. -/
def chain (c : FocCfg) (sensor : Sensor) (r : Nat → Reading) : Nat → Sensor
  | 0 => sensor
  | k + 1 => (chain c sensor r k).next c (r k).theta

def angleAt (c : FocCfg) (sensor : Sensor) (r : Nat → Reading) (k : Nat) : ℚ :=
  (chain c sensor r k).angle c (r k).theta

theorem chain_add (c : FocCfg) (sensor : Sensor) (r : Nat → Reading) (k n : Nat) :
    chain c sensor r (k + n) = chain c (chain c sensor r k) (fun i => r (k + i)) n := by
  induction n with
  | zero => rfl
  | succ n ih => exact congrArg (Sensor.next c · (r (k + n)).theta) ih

theorem angleAt_add (c : FocCfg) (sensor : Sensor) (r : Nat → Reading) (k n : Nat) :
    angleAt c sensor r (k + n) = angleAt c (chain c sensor r k) (fun i => r (k + i)) n := by
  rw [angleAt, chain_add]
  rfl

/-- What `foc_rotor_cal` leaves to the next call. -/
def Foc.measured (foc : Foc) : Sensor × Position := (foc.sensor, foc.position)

theorem focAdcCali_measured (foc : Foc) (adc : AdcRaw) : (focAdcCali foc adc).2.measured = foc.measured := by
  unfold focAdcCali
  dsimp only
  split <;> rfl

theorem focEnable_measured (foc : Foc) (adc : AdcRaw) : (focEnable foc adc).measured = foc.measured := by
  unfold focEnable focSelectTheta
  dsimp only
  split <;> rfl

theorem focCali_measured (foc : Foc) (adc : AdcRaw) : (focCali foc adc).measured = foc.measured := by
  unfold focCali
  split
  · dsimp only
    split <;> exact focAdcCali_measured foc adc
  · dsimp only
    split
    · split
      · split <;> exact focEnable_measured foc adc
      · exact focEnable_measured foc adc
    · split <;> exact focEnable_measured foc adc
  · dsimp only
    split
    · split
      · split <;> exact focEnable_measured foc adc
      · exact focEnable_measured foc adc
    · split <;> exact focEnable_measured foc adc
  · rfl

/-- No state of the drive touches what `foc_rotor_cal` has left. -/
theorem dispatched_measured (foc : Foc) (adc : AdcRaw) : (dispatched foc adc).measured = foc.measured := by
  unfold dispatched
  split
  · exact focCali_measured foc adc
  · rfl
  · rfl
  · exact focEnable_measured foc adc
  · rfl

/-- Whatever the state, the chain takes one step. -/
theorem focExec_sensor (foc : Foc) (reading : Reading) :
    (focExec foc reading).sensor = foc.sensor.next foc.cfg reading.theta := by
  rw [← entered_sensor]
  exact congrArg Prod.fst (dispatched_measured (entered foc reading) reading.adc)

/-- A configuration with another `adc_offset`. -/
def FocCfg.withAdc (c : FocCfg) (iUvw : I32Uvw) : FocCfg := { c with adcOffset := { c.adcOffset with iUvw } }

theorem after_sensor (same : ∀ j < k, ∃ o, (after s r j).cfg = c.withAdc o) :
    (after s r k).sensor = chain c s.sensor r k := by
  induction k with
  | zero => rfl
  | succ k ih =>
    obtain ⟨o, cfg⟩ := same k (Nat.lt_succ_self k)
    rw [after, focExec_sensor, cfg, ih fun j lt => same j (Nat.lt_succ_of_lt lt)]
    rfl

end Chain

section Phase

/-- The calls of a turn. -/
def turnCalls (c : FocCfg) : Nat := period tau (inc c) c.thetaCaliCntMax.toNat

/-- The calls before the one at which the `i`-th turn takes its sample. -/
def sampleCall (c : FocCfg) (i : Nat) : Nat := i * turnCalls c + (turnCalls c - 1)

/-- The samples of the first turns of a phase. -/
def phaseSamples (c : FocCfg) (phase : FocCali) (sensor : Sensor) (r : Nat → Reading) (n : Nat) : List Sample :=
  (List.range n).map fun i => ⟨phase, stop phase, angleAt c sensor r (sampleCall c i)⟩

def total (samples : List Sample) : ℚ := (samples.map Sample.sensorTheta).sum

theorem total_append (l l' : List Sample) : total (l ++ l') = total l + total l' := by
  rw [total, List.map_append, List.sum_append]
  rfl

theorem phaseSamples_succ (c : FocCfg) (phase : FocCali) (sensor : Sensor) (r : Nat → Reading) (n : Nat) :
    phaseSamples c phase sensor r (n + 1) =
      phaseSamples c phase sensor r n ++ [⟨phase, stop phase, angleAt c sensor r (sampleCall c n)⟩] := by
  simp [phaseSamples, List.range_succ]

theorem turnCalls_pos (c : FocCfg) : 0 < turnCalls c := RampHold.period_pos

/-- A turn whose angle does not move to its end never ends. -/
theorem At.stuck {p : RampHold.State ℚ} (inv : At c phase p cnt sum samples s) (turning : Turning phase)
    (stuck : inc c ≤ 0) (below : p.travel < tau) (free : p.hold = 0) :
    ∃ q, At c phase q cnt sum samples (after s r n) ∧ q.travel < tau ∧ q.hold = 0 := by
  induction n with
  | zero => exact ⟨p, inv, below, free⟩
  | succ n ih =>
    obtain ⟨q, here, below, free⟩ := ih
    obtain ⟨q', step, below', free'⟩ := RampHold.step_stuck c.thetaCaliCntMax.toNat stuck below free
    have room : q.hold < max 1 c.thetaCaliCntMax.toNat := free ▸ Nat.lt_of_lt_of_le Nat.one_pos (le_max_left 1 _)
    exact ⟨q', here.moved turning room step, below', free'⟩

variable (turning : Turning phase) (pos : 0 < inc c)
include turning pos

theorem At.position (inv : At c phase ⟨0, 0⟩ cnt sum samples s) (lt : k < turnCalls c) :
    At c phase (position tau (inc c) k) cnt sum samples (after s r k) := by
  induction k with
  | zero =>
    rw [RampHold.position_zero]
    exact inv
  | succ k ih =>
    have before := Nat.lt_of_succ_lt lt
    exact (ih before).moved turning (RampHold.position_hold before) (RampHold.step_position pos lt)

/-- A turn takes one sample, with its last call. -/
theorem At.turn (inv : At c phase ⟨0, 0⟩ cnt sum samples s) :
    At c (if cnt + 1 ≥ turns c phase then next phase else phase) ⟨0, 0⟩ (cnt + 1)
      (sum + angleAt c s.sensor r (turnCalls c - 1))
      (samples ++ [⟨phase, stop phase, angleAt c s.sensor r (turnCalls c - 1)⟩]) (after s r (turnCalls c)) := by
  have calls := turnCalls_pos c
  obtain ⟨k, eq⟩ : ∃ k, turnCalls c = k + 1 := ⟨turnCalls c - 1, by omega⟩
  have lt : k < turnCalls c := by omega
  have here : At c phase (RampHold.position tau (inc c) k) cnt sum samples (after s r k) := inv.position turning pos lt
  have sensor : (after s r k).sensor = chain c s.sensor r k := by
    refine after_sensor fun j before => ⟨c.adcOffset.iUvw, ?_⟩
    have there : At c phase (RampHold.position tau (inc c) j) cnt sum samples (after s r j) :=
      inv.position turning pos (Nat.lt_trans before lt)
    exact there.cfg
  have last := here.fired (r := r k) turning (RampHold.position_hold lt) (RampHold.step_last pos eq.symm)
  rw [sensor] at last
  rw [eq]
  exact last

theorem At.turn_busy (inv : At c phase ⟨0, 0⟩ cnt sum samples s) (lt : k < turnCalls c) :
    (after s r k).cfg = c ∧ (after s r k).lo.eState = .cali := by
  have here : At c phase _ cnt sum samples (after s r k) := inv.position turning pos lt
  exact ⟨here.cfg, here.state⟩

/-- What holds after the first `n` turns of a phase that goes on. -/
structure Turned (c : FocCfg) (phase : FocCali) (cnt : U32) (sum : ℚ) (samples : List Sample) (r : Nat → Reading)
    (n : Nat) (phase' : FocCali) (s : Foc) : Prop where
  busy : ∀ k < n * turnCalls c, (after s r k).cfg = c ∧ (after s r k).lo.eState = .cali
  here : At c phase' ⟨0, 0⟩ (cnt + BitVec.ofNat 32 n) (sum + total (phaseSamples c phase s.sensor r n))
    (samples ++ phaseSamples c phase s.sensor r n) (after s r (n * turnCalls c))

/-- One more turn. -/
theorem Turned.another (turned : Turned c phase cnt sum samples r n phase s) :
    Turned c phase cnt sum samples r (n + 1)
      (if cnt + BitVec.ofNat 32 (n + 1) ≥ turns c phase then next phase else phase) s := by
  obtain ⟨busy, here⟩ := turned
  have sensor : (after s r (n * turnCalls c)).sensor = chain c s.sensor r (n * turnCalls c) :=
    after_sensor fun j lt => ⟨c.adcOffset.iUvw, (busy j lt).1⟩
  have count : cnt + BitVec.ofNat 32 n + 1 = cnt + BitVec.ofNat 32 (n + 1) := by
    rw [BitVec.ofNat_add, ← BitVec.add_assoc]
    rfl
  have turned := here.turn (r := fun i => r (n * turnCalls c + i)) turning pos
  rw [count, sensor, ← angleAt_add, ← after_add, List.append_assoc, add_assoc] at turned
  constructor
  · intro k lt
    by_cases early : k < n * turnCalls c
    · exact busy k early
    · have place : k = n * turnCalls c + (k - n * turnCalls c) := by omega
      rw [place, after_add]
      exact here.turn_busy turning pos (by rw [Nat.succ_mul] at lt; omega)
  · rw [Nat.succ_mul, phaseSamples_succ, total_append]
    simpa [total, sampleCall] using turned

/-- Before its last turn, a phase goes on. -/
theorem At.goes_on (inv : At c phase ⟨0, 0⟩ cnt sum samples s)
    (more : ∀ j, 0 < j → j ≤ n → ¬cnt + BitVec.ofNat 32 j ≥ turns c phase) :
    Turned c phase cnt sum samples r n phase s := by
  induction n with
  | zero => exact ⟨by simp, by simpa [phaseSamples, total, after] using inv⟩
  | succ n ih =>
    have turned := Turned.another turning pos (ih fun j pos le => more j pos (Nat.le_succ_of_le le))
    rwa [if_neg (more (n + 1) (Nat.succ_pos n) (Nat.le_refl _))] at turned

/-- A phase ends when its count is reached. -/
theorem At.ends (inv : At c phase ⟨0, 0⟩ cnt sum samples s) (some : 0 < n)
    (more : ∀ j, 0 < j → j < n → ¬cnt + BitVec.ofNat 32 j ≥ turns c phase)
    (last : cnt + BitVec.ofNat 32 n ≥ turns c phase) : Turned c phase cnt sum samples r n (next phase) s := by
  obtain ⟨n, rfl⟩ : ∃ m, n = m + 1 := ⟨n - 1, by omega⟩
  have turned := Turned.another turning pos
    (inv.goes_on turning pos fun j pos le => more j pos (Nat.lt_succ_of_le le) : Turned c phase cnt sum samples r n phase s)
  rwa [if_pos last] at turned

end Phase

end AvaModule.FocDrive
