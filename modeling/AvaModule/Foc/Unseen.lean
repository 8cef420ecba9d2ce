import AvaModule.Foc.Exec
import AvaModule.Foc.Leftovers
import AvaModule.Foc.Resumed

/-! The whole drive against its parts: what the observers and the controllers write is not seen by the calibration,
and without an observer the calls of an enabled drive are those of its current loop. -/
namespace AvaModule.FocMachine
open FocDrive FocCurrent SmoObs HfiObs LbgObs

/-- What the calibration writes, if at all, but does not read. -/
structure Hidden where
  theta : ℚ
  omega : ℚ
  obsTheta : ℚ
  obsOmega : ℚ
  refId : ℚ

/-- The drive with other values in the hidden fields. -/
def hide (foc : Foc) (h : Hidden) : Foc :=
  { foc with
    rotor := { foc.rotor with theta := h.theta, omega := h.omega, obsTheta := h.obsTheta, obsOmega := h.obsOmega }
    lo := { foc.lo with refId := h.refId } }

/-- The two drives differ in the hidden fields at most. -/
def Alike (foc foc' : Foc) : Prop := ∃ h, foc' = hide foc h

section Calibration
variable {foc foc' foc'' : Foc}

theorem Alike.refl (foc : Foc) : Alike foc foc := ⟨⟨_, _, _, _, _⟩, rfl⟩

theorem Alike.trans (first : Alike foc foc') (second : Alike foc' foc'') : Alike foc foc'' := by
  obtain ⟨h, rfl⟩ := first
  obtain ⟨h', rfl⟩ := second
  exact ⟨h', rfl⟩

theorem Alike.focRotorCal (alike : Alike foc foc') (theta : ℚ) :
    Alike (FocDrive.focRotorCal foc theta) (FocDrive.focRotorCal foc' theta) := by
  obtain ⟨h, rfl⟩ := alike
  have same : (hide foc h).lo.eTheta = foc.lo.eTheta := rfl
  unfold FocDrive.focRotorCal
  dsimp only
  rw [same]
  split
  · exact ⟨⟨_, _, _, _, _⟩, rfl⟩
  · exact ⟨⟨_, _, _, _, _⟩, rfl⟩

theorem Alike.focSelectTheta (alike : Alike foc foc') : Alike (focSelectTheta foc) (focSelectTheta foc') := by
  obtain ⟨h, rfl⟩ := alike
  have same : (hide foc h).lo.eTheta = foc.lo.eTheta := rfl
  unfold FocDrive.focSelectTheta
  rw [same]
  split <;> exact ⟨⟨_, _, _, _, _⟩, rfl⟩

theorem Alike.focEnable (alike : Alike foc foc') (adc : AdcRaw) :
    Alike (FocDrive.focEnable foc adc) (FocDrive.focEnable foc' adc) := by
  obtain ⟨h, rfl⟩ := alike
  exact Alike.focSelectTheta ⟨h, rfl⟩

theorem focAdcCali_hide (foc : Foc) (h : Hidden) (adc : AdcRaw) :
    focAdcCali (hide foc h) adc = ((focAdcCali foc adc).1, hide (focAdcCali foc adc).2 h) := by
  unfold focAdcCali
  dsimp only
  by_cases done : foc.lo.adcCaliCnt + 1 ≥ lf foc.cfg.adcCaliCntMax
  · rw [if_pos done]
    exact if_pos done
  · rw [if_neg done]
    exact if_neg done

theorem turnForth_hide (foc : Foc) (h : Hidden) : turnForth (hide foc h) = hide (turnForth foc) h := by
  unfold turnForth
  dsimp only
  rw [apply_ite (hide · h), apply_ite (hide · h), apply_ite (hide · h), apply_ite (hide · h)]
  rfl

theorem turnBack_hide (foc : Foc) (h : Hidden) : turnBack (hide foc h) = hide (turnBack foc) h := by
  unfold turnBack
  dsimp only
  rw [apply_ite (hide · h), apply_ite (hide · h), apply_ite (hide · h), apply_ite (hide · h)]
  rfl

theorem focCali_cw (cali : foc.lo.eCali = .cw) (adc : AdcRaw) :
    FocDrive.focCali foc adc = turnForth (FocDrive.focEnable foc adc) := by
  unfold FocDrive.focCali
  rw [cali]
  rfl

theorem focCali_ccw (cali : foc.lo.eCali = .ccw) (adc : AdcRaw) :
    FocDrive.focCali foc adc = turnBack (FocDrive.focEnable foc adc) := by
  unfold FocDrive.focCali
  rw [cali]
  rfl

theorem Alike.focCali (alike : Alike foc foc') (adc : AdcRaw) :
    Alike (FocDrive.focCali foc adc) (FocDrive.focCali foc' adc) := by
  have enabled := alike.focEnable adc
  obtain ⟨h, rfl⟩ := alike
  have same : (hide foc h).lo.eCali = foc.lo.eCali := rfl
  cases cali : foc.lo.eCali with
  | init =>
    unfold FocDrive.focCali
    rw [same, cali]
    dsimp only
    rw [focAdcCali_hide]
    dsimp only
    split
    · exact ⟨h, rfl⟩
    · exact ⟨⟨_, _, _, _, _⟩, rfl⟩
  | cw =>
    rw [focCali_cw cali, focCali_cw (same.trans cali)]
    obtain ⟨h', eq⟩ := enabled
    rw [eq, turnForth_hide]
    exact ⟨h', rfl⟩
  | ccw =>
    rw [focCali_ccw cali, focCali_ccw (same.trans cali)]
    obtain ⟨h', eq⟩ := enabled
    rw [eq, turnBack_hide]
    exact ⟨h', rfl⟩
  | finish =>
    unfold FocDrive.focCali
    rw [same, cali]
    exact ⟨⟨_, _, _, _, _⟩, rfl⟩

theorem Alike.focExec (alike : Alike foc foc') (reading : Reading) :
    Alike (FocDrive.focExec foc reading) (FocDrive.focExec foc' reading) := by
  have counted : Alike { foc with lo := { foc.lo with execCnt := foc.lo.execCnt + 1 } }
      { foc' with lo := { foc'.lo with execCnt := foc'.lo.execCnt + 1 } } := by
    obtain ⟨h, rfl⟩ := alike
    exact ⟨h, rfl⟩
  have entered : Alike (entered foc reading) (entered foc' reading) := counted.focRotorCal reading.theta
  have dispatched : Alike (FocDrive.dispatched (FocDrive.entered foc reading) reading.adc)
      (FocDrive.dispatched (FocDrive.entered foc' reading) reading.adc) := by
    have same : (FocDrive.entered foc' reading).lo.eState = (FocDrive.entered foc reading).lo.eState := by
      obtain ⟨h, eq⟩ := entered
      rw [eq]
      rfl
    unfold FocDrive.dispatched
    rw [same]
    split
    · exact entered.focCali reading.adc
    · exact entered
    · obtain ⟨h, eq⟩ := entered
      rw [eq]
      exact ⟨h, rfl⟩
    · exact entered.focEnable reading.adc
    · exact entered
  obtain ⟨h, eq⟩ := dispatched
  rw [focExec_eq, focExec_eq, eq]
  exact ⟨h, rfl⟩

end Calibration

section Step
variable (sin cos : ℚ → ℚ) (atan2 : ℚ → ℚ → ℚ)

theorem focObsIAb_alike (m : Machine) : Alike m.drive.foc (focObsIAb sin cos atan2 m).drive.foc := by
  unfold focObsIAb
  split
  · exact ⟨⟨_, _, _, _, _⟩, rfl⟩
  all_goals exact .refl _

theorem focObsIDq_alike (m : Machine) : Alike m.drive.foc (focObsIDq sin cos m).drive.foc := by
  unfold focObsIDq
  split
  · split
    · exact .refl _
    · exact ⟨⟨_, _, _, _, _⟩, rfl⟩
  · exact ⟨⟨_, _, _, _, _⟩, rfl⟩
  all_goals exact .refl _

theorem focObsVDq_foc (m : Machine) : (focObsVDq m).drive.foc = m.drive.foc := by
  unfold focObsVDq
  split <;> rfl

theorem focControl_foc (m : Machine) : (focControl m).drive.foc = m.drive.foc := by
  rw [focControl, focModeCtl_foc, focSelectMode_foc]

/-- To the calibration, the whole of `foc_enable` does what its own does. -/
theorem focEnable_alike (m : Machine) (adc : AdcRaw) :
    Alike (FocDrive.focEnable m.drive.foc adc) (focEnable sin cos atan2 m adc).drive.foc := by
  have selected := (focObsIAb_alike sin cos atan2 (focSample m adc)).focSelectTheta
  have observed := focObsIDq_alike sin cos (focTransform sin cos (focObsIAb sin cos atan2 (focSample m adc)))
  refine selected.trans (observed.trans ?_)
  have kept : (focEnable sin cos atan2 m adc).drive.foc =
      (focObsVDq (focControl (focFuse (focObsIDq sin cos (focTransform sin cos
        (focObsIAb sin cos atan2 (focSample m adc))))))).drive.foc := rfl
  rw [kept, focObsVDq_foc, focControl_foc]
  exact .refl _

theorem focCali_alike (m : Machine) (adc : AdcRaw) :
    Alike (FocDrive.focCali m.drive.foc adc) (focCali sin cos atan2 m adc).drive.foc := by
  obtain ⟨h, enabled⟩ := focEnable_alike sin cos atan2 m adc
  cases cali : m.drive.foc.lo.eCali with
  | init =>
    rw [focCali, cali]
    exact .refl _
  | cw =>
    rw [focCali, cali, focCali_cw cali]
    exact ⟨h, (congrArg turnForth enabled).trans (turnForth_hide _ h)⟩
  | ccw =>
    rw [focCali, cali, focCali_ccw cali]
    exact ⟨h, (congrArg turnBack enabled).trans (turnBack_hide _ h)⟩
  | finish =>
    rw [focCali, cali]
    have disabled : FocDrive.focDisable (FocDrive.focDisable m.drive.foc) = FocDrive.focDisable m.drive.foc := rfl
    have same : FocDrive.focCali (FocDrive.focDisable m.drive.foc) adc = FocDrive.focCali m.drive.foc adc := by
      unfold FocDrive.focCali
      rw [cali, disabled, show (FocDrive.focDisable m.drive.foc).lo.eCali = .finish from cali]
    rw [← same]
    exact .refl _

theorem dispatched_alike (m : Machine) (adc : AdcRaw) :
    Alike (FocDrive.dispatched m.drive.foc adc) (dispatched sin cos atan2 m adc).drive.foc := by
  unfold dispatched FocDrive.dispatched
  cases m.drive.foc.lo.eState with
  | cali => exact focCali_alike sin cos atan2 m adc
  | enable => exact focEnable_alike sin cos atan2 m adc
  | ready | disable | null => exact .refl _

/-- To the calibration, the whole of a call does what its own does. -/
theorem focExec_alike (m : Machine) (reading : Reading) :
    Alike (FocDrive.focExec m.drive.foc reading) (focExec sin cos atan2 m reading).drive.foc := by
  obtain ⟨h, acted⟩ := dispatched_alike sin cos atan2 (m.setFoc (entered m.drive.foc reading)) reading.adc
  exact ⟨h, congrArg FocDrive.focGetFdb acted⟩

theorem focMeasure_eq (m : Machine) (adc : AdcRaw) :
    (focTransform sin cos (focSample m adc)).drive = focMeasure sin cos m.drive adc := by
  have read : (FocDrive.focEnable m.drive.foc adc).adcRaw = (focSample m adc).drive.foc.adcRaw := by
    unfold FocDrive.focEnable focSelectTheta
    dsimp only
    split <;> rfl
  rw [focMeasure, read]
  rfl

theorem focEnable_null (m : Machine) (adc : AdcRaw) (null : m.obs.eObs = .null) :
    (focEnable sin cos atan2 m adc).drive = FocCurrent.focEnable sin cos m.drive adc := by
  have iAb : focObsIAb sin cos atan2 (focSample m adc) = focSample m adc := by
    rw [focObsIAb, show (focSample m adc).obs.eObs = .null from null]
  have iDq : focObsIDq sin cos (focTransform sin cos (focSample m adc)) = focTransform sin cos (focSample m adc) := by
    rw [focObsIDq, show (focTransform sin cos (focSample m adc)).obs.eObs = .null from null]
  have vDq : ∀ m : Machine, m.obs.eObs = .null → focObsVDq m = m := by
    intro m null
    rw [focObsVDq, null]
  rw [focEnable, iAb, iDq, vDq (focControl (focFuse (focTransform sin cos (focSample m adc)))) null, FocCurrent.focEnable,
    ← focMeasure_eq]
  rfl

/-- Without an observer, the calls of an enabled drive are those of its current loop. -/
theorem focExec_null (m : Machine) (reading : Reading) (enabled : m.drive.foc.lo.eState = .enable)
    (null : m.obs.eObs = .null) : (focExec sin cos atan2 m reading).drive = focExecEnabled sin cos m.drive reading := by
  have start : (m.setFoc (entered m.drive.foc reading)).drive.foc.lo.eState = .enable := enabled
  have acted : (dispatched sin cos atan2 (m.setFoc (entered m.drive.foc reading)) reading.adc).drive =
      FocCurrent.focEnable sin cos (m.setFoc (entered m.drive.foc reading)).drive reading.adc := by
    rw [dispatched, start]
    exact focEnable_null sin cos atan2 _ reading.adc null
  exact congrArg FocCurrent.focGetFdb acted

/-- What the calibration alone makes of an action. -/
def calibrated (foc : Foc) : Act → Foc
  | .state eState => { foc with lo := { foc.lo with eState } }
  | .theta eTheta => { foc with lo := { foc.lo with eTheta } }
  | .mode eMode => { foc with lo := { foc.lo with eMode } }
  | .exec reading => FocDrive.focExec foc reading
  | .obs _ | .refs _ | .refId _ | .voltage _ => foc

theorem step_alike {foc : Foc} {m : Machine} (alike : Alike foc m.drive.foc) (act : Act) :
    Alike (calibrated foc act) (step sin cos atan2 m act).drive.foc := by
  cases act with
  | exec reading => exact (alike.focExec reading).trans (focExec_alike sin cos atan2 m reading)
  | obs | refs | voltage => exact alike
  | state | theta | mode =>
    obtain ⟨h, eq⟩ := alike
    refine ⟨h, ?_⟩
    rw [step, Machine.setFoc, eq]
    rfl
  | refId refId =>
    obtain ⟨h, eq⟩ := alike
    refine ⟨{ h with refId }, ?_⟩
    rw [step, Machine.setFoc, eq]
    rfl

/-- In every run, whatever observer is selected and whatever the application commands in between, the calibration of the
whole drive, its states, readings, counters and offsets are those of the calibration by itself. -/
theorem run_calibrates (m : Machine) (acts : List Act) :
    ∃ h, (run sin cos atan2 m acts).drive.foc = hide (acts.foldl calibrated m.drive.foc) h := by
  have alike : ∀ foc m, Alike foc m.drive.foc →
      Alike (acts.foldl calibrated foc) (acts.foldl (step sin cos atan2) m).drive.foc := by
    induction acts with
    | nil => exact fun _ _ alike => alike
    | cons act acts ih => exact fun foc m alike => ih _ _ (step_alike sin cos atan2 alike act)
  exact alike _ m (.refl _)

end Step
end AvaModule.FocMachine
