import AvaModule.Foc.First

/-! An application that leaves the calibration and enters it again: the divisor of the last phase. -/
namespace AvaModule.FocDrive

/-- Between the calls, the application may only set the state. -/
inductive FocAct where
  | set (eState : FocState)
  | exec (reading : Reading)

variable {c : FocCfg} {pll : PllCfg} {foc : Foc} {acts : List FocAct}

def focStep (foc : Foc) : FocAct → Foc
  | .set eState => { foc with lo := { foc.lo with eState } }
  | .exec reading => focExec foc reading

def focRun (foc : Foc) (acts : List FocAct) : Foc := acts.foldl focStep foc

/-- The next call runs the last phase. -/
def Dividing (foc : Foc) : Prop := foc.lo.eState = .cali ∧ foc.lo.eCali = .finish

def DividesByZero (foc : Foc) : Prop := Dividing foc ∧ foc.lo.thetaCaliCnt = 0

/-- Some call has run the last phase. -/
def Concluded (foc : Foc) (acts : List FocAct) : Prop :=
  ∃ before reading, before ++ [.exec reading] <+: acts ∧ Dividing (focRun foc before)

section Step

/-- What a call does to the phase and to the count of the samples. -/
inductive Advance (c : FocCfg) : FocCali → U32 → FocCali → U32 → Prop where
  | stay {phase cnt} (going : phase ≠ .finish) : Advance c phase cnt phase cnt
  | begin {cnt} : Advance c .init cnt .cw cnt
  | sample {phase cnt} (turning : Turning phase) (more : ¬cnt + 1 ≥ turns c phase) : Advance c phase cnt phase (cnt + 1)
  | turn {phase cnt} (turning : Turning phase) (enough : cnt + 1 ≥ turns c phase) :
      Advance c phase cnt (next phase) (cnt + 1)
  | conclude {cnt} : Advance c .finish cnt .finish 0

/-- What the calibration of the currents leaves alone. -/
theorem focAdcCali_count (foc : Foc) (adc : AdcRaw) :
    (focAdcCali foc adc).2.cfg.npp = foc.cfg.npp ∧ (focAdcCali foc adc).2.lo.eCali = foc.lo.eCali ∧
      (focAdcCali foc adc).2.lo.thetaCaliCnt = foc.lo.thetaCaliCnt := by
  unfold focAdcCali
  dsimp only
  split <;> exact ⟨rfl, rfl, rfl⟩

theorem focCali_turning (adc : AdcRaw) (turning : Turning foc.lo.eCali) :
    (focCali foc adc).cfg = foc.cfg ∧
      Advance foc.cfg foc.lo.eCali foc.lo.thetaCaliCnt (focCali foc adc).lo.eCali (focCali foc adc).lo.thetaCaliCnt := by
  have going : foc.lo.eCali ≠ .finish := by
    intro finish
    rw [finish] at turning
    cases turning
  rcases lt_or_ge (travel foc.lo.eCali foc.rotor.forceTheta) tau with below | past
  · by_cases free : foc.lo.thetaCaliHoldCnt = 0
    · obtain ⟨force, eq, _⟩ := focCali_ramp turning adc below free
      rw [eq]
      refine ⟨focEnable_cfg, ?_⟩
      simpa only [Foc.setForceTheta, focEnable_lo] using Advance.stay going
    · rw [focCali_wait turning below free]
      refine ⟨focEnable_cfg, ?_⟩
      simpa only [focEnable_lo] using Advance.stay going
  · by_cases held : foc.lo.thetaCaliHoldCnt + 1 ≥ foc.cfg.thetaCaliCntMax
    · rw [focCali_sample turning past held]
      split
      · next enough =>
        refine ⟨focEnable_cfg, ?_⟩
        simpa only [FocDrive.held, Foc.addSample, Foc.setCali, Foc.setHoldCnt, Foc.setForceTheta, focEnable_lo] using
          Advance.turn turning enough
      · next more =>
        refine ⟨focEnable_cfg, ?_⟩
        simpa only [FocDrive.held, Foc.addSample, Foc.setHoldCnt, Foc.setForceTheta, focEnable_lo] using
          Advance.sample turning more
    · rw [focCali_hold turning past held]
      refine ⟨focEnable_cfg, ?_⟩
      simpa only [FocDrive.held, Foc.setHoldCnt, Foc.setForceTheta, focEnable_lo] using Advance.stay going

theorem focCali_advance (foc : Foc) (adc : AdcRaw) :
    (focCali foc adc).cfg.npp = foc.cfg.npp ∧
      Advance foc.cfg foc.lo.eCali foc.lo.thetaCaliCnt (focCali foc adc).lo.eCali (focCali foc adc).lo.thetaCaliCnt := by
  have turned (turning : Turning foc.lo.eCali) := focCali_turning adc turning
  cases cali : foc.lo.eCali with
  | init =>
    obtain ⟨npp', cali', cnt'⟩ := focAdcCali_count foc adc
    unfold focCali
    rw [cali]
    dsimp only
    split
    · rw [cali', cnt', cali]
      exact ⟨npp', .stay (by decide)⟩
    · rw [cnt']
      exact ⟨npp', .begin⟩
  | cw =>
    rw [cali] at turned
    exact ⟨congrArg FocCfg.npp (turned .cw).1, (turned .cw).2⟩
  | ccw =>
    rw [cali] at turned
    exact ⟨congrArg FocCfg.npp (turned .ccw).1, (turned .ccw).2⟩
  | finish =>
    have stays : (focCali foc adc).lo.eCali = foc.lo.eCali := by
      unfold focCali
      rw [cali]
      exact cali
    rw [stays, cali]
    unfold focCali
    rw [cali]
    exact ⟨rfl, .conclude⟩

/-- In another state than CALI, a call leaves the calibration alone. -/
theorem focExec_idle (reading : Reading) (idle : foc.lo.eState ≠ .cali) :
    (focExec foc reading).cfg.npp = foc.cfg.npp ∧ (focExec foc reading).lo.eCali = foc.lo.eCali ∧
      (focExec foc reading).lo.thetaCaliCnt = foc.lo.thetaCaliCnt := by
  rw [focExec_eq]
  unfold dispatched
  split
  · next cali => exact absurd cali idle
  · exact ⟨rfl, rfl, rfl⟩
  · exact ⟨rfl, rfl, rfl⟩
  · refine ⟨?_, ?_, ?_⟩ <;> simp [focGetFdb]
  · exact ⟨rfl, rfl, rfl⟩

end Step

section Runs

/-- What the phase says about the count: in the last phase it is zero once that has been run. -/
inductive Counted (c : FocCfg) (done : Prop) : FocCali → U32 → Prop where
  | init (fresh : ¬done) : Counted c done .init 0
  | cw {cnt} (fresh : ¬done) (few : cnt = 0 ∨ cnt < c.npp) : Counted c done .cw cnt
  | ccw {cnt} (fresh : ¬done) (room : c.npp * 2 = 0 → cnt + 1 ≠ 0) : Counted c done .ccw cnt
  | finish {cnt} (zero_iff : cnt = 0 ↔ done) : Counted c done .finish cnt

variable {done : Prop} {phase phase' : FocCali} {cnt cnt' : U32}

/-- On its way to its limit the count does not come back to zero, also where the limit overflows. -/
theorem Counted.advance (counted : Counted c done phase cnt) (advance : Advance c phase cnt phase' cnt') :
    Counted c (done ∨ phase = .finish) phase' cnt' := by
  cases counted with
  | init fresh =>
    cases advance with
    | stay => exact .init (by simpa using fresh)
    | begin => exact .cw (by simpa using fresh) (.inl rfl)
    | sample turning => cases turning
    | turn turning => cases turning
  | cw fresh few =>
    cases advance with
    | stay => exact .cw (by simpa using fresh) few
    | sample _ more => exact .cw (by simpa using fresh) (.inr (BitVec.not_le.mp more))
    | turn _ enough =>
      refine .ccw (by simpa using fresh) fun even => ?_
      change c.npp ≤ _ at enough
      generalize c.npp = npp at even few enough
      bv_omega
  | ccw fresh room =>
    cases advance with
    | stay => exact .ccw (by simpa using fresh) room
    | sample _ more =>
      refine .ccw (by simpa using fresh) fun even => ?_
      have limit : turns c .ccw = 0 := even
      rw [limit] at more
      exact absurd (BitVec.not_lt.mp BitVec.not_lt_zero) more
    | turn _ enough =>
      refine .finish ⟨fun zero => ?_, fun done => ?_⟩
      · rw [zero] at enough
        exact absurd zero (room (BitVec.le_zero_iff.mp enough))
      · exact absurd done (by simpa using fresh)
  | finish zero_iff =>
    cases advance with
    | stay going => exact absurd rfl going
    | sample turning => cases turning
    | turn turning => cases turning
    | conclude => exact .finish (by simp)

/-- Of the configuration, only the number of the pole pairs matters. -/
theorem Counted.congr {c' : FocCfg} (counted : Counted c done phase cnt) (npp : c'.npp = c.npp) :
    Counted c' done phase cnt := by
  cases counted with
  | init fresh => exact .init fresh
  | cw fresh few => exact .cw fresh (npp ▸ few)
  | ccw fresh room => exact .ccw fresh (npp ▸ room)
  | finish zero_iff => exact .finish zero_iff

theorem focRun_concat (foc : Foc) (acts : List FocAct) (act : FocAct) :
    focRun foc (acts ++ [act]) = focStep (focRun foc acts) act := by
  rw [focRun, List.foldl_append]
  rfl

theorem concluded_nil : ¬Concluded foc [] := by
  rintro ⟨before, reading, short, _⟩
  simp at short

theorem concluded_set (eState : FocState) : Concluded foc (acts ++ [.set eState]) ↔ Concluded foc acts := by
  simp [Concluded, List.prefix_concat_iff]

theorem concluded_exec (reading : Reading) :
    Concluded foc (acts ++ [.exec reading]) ↔ Concluded foc acts ∨ Dividing (focRun foc acts) := by
  constructor
  · rintro ⟨before, reading', short, dividing⟩
    rcases List.prefix_concat_iff.mp short with whole | earlier
    · obtain ⟨rfl, _⟩ := List.append_inj' whole rfl
      exact .inr dividing
    · exact .inl ⟨before, reading', earlier, dividing⟩
  · rintro (⟨before, reading', earlier, dividing⟩ | dividing)
    · exact ⟨before, reading', List.prefix_concat_iff.mpr (.inr earlier), dividing⟩
    · exact ⟨acts, reading, List.prefix_refl _, dividing⟩

/-- The count after any run of a zeroed `foc_t`. -/
theorem focRun_counted (c : FocCfg) (pll : PllCfg) (acts : List FocAct) :
    Counted (focRun (zeroed c pll) acts).cfg (Concluded (zeroed c pll) acts) (focRun (zeroed c pll) acts).lo.eCali
      (focRun (zeroed c pll) acts).lo.thetaCaliCnt := by
  induction acts using List.reverseRecOn with
  | nil => exact .init concluded_nil
  | append_singleton acts act ih =>
    rw [focRun_concat]
    cases act with
    | set eState =>
      rw [concluded_set]
      exact ih
    | exec reading =>
      rw [concluded_exec]
      by_cases cali : (focRun (zeroed c pll) acts).lo.eState = .cali
      · obtain ⟨npp, advance⟩ := focCali_advance (entered (focRun (zeroed c pll) acts) reading) reading.adc
        rw [entered_cfg] at npp advance
        have next := ih.advance advance
        rw [show focStep _ (.exec reading) = _ from focExec_cali cali]
        simpa only [focGetFdb, Dividing, cali, true_and] using next.congr npp
      · obtain ⟨npp, same, same'⟩ := focExec_idle reading cali
        change Counted (focExec _ reading).cfg _ (focExec _ reading).lo.eCali (focExec _ reading).lo.thetaCaliCnt
        rw [same, same']
        simpa only [Dividing, cali, false_and, or_false] using ih.congr npp

/-- Only a second run of the last phase divides by zero. -/
theorem dividesByZero_iff (c : FocCfg) (pll : PllCfg) (acts : List FocAct) :
    DividesByZero (focRun (zeroed c pll) acts) ↔
      Concluded (zeroed c pll) acts ∧ (focRun (zeroed c pll) acts).lo.eState = .cali := by
  have counted := focRun_counted c pll acts
  unfold DividesByZero Dividing
  generalize Concluded (zeroed c pll) acts = done, focRun (zeroed c pll) acts = s at counted
  obtain ⟨cnt, cnt_eq⟩ : ∃ cnt, s.lo.thetaCaliCnt = cnt := ⟨_, rfl⟩
  rw [cnt_eq] at counted ⊢
  generalize s.lo.eCali = phase at counted ⊢
  cases counted with
  | init fresh => simp [fresh]
  | cw fresh => simp [fresh]
  | ccw fresh => simp [fresh]
  | finish zero_iff => simp [← zero_iff, and_comm]

end Runs

/-- The last phase never divides by zero in a run just when no call in the state CALI follows
one that has run the last phase. -/
theorem never_divides_by_zero (c : FocCfg) (pll : PllCfg) (acts : List FocAct) :
    (∀ before reading, before ++ [.exec reading] <+: acts → ¬DividesByZero (focRun (zeroed c pll) before)) ↔
      ∀ before reading, before ++ [.exec reading] <+: acts → Concluded (zeroed c pll) before →
        (focRun (zeroed c pll) before).lo.eState ≠ .cali := by
  simp only [dividesByZero_iff, not_and]

/-- A motor whose phases are as short as they can be. -/
def quick : FocCfg :=
  { motor 1 with adcCaliCntMax := 0, thetaCaliCntMax := 1, refThetaCaliOmega := 70000 }

def idle : FocAct := .exec ⟨⟨⟨0, 0, 0⟩, 0⟩, 0⟩

/-- A whole calibration, after which the application asks for another one. -/
def twice : List FocAct := List.replicate 6 idle ++ [.set .cali]

instance : DecidablePred DividesByZero := fun _ => inferInstanceAs (Decidable ((_ ∧ _) ∧ _))

theorem twice_divides_by_zero : ¬∀ before reading, before ++ [.exec reading] <+: twice ++ [idle] →
    ¬DividesByZero (focRun (zeroed quick motorPll) before) := by
  intro never
  exact never twice _ (List.prefix_refl _) (by decide +kernel)

end AvaModule.FocDrive
