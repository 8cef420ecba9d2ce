import AvaModule.Foc.Limits
import AvaModule.Foc.Rates
import AvaModule.Lib.TunedLag

/-! The current loop with the gains of `foc_init` on its motor: the rotor stands, and both windings are first-order lags
with the resistance and the inductance that the gains are made from. -/
namespace AvaModule.FocMachine
open FocDrive FocCurrent SmoObs HfiObs LbgObs

/-- The gains of `foc_init`. -/
structure Tuned (cfg : InitCfg) (pid : Pid) : Prop where
  fs : pid.cfg.fs = cfg.curCfg.fs
  kp : pid.cfg.kp = cfg.wc * cfg.ld
  ki : pid.cfg.ki = cfg.wc * cfg.rs
  kd : pid.cfg.kd = 0

/-- One winding with its controller. -/
def InitCfg.plan (cfg : InitCfg) : TunedLag.Plan ℚ := ⟨cfg.rs, cfg.ld, cfg.wc, 1 / cfg.curCfg.fs⟩

section Pid
variable {cfg : InitCfg} {pid : Pid} {max ref fdb : ℚ}

/-- Within its limit the controller is that of the plan. -/
theorem Tuned.exec (tuned : Tuned cfg pid) (sum : |cfg.plan.sum ref ⟨fdb, pid.kiOut⟩| ≤ max)
    (volt : |cfg.plan.volt ref ⟨fdb, pid.kiOut⟩| ≤ max) :
    (pidExecIn (limited pid max) ref fdb 0).kiOut = cfg.plan.sum ref ⟨fdb, pid.kiOut⟩ ∧
      (pidExecIn (limited pid max) ref fdb 0).val = cfg.plan.volt ref ⟨fdb, pid.kiOut⟩ := by
  have integral : integrator pid.kiOut (ref - fdb) pid.cfg.ki pid.cfg.fs = cfg.plan.sum ref ⟨fdb, pid.kiOut⟩ := by
    rw [integrator, tuned.ki, tuned.fs, TunedLag.Plan.sum, InitCfg.plan]
    ring
  have kiOut : (pidExecIn (limited pid max) ref fdb 0).kiOut = cfg.plan.sum ref ⟨fdb, pid.kiOut⟩ := by
    simp only [pidExecIn, pidExec, limited, integral]
    exact clamp_eq_self (abs_le.mp sum).1 (abs_le.mp sum).2
  refine ⟨kiOut, ?_⟩
  have parts : pid.cfg.kp * (ref - fdb) + cfg.plan.sum ref ⟨fdb, pid.kiOut⟩ +
      derivative (ref - fdb) pid.prevErr pid.cfg.kd pid.cfg.fs + 0 = cfg.plan.volt ref ⟨fdb, pid.kiOut⟩ := by
    rw [derivative, tuned.kd, tuned.kp, TunedLag.Plan.volt, InitCfg.plan]
    ring
  have val : (pidExecIn (limited pid max) ref fdb 0).val = clamp (pid.cfg.kp * (ref - fdb) +
      (pidExecIn (limited pid max) ref fdb 0).kiOut +
      derivative (ref - fdb) pid.prevErr pid.cfg.kd pid.cfg.fs + 0) (-max) max := rfl
  rw [val, kiOut, parts]
  exact clamp_eq_self (abs_le.mp volt).1 (abs_le.mp volt).2

theorem Tuned.kept (tuned : Tuned cfg pid) {ffd : ℚ} : Tuned cfg (pidExecIn (limited pid max) ref fdb ffd) :=
  ⟨tuned.fs, tuned.kp, tuned.ki, tuned.kd⟩

end Pid

/-- What `foc_init` has left of its configuration to the current loop. -/
structure Gains (init : InitCfg) (d : Drive) : Prop where
  cfg : d.cfg = init.derived
  id : Tuned init d.idPid
  iq : Tuned init d.iqPid

section History
variable (sin cos : ℚ → ℚ) (atan2 : ℚ → ℚ → ℚ) {cfg : InitCfg} {d d' : Drive} {m : Machine} {adc : AdcRaw}

theorem Gains.same (gains : Gains cfg d) (config : d'.cfg = d.cfg) (same : asked d' = asked d) : Gains cfg d' := by
  have id : d'.idPid = d.idPid := congrArg Asked.idPid same
  have iq : d'.iqPid = d.iqPid := congrArg Asked.iqPid same
  exact ⟨config.trans gains.cfg, id ▸ gains.id, iq ▸ gains.iq⟩

theorem Gains.ctl (gains : Gains cfg d) (loop : Loop) : Gains cfg (loop.ctl d) := by
  by_cases cur : loop = .cur
  · subst cur
    change Gains cfg (focCurCtl d)
    unfold focCurCtl
    dsimp only
    split
    · exact { gains with }
    · exact ⟨gains.cfg, gains.id.kept, gains.iq.kept⟩
  · exact gains.same (ctl_cfg loop d) (ctl_asked cur d)

theorem Gains.modeCtl (gains : Gains cfg d) : Gains cfg (focModeCtl d) := by
  rw [modeCtl_eq]
  induction called d.foc.lo.eMode generalizing d with
  | nil => exact gains
  | cons loop loops ih => exact ih (gains.ctl loop)

theorem Gains.enable (gains : Gains cfg m.drive) : Gains cfg (focEnable sin cos atan2 m adc).drive := by
  have same := (observed_same sin cos atan2 m adc).trans (focSelectMode_same _)
  have controlled := (gains.same same.cfg same.asked).modeCtl
  have whole : (focEnable sin cos atan2 m adc).drive =
      focModulate sin cos (focObsVDq (focControl (observed sin cos atan2 m adc))).drive := rfl
  rw [whole, focObsVDq_eq]
  exact { controlled with }

theorem Gains.cali (gains : Gains cfg m.drive) : Gains cfg (focCali sin cos atan2 m adc).drive := by
  unfold focCali
  cases m.drive.foc.lo.eCali with
  | init => exact { gains with }
  | cw | ccw => exact { gains.enable sin cos atan2 with }
  | finish => exact ⟨gains.cfg, ⟨gains.id.fs, gains.id.kp, gains.id.ki, gains.id.kd⟩,
      ⟨gains.iq.fs, gains.iq.kp, gains.iq.ki, gains.iq.kd⟩⟩

theorem Gains.dispatched (gains : Gains cfg m.drive) : Gains cfg (dispatched sin cos atan2 m adc).drive := by
  unfold FocMachine.dispatched
  cases m.drive.foc.lo.eState with
  | cali => exact gains.cali sin cos atan2
  | enable => exact gains.enable sin cos atan2
  | disable => exact ⟨gains.cfg, ⟨gains.id.fs, gains.id.kp, gains.id.ki, gains.id.kd⟩,
      ⟨gains.iq.fs, gains.iq.kp, gains.iq.ki, gains.iq.kd⟩⟩
  | ready | null => exact gains

theorem Gains.run (gains : Gains cfg m.drive) (acts : List Act) : Gains cfg (run sin cos atan2 m acts).drive := by
  induction acts generalizing m with
  | nil => exact gains
  | cons act acts ih =>
    apply ih
    cases act with
    | exec reading =>
      have entered : Gains cfg (m.setFoc (focRotorCal { m.drive.foc with
          lo := { m.drive.foc.lo with execCnt := m.drive.foc.lo.execCnt + 1 } } reading.theta)).drive := { gains with }
      exact { entered.dispatched sin cos atan2 with }
    | state | theta | mode | refId | obs | refs | voltage => exact { gains with }

theorem focInit_gains (m : Machine) : Gains cfg (focInit cfg sin cos m).drive :=
  ⟨rfl, ⟨rfl, rfl, rfl, rfl⟩, ⟨rfl, rfl, rfl, rfl⟩⟩

end History

/-- A drive in its current mode whose angle is held. -/
structure Parked (ref : Dq ℚ) (d : Drive) : Prop where
  enabled : d.foc.lo.eState = .enable
  mode : d.foc.lo.eMode = .cur
  last : d.eLastMode = .cur
  theta : d.foc.lo.eTheta = .force
  still : d.foc.rotor.forceOmega = 0
  refD : d.foc.lo.refId = ref.d
  refQ : d.refPvct.cur + d.compIq = ref.q

section Call
variable {sin cos : ℚ → ℚ} {ref : Dq ℚ} {d : Drive}

/-- What a call makes of the current controllers, in terms of what it has measured. -/
structure CurStep (ref : Dq ℚ) (d d' : Drive) : Prop where
  parked : Parked ref d'
  cfg : d'.cfg = d.cfg
  cnt : d'.curDivCnt = ticked d.cfg.curDiv d.curDivCnt
  hold : d.curDivCnt + 1 < d.cfg.curDiv → asked d' = asked d
  act : ¬d.curDivCnt + 1 < d.cfg.curDiv →
    d'.idPid = pidExecIn (limited d.idPid (supply d.cfg d'.vBus)) ref.d d'.iDq.d 0 ∧
    d'.iqPid = pidExecIn (limited d.iqPid (supply d.cfg d'.vBus)) ref.q d'.iDq.q 0 ∧
    d'.out.vDq = ⟨d'.idPid.val, d'.iqPid.val⟩

theorem Parked.measures (parked : Parked ref d) (reading : Reading) :
    Parked ref (measured sin cos d reading) ∧ (measured sin cos d reading).foc.rotor.omega = 0 := by
  have theta : (entered d.foc reading).lo.eTheta = .force := parked.theta
  have lo : (measured sin cos d reading).foc.lo = (entered d.foc reading).lo := focEnable_lo _ _
  have rotor : (measured sin cos d reading).foc.rotor = { (entered d.foc reading).rotor with
      theta := (entered d.foc reading).rotor.forceTheta, omega := (entered d.foc reading).rotor.forceOmega } := by
    change (FocDrive.focEnable (entered d.foc reading) reading.adc).rotor = _
    simp only [FocDrive.focEnable, focSelectTheta, theta]
  have still : (entered d.foc reading).rotor.forceOmega = 0 := entered_forceOmega.trans parked.still
  refine ⟨⟨?_, ?_, parked.last, ?_, ?_, ?_, parked.refQ⟩, ?_⟩
  · exact (congrArg FocLo.eState lo).trans parked.enabled
  · exact (congrArg FocLo.eMode lo).trans parked.mode
  · exact (congrArg FocLo.eTheta lo).trans parked.theta
  · rw [rotor]
    exact still
  · exact (congrArg FocLo.refId lo).trans parked.refD
  · rw [rotor]
    exact still

theorem Parked.step (parked : Parked ref d) (reading : Reading) : CurStep ref d (focExecEnabled sin cos d reading) := by
  obtain ⟨here, still⟩ := @Parked.measures sin cos ref d parked reading
  have selected : focSelectMode (measured sin cos d reading) = measured sin cos d reading :=
    if_pos (here.mode.trans here.last.symm)
  have cfg : (measured sin cos d reading).cfg = d.cfg := rfl
  have cnt : (measured sin cos d reading).curDivCnt = d.curDivCnt := rfl
  have before : asked (measured sin cos d reading) = asked d := rfl
  rw [focExecEnabled_cur parked.mode, selected]
  generalize measured sin cos d reading = e at *
  by_cases waits : e.curDivCnt + 1 < e.cfg.curDiv
  · have same : focCurCtl e = { e with curDivCnt := e.curDivCnt + 1 } := if_pos waits
    rw [same]
    refine ⟨{ here with }, cfg, ?_, fun _ => before, fun due => absurd (cnt ▸ cfg ▸ waits) due⟩
    rw [ticked, if_pos (cnt ▸ cfg ▸ waits)]
    exact congrArg (· + 1) cnt
  · rw [focCurCtl_acts waits]
    have ffdQ : e.foc.rotor.omega * e.cfg.psi * 0.7 = 0 := by rw [still, zero_mul, zero_mul]
    have ffdD : -e.foc.rotor.omega * e.cfg.lq * e.iDq.q * 0.7 = 0 := by
      rw [still, neg_zero, zero_mul, zero_mul, zero_mul]
    refine ⟨{ here with }, cfg, ?_, fun below => absurd (cnt ▸ cfg ▸ below) waits, fun _ => ⟨?_, ?_, rfl⟩⟩
    · rw [ticked, if_neg (cnt ▸ cfg ▸ waits)]
      rfl
    · change pidExecIn (limited e.idPid (supply e.cfg e.vBus)) e.foc.lo.refId e.iDq.d _ = _
      rw [ffdD, here.refD, cfg, show e.idPid = d.idPid from congrArg Asked.idPid before]
      rfl
    · change pidExecIn (limited e.iqPid (supply e.cfg e.vBus)) (e.refPvct.cur + e.compIq) e.iDq.q _ = _
      rw [ffdQ, here.refQ, cfg, show e.iqPid = d.iqPid from congrArg Asked.iqPid before]
      rfl

end Call

section Axis
variable {cfg : InitCfg} {ref : ℚ} {pid : Nat → Pid} {i max : Nat → ℚ}

/-- A controller that runs on its winding as long as its limits are not met. -/
theorem axis_run (sound : cfg.plan.Sound) (tuned : Tuned cfg (pid 0))
    (exec : ∀ n, pid (n + 1) = pidExecIn (limited (pid n) (max n)) ref (i n) 0) {n : Nat}
    (winding : ∀ k < n, cfg.plan.z * i (k + 1) = cfg.plan.l * i k + cfg.plan.t * (pid (k + 1)).val)
    (room : ∀ k < n, cfg.plan.demand ref ⟨i 0, (pid 0).kiOut⟩ ≤ max k) :
    Tuned cfg (pid n) ∧ (cfg.plan.next ref)^[n] ⟨i 0, (pid 0).kiOut⟩ = ⟨i n, (pid n).kiOut⟩ := by
  induction n with
  | zero => exact ⟨tuned, rfl⟩
  | succ n ih =>
    obtain ⟨tuned, here⟩ := ih (fun k below => winding k (by omega)) fun k below => room k (by omega)
    have limits := sound.demand_run ref (s := ⟨i 0, (pid 0).kiOut⟩) n
    rw [here] at limits
    have enough := room n (Nat.lt_succ_self n)
    obtain ⟨sum, volt⟩ := tuned.exec (limits.1.trans enough) (limits.2.trans enough)
    rw [← exec] at sum volt
    have next := winding n (Nat.lt_succ_self n)
    rw [volt, mul_comm] at next
    refine ⟨exec n ▸ tuned.kept, ?_⟩
    rw [Function.iterate_succ_apply', here, TunedLag.Plan.next, sum, ← eq_div_of_mul_eq sound.z_pos.ne' next]

/-- And its output and its integrator in the next call. -/
theorem axis_volt (sound : cfg.plan.Sound) (tuned : Tuned cfg (pid 0))
    (exec : ∀ n, pid (n + 1) = pidExecIn (limited (pid n) (max n)) ref (i n) 0) {n : Nat}
    (winding : ∀ k < n, cfg.plan.z * i (k + 1) = cfg.plan.l * i k + cfg.plan.t * (pid (k + 1)).val)
    (room : ∀ k ≤ n, cfg.plan.demand ref ⟨i 0, (pid 0).kiOut⟩ ≤ max k) :
    |(pid (n + 1)).val| ≤ cfg.plan.demand ref ⟨i 0, (pid 0).kiOut⟩ ∧
      |(pid (n + 1)).kiOut| ≤ cfg.plan.demand ref ⟨i 0, (pid 0).kiOut⟩ := by
  obtain ⟨tuned, here⟩ := axis_run sound tuned exec winding fun k below => room k below.le
  have limits := sound.demand_run ref (s := ⟨i 0, (pid 0).kiOut⟩) n
  rw [here] at limits
  have enough := room n le_rfl
  obtain ⟨sum, volt⟩ := tuned.exec (limits.1.trans enough) (limits.2.trans enough)
  rw [exec, sum, volt]
  exact ⟨limits.2, limits.1⟩

end Axis

section Run
variable (sin cos : ℚ → ℚ) (atan2 : ℚ → ℚ → ℚ) {m : Machine} {ref : Dq ℚ} {readings : Nat → Reading}

/-- The machine after a number of calls with nothing between them. -/
abbrev alone (m : Machine) (readings : Nat → Reading) : Nat → Machine := after sin cos atan2 m (fun _ => []) readings

/-- Only the application selects an observer. -/
theorem focEnable_eObs (m : Machine) (adc : AdcRaw) : (focEnable sin cos atan2 m adc).obs.eObs = m.obs.eObs := by
  have iAb : ∀ m : Machine, (focObsIAb sin cos atan2 m).obs.eObs = m.obs.eObs := by
    intro m
    unfold focObsIAb
    split <;> rfl
  have iDq : ∀ m : Machine, (focObsIDq sin cos m).obs.eObs = m.obs.eObs := by
    intro m
    unfold focObsIDq
    split
    · split <;> rfl
    all_goals rfl
  have vDq : ∀ m : Machine, (focObsVDq m).obs.eObs = m.obs.eObs := by
    intro m
    unfold focObsVDq
    split <;> rfl
  exact (vDq _).trans ((iDq _).trans (iAb (focSample m adc)))

theorem focExec_eObs (m : Machine) (reading : Reading) (enabled : m.drive.foc.lo.eState = .enable) :
    (focExec sin cos atan2 m reading).obs.eObs = m.obs.eObs := by
  have start : (m.setFoc (entered m.drive.foc reading)).drive.foc.lo.eState = .enable := enabled
  change (dispatched sin cos atan2 (m.setFoc (entered m.drive.foc reading)) reading.adc).obs.eObs = _
  rw [dispatched, start]
  exact focEnable_eObs sin cos atan2 _ reading.adc

variable (readings)

theorem alone_steps (parked : Parked ref m.drive) (null : m.obs.eObs = .null) (n : Nat) :
    Parked ref (alone sin cos atan2 m readings n).drive ∧
      CurStep ref (alone sin cos atan2 m readings n).drive (alone sin cos atan2 m readings (n + 1)).drive := by
  have each : Parked ref (alone sin cos atan2 m readings n).drive ∧ (alone sin cos atan2 m readings n).obs.eObs = .null := by
    induction n with
    | zero => exact ⟨parked, null⟩
    | succ n ih =>
      have drive := focExec_null sin cos atan2 _ (readings n) ih.1.enabled ih.2
      exact ⟨drive ▸ (ih.1.step (readings n)).parked, (focExec_eObs sin cos atan2 _ _ ih.1.enabled).trans ih.2⟩
  have drive := focExec_null sin cos atan2 _ (readings n) each.1.enabled each.2
  exact ⟨each.1, drive ▸ each.1.step (readings n)⟩

section Rounds
variable (parked : Parked ref m.drive) (null : m.obs.eObs = .null) (start : m.drive.curDivCnt < m.drive.cfg.curDiv)
include parked null

theorem alone_cfg (n : Nat) : (alone sin cos atan2 m readings n).drive.cfg = m.drive.cfg := by
  induction n with
  | zero => rfl
  | succ n ih => exact (alone_steps sin cos atan2 readings parked null n).2.cfg.trans ih

include start

theorem alone_cnt (n : Nat) : (alone sin cos atan2 m readings n).drive.curDivCnt < m.drive.cfg.curDiv ∧
    (alone sin cos atan2 m readings n).drive.curDivCnt.toNat = (m.drive.curDivCnt.toNat + n) % m.drive.cfg.curDiv.toNat := by
  have below : m.drive.curDivCnt.toNat < m.drive.cfg.curDiv.toNat := BitVec.lt_def.mp start
  induction n with
  | zero => exact ⟨start, (Nat.mod_eq_of_lt below).symm⟩
  | succ n ih =>
    have cnt := (alone_steps sin cos atan2 readings parked null n).2.cnt
    rw [alone_cfg sin cos atan2 readings parked null] at cnt
    have next : (alone sin cos atan2 m readings (n + 1)).drive.curDivCnt.toNat =
        (m.drive.curDivCnt.toNat + (n + 1)) % m.drive.cfg.curDiv.toNat := by
      rw [cnt, ticked_toNat ih.1, ih.2, Divider.tick_eq (Nat.mod_lt _ (Nat.zero_lt_of_lt below)), Nat.mod_add_mod,
        Nat.add_assoc]
    exact ⟨BitVec.lt_def.mpr (next ▸ Nat.mod_lt _ (Nat.zero_lt_of_lt below)), next⟩

/-- The number of calls after which the current loop has run `n` times. -/
def due (d : Drive) : Nat → Nat
  | 0 => 0
  | n + 1 => d.cfg.curDiv.toNat - d.curDivCnt.toNat + n * d.cfg.curDiv.toNat

omit parked null in
/-- In the call after that many the counter starts over, and not before. -/
theorem due_left (n : Nat) {j : Nat} (before : due m.drive n + j < due m.drive (n + 1)) :
    (m.drive.curDivCnt.toNat + (due m.drive n + j)) % m.drive.cfg.curDiv.toNat + (due m.drive (n + 1) - (due m.drive n + j)) =
      m.drive.cfg.curDiv.toNat := by
  have below : m.drive.curDivCnt.toNat < m.drive.cfg.curDiv.toNat := BitVec.lt_def.mp start
  cases n with
  | zero =>
    simp only [due, Nat.zero_mul, Nat.add_zero, Nat.zero_add] at before ⊢
    rw [Nat.mod_eq_of_lt (by omega)]
    omega
  | succ n =>
    simp only [due, Nat.succ_mul] at before ⊢
    have place : m.drive.curDivCnt.toNat + (m.drive.cfg.curDiv.toNat - m.drive.curDivCnt.toNat +
        n * m.drive.cfg.curDiv.toNat + j) = j + (n + 1) * m.drive.cfg.curDiv.toNat := by
      rw [Nat.succ_mul]
      omega
    rw [place, Nat.add_mul_mod_self_right, Nat.mod_eq_of_lt (by omega)]
    omega

omit parked null in
theorem due_lt (n : Nat) : due m.drive n < due m.drive (n + 1) := by
  have below : m.drive.curDivCnt.toNat < m.drive.cfg.curDiv.toNat := BitVec.lt_def.mp start
  cases n with
  | zero =>
    simp only [due]
    omega
  | succ n =>
    simp only [due, Nat.succ_mul]
    omega

/-- Until its next call the loop holds what it has asked for. -/
theorem alone_holds (n : Nat) {j : Nat} (before : due m.drive n + j < due m.drive (n + 1)) :
    asked (alone sin cos atan2 m readings (due m.drive n + j)).drive =
      asked (alone sin cos atan2 m readings (due m.drive n)).drive := by
  induction j with
  | zero => rfl
  | succ j ih =>
    have sooner : due m.drive n + j < due m.drive (n + 1) := by omega
    obtain ⟨small, cnt⟩ := alone_cnt sin cos atan2 readings parked null start (due m.drive n + j)
    have left := due_left start n sooner
    rw [← cnt] at left
    have waits := (succ_lt_iff small).mpr (by omega)
    have step := (alone_steps sin cos atan2 readings parked null (due m.drive n + j)).2
    rw [← Nat.add_assoc, step.hold (alone_cfg sin cos atan2 readings parked null _ ▸ waits), ih sooner]

/-- And then each controller runs once, on what is measured in that call. -/
theorem alone_acts (n : Nat) :
    let s := fun n => (alone sin cos atan2 m readings (due m.drive n)).drive
    let max := supply m.drive.cfg (s (n + 1)).vBus
    (s (n + 1)).idPid = pidExecIn (limited (s n).idPid max) ref.d (s (n + 1)).iDq.d 0 ∧
      (s (n + 1)).iqPid = pidExecIn (limited (s n).iqPid max) ref.q (s (n + 1)).iDq.q 0 ∧
      (s (n + 1)).out.vDq = ⟨(s (n + 1)).idPid.val, (s (n + 1)).iqPid.val⟩ := by
  have later := due_lt start n
  obtain ⟨j, last⟩ : ∃ j, due m.drive (n + 1) = due m.drive n + j + 1 := ⟨due m.drive (n + 1) - due m.drive n - 1, by omega⟩
  have before : due m.drive n + j < due m.drive (n + 1) := by omega
  obtain ⟨small, cnt⟩ := alone_cnt sin cos atan2 readings parked null start (due m.drive n + j)
  have left := due_left start n before
  rw [← cnt] at left
  have acts : ¬(alone sin cos atan2 m readings (due m.drive n + j)).drive.curDivCnt + 1 <
      (alone sin cos atan2 m readings (due m.drive n + j)).drive.cfg.curDiv := by
    rw [alone_cfg sin cos atan2 readings parked null, succ_lt_iff small]
    omega
  have step := (alone_steps sin cos atan2 readings parked null (due m.drive n + j)).2.act acts
  have held := alone_holds sin cos atan2 readings parked null start n before
  have id := congrArg Asked.idPid held
  have iq := congrArg Asked.iqPid held
  simp only [asked] at id iq
  rw [alone_cfg sin cos atan2 readings parked null, id, iq, ← last] at step
  exact step

end Rounds

variable {readings}

/-- The current that is measured in the calls of the current loop, the voltage that is held from then on, and what the
integrators hold. -/
def current (m : Machine) (readings : Nat → Reading) (n : Nat) : Dq ℚ :=
  (alone sin cos atan2 m readings (due m.drive (n + 1))).drive.iDq

def volts (m : Machine) (readings : Nat → Reading) (n : Nat) : Dq ℚ :=
  (alone sin cos atan2 m readings (due m.drive (n + 1))).drive.out.vDq

def integrals (m : Machine) (readings : Nat → Reading) (n : Nat) : Dq ℚ :=
  let d := (alone sin cos atan2 m readings (due m.drive (n + 1))).drive
  ⟨d.idPid.kiOut, d.iqPid.kiOut⟩

/-- One winding over the time between two calls of the loop. -/
def Winds (p : TunedLag.Plan ℚ) (i i' v : ℚ) : Prop := p.z * i' = p.l * i + p.t * v

/-- The controller and the winding of each axis as the first call finds them. -/
def startD (m : Machine) (readings : Nat → Reading) : TunedLag.Loop ℚ :=
  ⟨(current sin cos atan2 m readings 0).d, m.drive.idPid.kiOut⟩

def startQ (m : Machine) (readings : Nat → Reading) : TunedLag.Loop ℚ :=
  ⟨(current sin cos atan2 m readings 0).q, m.drive.iqPid.kiOut⟩

/-- The motor over `n` calls of the loop, on a bus that can supply what they take. -/
structure Driven (p : TunedLag.Plan ℚ) (ref : Dq ℚ) (m : Machine) (readings : Nat → Reading) (n : Nat) : Prop where
  windD : ∀ k < n, Winds p (current sin cos atan2 m readings k).d (current sin cos atan2 m readings (k + 1)).d
    (volts sin cos atan2 m readings k).d
  windQ : ∀ k < n, Winds p (current sin cos atan2 m readings k).q (current sin cos atan2 m readings (k + 1)).q
    (volts sin cos atan2 m readings k).q
  room : ∀ k ≤ n, max (p.demand ref.d (startD sin cos atan2 m readings)) (p.demand ref.q (startQ sin cos atan2 m readings)) ≤
    supply m.drive.cfg (alone sin cos atan2 m readings (due m.drive (k + 1))).drive.vBus

/-- The error of a current in the `n`th call, from the start. -/
def settled (p : TunedLag.Plan ℚ) (ref : ℚ) (s : TunedLag.Loop ℚ) (n : Nat) : ℚ :=
  (1 - p.w * p.t) ^ n * (ref - s.i) -
    p.t / p.z * p.ahead s * ∑ k ∈ Finset.range n, (p.l / p.z) ^ k * (1 - p.w * p.t) ^ (n - 1 - k)

/-- After `foc_init`, and whatever has happened since, the currents of a standing motor settle at the bandwidth `wc` that
the gains are made for, while the bus can supply what that takes: neither a voltage nor an integrator takes more. -/
theorem current_settles (cfg : InitCfg) (sound : cfg.plan.Sound) {m₀ : Machine} (acts : List Act)
    (reached : run sin cos atan2 (focInit cfg sin cos m₀) acts = m) (parked : Parked ref m.drive) (null : m.obs.eObs = .null)
    (counts : m.drive.curDivCnt < m.drive.cfg.curDiv) {n : Nat} (driven : Driven sin cos atan2 cfg.plan ref m readings n) :
    let i := current sin cos atan2 m readings
    let v := volts sin cos atan2 m readings
    let sum := integrals sin cos atan2 m readings
    let d := startD sin cos atan2 m readings
    let q := startQ sin cos atan2 m readings
    (ref.d - (i n).d = settled cfg.plan ref.d d n ∧
      |(v n).d| ≤ cfg.plan.demand ref.d d ∧ |(sum n).d| ≤ cfg.plan.demand ref.d d) ∧
    (ref.q - (i n).q = settled cfg.plan ref.q q n ∧
      |(v n).q| ≤ cfg.plan.demand ref.q q ∧ |(sum n).q| ≤ cfg.plan.demand ref.q q) ∧
    ∀ j, due m.drive (n + 1) + j < due m.drive (n + 2) →
      asked (alone sin cos atan2 m readings (due m.drive (n + 1) + j)).drive =
        asked (alone sin cos atan2 m readings (due m.drive (n + 1))).drive := by
  intro i v sum d q
  have gains : Gains cfg m.drive := reached ▸ (focInit_gains sin cos m₀).run sin cos atan2 acts
  let s := fun n => (alone sin cos atan2 m readings (due m.drive n)).drive
  let max := fun n => supply m.drive.cfg (s (n + 1)).vBus
  have ran := alone_acts sin cos atan2 readings parked null counts
  have roomD : ∀ k ≤ n, cfg.plan.demand ref.d d ≤ max k := fun k le => (le_max_left _ _).trans (driven.room k le)
  have roomQ : ∀ k ≤ n, cfg.plan.demand ref.q q ≤ max k := fun k le => (le_max_right _ _).trans (driven.room k le)
  have voltD : ∀ k, (v k).d = (s (k + 1)).idPid.val := fun k => congrArg Dq.d (ran k).2.2
  have voltQ : ∀ k, (v k).q = (s (k + 1)).iqPid.val := fun k => congrArg Dq.q (ran k).2.2
  have windD : ∀ k < n, cfg.plan.z * (i (k + 1)).d = cfg.plan.l * (i k).d + cfg.plan.t * (s (k + 1)).idPid.val :=
    fun k below => voltD k ▸ driven.windD k below
  have windQ : ∀ k < n, cfg.plan.z * (i (k + 1)).q = cfg.plan.l * (i k).q + cfg.plan.t * (s (k + 1)).iqPid.val :=
    fun k below => voltQ k ▸ driven.windQ k below
  refine ⟨⟨?_, ?_⟩, ⟨?_, ?_⟩, fun j before => alone_holds sin cos atan2 readings parked null counts (n + 1) before⟩
  · have here := (@axis_run cfg ref.d (fun n => (s n).idPid) (fun n => (i n).d) max sound gains.id (fun n => (ran n).1) n
      windD fun k below => roomD k below.le).2
    have error := TunedLag.Plan.err_run ref.d (s := d) sound.z_pos.ne' n
    exact (congrArg (ref.d - ·.i) here).symm.trans error
  · rw [voltD]
    exact @axis_volt cfg ref.d (fun n => (s n).idPid) (fun n => (i n).d) max sound gains.id (fun n => (ran n).1) n windD roomD
  · have here := (@axis_run cfg ref.q (fun n => (s n).iqPid) (fun n => (i n).q) max sound gains.iq (fun n => (ran n).2.1) n
      windQ fun k below => roomQ k below.le).2
    have error := TunedLag.Plan.err_run ref.q (s := q) sound.z_pos.ne' n
    exact (congrArg (ref.q - ·.i) here).symm.trans error
  · rw [voltQ]
    exact @axis_volt cfg ref.q (fun n => (s n).iqPid) (fun n => (i n).q) max sound gains.iq (fun n => (ran n).2.1) n windQ roomQ

/-- The gains for two thirds of the error in each call. -/
def settling : InitCfg := { parkedCfg with curRange := 4096, wc := 2 / 3 }

/-- The winding follows: 2/3 A after the first call. -/
def settlingSample : Nat → Reading
  | 0 => benchSample
  | _ + 1 => ⟨⟨⟨1, 0, 0⟩, 2400⟩, 0⟩

def aligned : Machine :=
  run (fun _ => 0) (fun _ => 1) (fun _ _ => 0) (focInit settling (fun _ => 0) (fun _ => 1) parked)
    [.obs .null, .refId 1, .refs ⟨0, 0, 0, 0, 0, 0⟩]

theorem current_settles_aligned :
    1 - (current (fun _ => 0) (fun _ => 1) (fun _ _ => 0) aligned settlingSample 1).d =
      settled settling.plan 1 (startD (fun _ => 0) (fun _ => 1) (fun _ _ => 0) aligned settlingSample) 1 := by
  have sound : settling.plan.Sound := by
    constructor <;> decide +kernel
  have held : Parked ⟨1, 0⟩ aligned.drive := ⟨rfl, rfl, rfl, rfl, rfl, rfl, by decide +kernel⟩
  have driven : Driven (fun _ => 0) (fun _ => 1) (fun _ _ => 0) settling.plan ⟨1, 0⟩ aligned settlingSample 1 := by
    refine ⟨fun k below => ?_, fun k below => ?_, fun k le => ?_⟩
    · rw [Winds, Nat.lt_one_iff.mp below]
      decide +kernel
    · rw [Winds, Nat.lt_one_iff.mp below]
      decide +kernel
    · obtain rfl | rfl : k = 0 ∨ k = 1 := by omega
      · decide +kernel
      · decide +kernel
  exact (current_settles (fun _ => 0) (fun _ => 1) (fun _ _ => 0) settling sound
    [.obs .null, .refId 1, .refs ⟨0, 0, 0, 0, 0, 0⟩] rfl held rfl (by decide) driven).1.1

end Run

end AvaModule.FocMachine
