import AvaModule.Foc.Unseen
import AvaModule.Lib.Divider

/-! The dividers of the loops of foc/focctl.h over a run, and the voltages that the current loop holds between its calls. -/
namespace AvaModule.FocMachine
open FocDrive FocCurrent SmoObs HfiObs LbgObs

/-- The loops that run at a rate of their own. -/
inductive Loop where
  | cur
  | vel
  | pos
  | pd
  deriving DecidableEq

def Loop.ctl : Loop → Drive → Drive
  | .cur => focCurCtl
  | .vel => focVelCtl
  | .pos => focPosCtl
  | .pd => focPdCtl

def Loop.cnt : Loop → Drive → U32
  | .cur => Drive.curDivCnt
  | .vel => Drive.velDivCnt
  | .pos => Drive.posDivCnt
  | .pd => Drive.pdDivCnt

def Loop.div : Loop → DriveCfg → U32
  | .cur => DriveCfg.curDiv
  | .vel => DriveCfg.velDiv
  | .pos => DriveCfg.posDiv
  | .pd => DriveCfg.pdDiv

/-- The loops that a mode's `case` calls, in its order. -/
def called : FocMode → List Loop
  | .null | .vol => []
  | .cur | .asc => [.cur]
  | .vel => [.vel, .cur]
  | .pos => [.pos, .vel, .cur]
  | .pd => [.pd, .cur]

/-- What a call of its loop makes of a counter. -/
def ticked (div cnt : U32) : U32 := if cnt + 1 < div then cnt + 1 else 0

theorem succ_toNat {div cnt : U32} (small : cnt < div) : (cnt + 1).toNat = cnt.toNat + 1 := by
  have room := div.isLt
  have less := BitVec.lt_def.mp small
  rw [BitVec.toNat_add]
  exact Nat.mod_eq_of_lt (by change cnt.toNat + 1 < _; omega)

theorem succ_lt_iff {div cnt : U32} (small : cnt < div) : cnt + 1 < div ↔ cnt.toNat + 1 < div.toNat := by
  rw [BitVec.lt_def, succ_toNat small]

theorem ticked_toNat {div cnt : U32} (small : cnt < div) :
    (ticked div cnt).toNat = Divider.tick div.toNat cnt.toNat := by
  unfold ticked Divider.tick
  by_cases below : cnt + 1 < div
  · rw [if_pos below, if_pos ((succ_lt_iff small).mp below), succ_toNat small]
  · rw [if_neg below, if_neg fun lt => below ((succ_lt_iff small).mpr lt)]
    rfl

section Loops
variable {d : Drive}

theorem ctl_cfg (loop : Loop) (d : Drive) : (loop.ctl d).cfg = d.cfg := by
  cases loop <;> simp only [Loop.ctl, focCurCtl, focVelCtl, focPosCtl, focPdCtl, curLoops] <;> split <;> rfl

/-- A loop counts its own calls, -/
theorem ctl_self (loop : Loop) (d : Drive) : loop.cnt (loop.ctl d) = ticked (loop.div d.cfg) (loop.cnt d) := by
  unfold ticked
  cases loop <;> simp only [Loop.ctl, focCurCtl, focVelCtl, focPosCtl, focPdCtl, curLoops] <;> split
  all_goals first
    | next below => exact (if_pos below).symm
    | next full => exact (if_neg full).symm

/-- and nobody else's. -/
theorem ctl_other {loop other : Loop} (ne : loop ≠ other) (d : Drive) : other.cnt (loop.ctl d) = other.cnt d := by
  cases loop <;> cases other <;> try contradiction
  all_goals
    simp only [Loop.ctl, focCurCtl, focVelCtl, focPosCtl, focPdCtl, curLoops]
    split <;> rfl

theorem modeCtl_eq (d : Drive) : focModeCtl d = (called d.foc.lo.eMode).foldl (fun d loop => loop.ctl d) d := by
  unfold focModeCtl
  cases d.foc.lo.eMode <;> rfl

theorem called_nodup (mode : FocMode) : (called mode).Nodup := by
  cases mode <;> decide

theorem calls_cnt {loops : List Loop} (nodup : loops.Nodup) (loop : Loop) (d : Drive) :
    loop.cnt (loops.foldl (fun d loop => loop.ctl d) d) =
      if loop ∈ loops then ticked (loop.div d.cfg) (loop.cnt d) else loop.cnt d := by
  induction loops generalizing d with
  | nil => exact (if_neg List.not_mem_nil).symm
  | cons first loops ih =>
    obtain ⟨fresh, nodup⟩ := List.nodup_cons.mp nodup
    rw [List.foldl_cons, ih nodup, ctl_cfg]
    by_cases eq : first = loop
    · subst eq
      rw [if_neg fresh, ctl_self, if_pos List.mem_cons_self]
    · rw [ctl_other eq]
      have same : loop ∈ first :: loops ↔ loop ∈ loops := by simp [Ne.symm eq]
      simp only [same]

theorem modeCtl_cnt (loop : Loop) (d : Drive) : loop.cnt (focModeCtl d) =
    if loop ∈ called d.foc.lo.eMode then ticked (loop.div d.cfg) (loop.cnt d) else loop.cnt d := by
  rw [modeCtl_eq]
  exact calls_cnt (called_nodup _) loop d

theorem calls_cfg (loops : List Loop) (d : Drive) : (loops.foldl (fun d loop => loop.ctl d) d).cfg = d.cfg := by
  induction loops generalizing d with
  | nil => rfl
  | cons first loops ih => exact (ih _).trans (ctl_cfg first d)

/-- What the current loop asks for, and on which axis. -/
structure Asked where
  idPid : Pid
  iqPid : Pid
  vDq : Dq ℚ

def asked (d : Drive) : Asked := ⟨d.idPid, d.iqPid, d.out.vDq⟩

theorem ctl_asked {loop : Loop} (ne : loop ≠ .cur) (d : Drive) : asked (loop.ctl d) = asked d := by
  cases loop <;> try contradiction
  all_goals
    simp only [Loop.ctl, focVelCtl, focPosCtl, focPdCtl]
    split <;> rfl

theorem calls_asked {loops : List Loop} (none : Loop.cur ∉ loops) (d : Drive) :
    asked (loops.foldl (fun d loop => loop.ctl d) d) = asked d := by
  induction loops generalizing d with
  | nil => rfl
  | cons first loops ih =>
    obtain ⟨ne, none⟩ := not_or.mp (List.mem_cons.not.mp none)
    rw [List.foldl_cons, ih none, ctl_asked (Ne.symm ne)]

/-- The current loop holds its voltages between its calls, and asks for both anew in each. -/
theorem curCtl_asked (d : Drive) :
    if d.curDivCnt + 1 < d.cfg.curDiv then asked (focCurCtl d) = asked d
    else (focCurCtl d).out.vDq = ⟨(focCurCtl d).idPid.val, (focCurCtl d).iqPid.val⟩ := by
  unfold focCurCtl
  dsimp only
  split
  · rfl
  · rfl

theorem modeCtl_asked {d : Drive} (cur : .cur ∈ called d.foc.lo.eMode) :
    if d.curDivCnt + 1 < d.cfg.curDiv then asked (focModeCtl d) = asked d
    else (focModeCtl d).out.vDq = ⟨(focModeCtl d).idPid.val, (focModeCtl d).iqPid.val⟩ := by
  obtain ⟨front, none, split⟩ : ∃ front, Loop.cur ∉ front ∧ called d.foc.lo.eMode = front ++ [.cur] := by
    revert cur
    cases d.foc.lo.eMode with
    | null | vol => intro cur; contradiction
    | cur | asc => exact fun _ => ⟨[], by decide, rfl⟩
    | vel => exact fun _ => ⟨[.vel], by decide, rfl⟩
    | pos => exact fun _ => ⟨[.pos, .vel], by decide, rfl⟩
    | pd => exact fun _ => ⟨[.pd], by decide, rfl⟩
  have last : focModeCtl d = focCurCtl (front.foldl (fun d loop => loop.ctl d) d) := by
    rw [modeCtl_eq, split, List.foldl_append]
    rfl
  have nodup : front.Nodup := (split ▸ called_nodup d.foc.lo.eMode).of_append_left
  have cnt : (front.foldl (fun d loop => loop.ctl d) d).curDivCnt = d.curDivCnt :=
    (calls_cnt nodup .cur d).trans (if_neg none)
  have here := curCtl_asked (front.foldl (fun d loop => loop.ctl d) d)
  rw [last]
  rwa [cnt, calls_cfg, calls_asked none] at here

end Loops

section Call
variable (sin cos : ℚ → ℚ) (atan2 : ℚ → ℚ → ℚ) {m : Machine} {adc : AdcRaw}

/-- What the observer adds to the voltage of the first axis. -/
def injection (m : Machine) : ℚ := if m.obs.eObs = .hfi then m.obs.hfi.vd else 0

theorem focObsVDq_eq (m : Machine) : focObsVDq m =
    let vDq := ⟨m.drive.out.vDq.d + injection m, m.drive.out.vDq.q⟩
    { m with drive := { m.drive with out := { m.drive.out with vDq } } } := by
  unfold focObsVDq injection
  cases m.obs.eObs with
  | hfi => rfl
  | null | smo | lbg =>
    dsimp only
    rw [if_neg (by decide), add_zero]

/-- The machine as the controllers of a call find it. -/
def observed (m : Machine) (adc : AdcRaw) : Machine :=
  focFuse (focObsIDq sin cos (focTransform sin cos (focObsIAb sin cos atan2 (focSample m adc))))

/-- What `foc_enable` leaves to its controllers is what the last call has left. -/
structure SameLoops (d d' : Drive) : Prop where
  cfg : d'.cfg = d.cfg
  mode : d'.foc.lo.eMode = d.foc.lo.eMode
  cnt : ∀ loop : Loop, loop.cnt d' = loop.cnt d
  asked : asked d' = asked d

theorem SameLoops.trans {d d' d'' : Drive} (first : SameLoops d d') (second : SameLoops d' d'') : SameLoops d d'' where
  cfg := second.cfg.trans first.cfg
  mode := second.mode.trans first.mode
  cnt := fun loop => (second.cnt loop).trans (first.cnt loop)
  asked := second.asked.trans first.asked

theorem focObsIAb_same (m : Machine) : SameLoops m.drive (focObsIAb sin cos atan2 m).drive := by
  unfold focObsIAb
  split <;> exact ⟨rfl, rfl, fun loop => by cases loop <;> rfl, rfl⟩

theorem focObsIDq_same (m : Machine) : SameLoops m.drive (focObsIDq sin cos m).drive := by
  unfold focObsIDq
  split
  · split <;> exact ⟨rfl, rfl, fun loop => by cases loop <;> rfl, rfl⟩
  all_goals exact ⟨rfl, rfl, fun loop => by cases loop <;> rfl, rfl⟩

theorem observed_same (m : Machine) (adc : AdcRaw) : SameLoops m.drive (observed sin cos atan2 m adc).drive := by
  have sampled : SameLoops m.drive (focSample m adc).drive := ⟨rfl, rfl, fun loop => by cases loop <;> rfl, rfl⟩
  have transformed : ∀ m : Machine, SameLoops m.drive (focTransform sin cos m).drive := by
    refine fun m => ⟨rfl, ?_, fun loop => by cases loop <;> rfl, rfl⟩
    exact congrArg FocLo.eMode focSelectTheta_lo
  have seen := (sampled.trans (focObsIAb_same sin cos atan2 _)).trans (transformed _)
  have fused := seen.trans (focObsIDq_same sin cos _)
  exact ⟨fused.cfg, fused.mode, fused.cnt, fused.asked⟩

theorem focSelectMode_same (d : Drive) : SameLoops d (focSelectMode d) := by
  unfold focSelectMode
  split <;> exact ⟨rfl, rfl, fun loop => by cases loop <;> rfl, rfl⟩

/-- One call of an enabled drive: the counters that tick, and the voltages. -/
structure Rated (m m' : Machine) : Prop where
  cfg : m'.drive.cfg = m.drive.cfg
  mode : m'.drive.foc.lo.eMode = m.drive.foc.lo.eMode
  cnt : ∀ loop : Loop, loop.cnt m'.drive =
    if loop ∈ called m.drive.foc.lo.eMode then ticked (loop.div m.drive.cfg) (loop.cnt m.drive) else loop.cnt m.drive
  hold : .cur ∈ called m.drive.foc.lo.eMode → m.drive.curDivCnt + 1 < m.drive.cfg.curDiv →
    (m'.drive.idPid = m.drive.idPid ∧ m'.drive.iqPid = m.drive.iqPid) ∧
      m'.drive.out.vDq = ⟨m.drive.out.vDq.d + injection m', m.drive.out.vDq.q⟩
  act : .cur ∈ called m.drive.foc.lo.eMode → ¬m.drive.curDivCnt + 1 < m.drive.cfg.curDiv →
    m'.drive.out.vDq = ⟨m'.drive.idPid.val + injection m', m'.drive.iqPid.val⟩

theorem focEnable_rated (m : Machine) (adc : AdcRaw) : Rated m (focEnable sin cos atan2 m adc) := by
  have same := (observed_same sin cos atan2 m adc).trans (focSelectMode_same _)
  generalize started : focSelectMode (observed sin cos atan2 m adc).drive = d at same
  have drive : (focControl (observed sin cos atan2 m adc)).drive = focModeCtl d := congrArg focModeCtl started
  have whole : focEnable sin cos atan2 m adc =
      let m := focObsVDq (focControl (observed sin cos atan2 m adc))
      { m with drive := focModulate sin cos m.drive } := rfl
  rw [focObsVDq_eq, drive] at whole
  have cnt : ∀ loop : Loop, loop.cnt (focEnable sin cos atan2 m adc).drive = loop.cnt (focModeCtl d) := by
    rw [whole]
    exact fun loop => by cases loop <;> rfl
  have told : injection (focEnable sin cos atan2 m adc) = injection (focControl (observed sin cos atan2 m adc)) := by
    rw [whole]
    rfl
  have pids : (focEnable sin cos atan2 m adc).drive.idPid = (focModeCtl d).idPid ∧
      (focEnable sin cos atan2 m adc).drive.iqPid = (focModeCtl d).iqPid := by
    rw [whole]
    exact ⟨rfl, rfl⟩
  have vDq : (focEnable sin cos atan2 m adc).drive.out.vDq =
      ⟨(focModeCtl d).out.vDq.d + injection (focEnable sin cos atan2 m adc), (focModeCtl d).out.vDq.q⟩ := by
    rw [told, whole]
    rfl
  refine ⟨?_, ?_, fun loop => ?_, fun cur below => ?_, fun cur full => ?_⟩
  · rw [whole]
    exact (congrArg Drive.cfg (modeCtl_eq d)).trans ((calls_cfg _ d).trans same.cfg)
  · rw [whole]
    exact (congrArg (fun foc => foc.lo.eMode) (focModeCtl_foc d)).trans same.mode
  · rw [cnt, modeCtl_cnt, same.mode, same.cfg, same.cnt]
  · rw [← same.mode] at cur
    have held := modeCtl_asked cur
    rw [same.cfg, show d.curDivCnt = m.drive.curDivCnt from same.cnt .cur, if_pos below, same.asked] at held
    have kept : (focModeCtl d).out.vDq = m.drive.out.vDq := congrArg Asked.vDq held
    rw [vDq, pids.1, pids.2, kept]
    exact ⟨⟨congrArg Asked.idPid held, congrArg Asked.iqPid held⟩, rfl⟩
  · rw [← same.mode] at cur
    have anew := modeCtl_asked cur
    rw [same.cfg, show d.curDivCnt = m.drive.curDivCnt from same.cnt .cur, if_neg full] at anew
    rw [vDq, pids.1, pids.2, anew]

theorem focExec_rated (enabled : m.drive.foc.lo.eState = .enable) (reading : Reading) :
    Rated m (focExec sin cos atan2 m reading) ∧ (focExec sin cos atan2 m reading).drive.foc.lo.eState = .enable := by
  let started := m.setFoc (entered m.drive.foc reading)
  have acted : dispatched sin cos atan2 started reading.adc = focEnable sin cos atan2 started reading.adc := by
    rw [dispatched, show started.drive.foc.lo.eState = .enable from enabled]
  have rated := focEnable_rated sin cos atan2 started reading.adc
  rw [← acted] at rated
  obtain ⟨h, seen⟩ := focExec_alike sin cos atan2 m reading
  have kept : (FocDrive.focExec m.drive.foc reading).lo.eState = .enable := by
    rw [focExec_eq, FocDrive.dispatched, show (FocDrive.entered m.drive.foc reading).lo.eState = .enable from enabled]
    exact (congrArg FocLo.eState (focEnable_lo _ _)).trans enabled
  refine ⟨⟨rated.cfg, rated.mode, fun loop => ?_, rated.hold, rated.act⟩, (congrArg (fun foc => foc.lo.eState) seen).trans kept⟩
  have ticked := rated.cnt loop
  cases loop <;> exact ticked

end Call

section Run
variable (sin cos : ℚ → ℚ) (atan2 : ℚ → ℚ → ℚ) {m : Machine} {moves : Nat → List Act} {readings : Nat → Reading}

/-- What the application may do without leaving its mode. -/
def Steady : Act → Prop
  | .theta _ | .obs _ | .refs _ | .refId _ => True
  | .state _ | .mode _ | .voltage _ | .exec _ => False

/-- The machine after a number of calls, with the moves of the application before each. -/
def after (m : Machine) (moves : Nat → List Act) (readings : Nat → Reading) : Nat → Machine
  | 0 => m
  | n + 1 => focExec sin cos atan2 (run sin cos atan2 (after m moves readings n) (moves n)) (readings n)

theorem run_steady (m : Machine) {acts : List Act} (steady : ∀ act ∈ acts, Steady act) :
    SameLoops m.drive (run sin cos atan2 m acts).drive ∧
      (run sin cos atan2 m acts).drive.foc.lo.eState = m.drive.foc.lo.eState := by
  induction acts generalizing m with
  | nil => exact ⟨⟨rfl, rfl, fun _ => rfl, rfl⟩, rfl⟩
  | cons act acts ih =>
    obtain ⟨rest, state⟩ := ih (step sin cos atan2 m act) fun act mem => steady act (List.mem_cons_of_mem _ mem)
    have first : SameLoops m.drive (step sin cos atan2 m act).drive ∧
        (step sin cos atan2 m act).drive.foc.lo.eState = m.drive.foc.lo.eState := by
      have here := steady act List.mem_cons_self
      cases act with
      | theta | obs | refs | refId => exact ⟨⟨rfl, rfl, fun loop => by cases loop <;> rfl, rfl⟩, rfl⟩
      | state | mode | voltage | exec => exact here.elim
    exact ⟨first.1.trans rest, state.trans first.2⟩

theorem SameLoops.rated {m m' m'' : Machine} (same : SameLoops m.drive m'.drive) (rated : Rated m' m'') : Rated m m'' := by
  have cnt : m'.drive.curDivCnt = m.drive.curDivCnt := same.cnt .cur
  have vDq : m'.drive.out.vDq = m.drive.out.vDq := congrArg Asked.vDq same.asked
  refine ⟨rated.cfg.trans same.cfg, rated.mode.trans same.mode, fun loop => ?_, fun cur below => ?_, fun cur full => ?_⟩
  · rw [rated.cnt, same.mode, same.cfg, same.cnt]
  · obtain ⟨⟨id, iq⟩, held⟩ := rated.hold (same.mode ▸ cur) (by rwa [cnt, same.cfg])
    rw [vDq] at held
    exact ⟨⟨id.trans (congrArg Asked.idPid same.asked), iq.trans (congrArg Asked.iqPid same.asked)⟩, held⟩
  · exact rated.act (same.mode ▸ cur) (by rwa [cnt, same.cfg])

theorem after_rated (enabled : m.drive.foc.lo.eState = .enable) (steady : ∀ n, ∀ act ∈ moves n, Steady act) (n : Nat) :
    let s := after sin cos atan2 m moves readings
    Rated (s n) (s (n + 1)) ∧ (s n).drive.foc.lo.eState = .enable ∧ (s n).drive.cfg = m.drive.cfg ∧
      (s n).drive.foc.lo.eMode = m.drive.foc.lo.eMode := by
  intro s
  have moved : ∀ n, (s n).drive.foc.lo.eState = .enable →
      Rated (s n) (s (n + 1)) ∧ (s (n + 1)).drive.foc.lo.eState = .enable := by
    intro n enabled
    obtain ⟨same, state⟩ := run_steady sin cos atan2 (s n) (steady n)
    obtain ⟨rated, next⟩ := focExec_rated sin cos atan2 (state.trans enabled) (readings n)
    exact ⟨same.rated rated, next⟩
  have kept : (s n).drive.foc.lo.eState = .enable ∧ (s n).drive.cfg = m.drive.cfg ∧
      (s n).drive.foc.lo.eMode = m.drive.foc.lo.eMode := by
    induction n with
    | zero => exact ⟨enabled, rfl, rfl⟩
    | succ n ih =>
      obtain ⟨rated, next⟩ := moved n ih.1
      exact ⟨next, rated.cfg.trans ih.2.1, rated.mode.trans ih.2.2⟩
  exact ⟨(moved n kept.1).1, kept⟩

/-- The counter of a loop that the mode calls. -/
theorem after_ticks (enabled : m.drive.foc.lo.eState = .enable) (steady : ∀ n, ∀ act ∈ moves n, Steady act) {loop : Loop}
    (runs : loop ∈ called m.drive.foc.lo.eMode) (start : loop.cnt m.drive < loop.div m.drive.cfg) (n : Nat) :
    let s := after sin cos atan2 m moves readings
    loop.cnt (s n).drive < loop.div m.drive.cfg ∧ (loop.cnt (s (n + 1)).drive).toNat =
      Divider.tick (loop.div m.drive.cfg).toNat (loop.cnt (s n).drive).toNat := by
  intro s
  have next : ∀ n, loop.cnt (s n).drive < loop.div m.drive.cfg → (loop.cnt (s (n + 1)).drive).toNat =
      Divider.tick (loop.div m.drive.cfg).toNat (loop.cnt (s n).drive).toNat := by
    intro n small
    obtain ⟨rated, -, cfg, mode⟩ := @after_rated sin cos atan2 m moves readings enabled steady n
    have ticks := rated.cnt loop
    rw [mode, cfg, if_pos runs] at ticks
    rw [ticks, ticked_toNat small]
  have small : loop.cnt (s n).drive < loop.div m.drive.cfg := by
    induction n with
    | zero => exact start
    | succ n ih =>
      rw [BitVec.lt_def, next n ih]
      exact Divider.tick_lt (Nat.zero_lt_of_lt (BitVec.lt_def.mp start)) _
  exact ⟨small, next n small⟩

theorem after_idle (enabled : m.drive.foc.lo.eState = .enable) (steady : ∀ n, ∀ act ∈ moves n, Steady act) {loop : Loop}
    (idle : loop ∉ called m.drive.foc.lo.eMode) (n : Nat) :
    loop.cnt (after sin cos atan2 m moves readings n).drive = loop.cnt m.drive := by
  induction n with
  | zero => rfl
  | succ n ih =>
    obtain ⟨rated, -, -, mode⟩ := @after_rated sin cos atan2 m moves readings enabled steady n
    have same := rated.cnt loop
    rw [mode, if_neg idle, ih] at same
    exact same

/-- The voltages that the current loop holds. -/
theorem after_held (enabled : m.drive.foc.lo.eState = .enable) (steady : ∀ n, ∀ act ∈ moves n, Steady act)
    (runs : .cur ∈ called m.drive.foc.lo.eMode) (start : m.drive.curDivCnt < m.drive.cfg.curDiv) {n : Nat}
    (acted : m.drive.cfg.curDiv.toNat ≤ m.drive.curDivCnt.toNat + n) :
    let s := after sin cos atan2 m moves readings
    (s n).drive.out.vDq.q = (s n).drive.iqPid.val ∧
      (s n).drive.out.vDq.d = (s n).drive.idPid.val +
        ∑ k ∈ Finset.range ((s n).drive.curDivCnt.toNat + 1), injection (s (n - k)) := by
  intro s
  have ticks : ∀ n, _ := @after_ticks sin cos atan2 m moves readings enabled steady .cur runs start
  have below : ∀ n, (s n).drive.curDivCnt + 1 < (s n).drive.cfg.curDiv ↔
      (s n).drive.curDivCnt.toNat + 1 < m.drive.cfg.curDiv.toNat := by
    intro n
    obtain ⟨-, -, cfg, -⟩ := @after_rated sin cos atan2 m moves readings enabled steady n
    rw [cfg]
    exact succ_lt_iff (ticks n).1
  have hold : ∀ n, (s n).drive.curDivCnt.toNat + 1 < m.drive.cfg.curDiv.toNat →
      ((s (n + 1)).drive.idPid = (s n).drive.idPid ∧ (s (n + 1)).drive.iqPid = (s n).drive.iqPid) ∧
        (s (n + 1)).drive.out.vDq = ⟨(s n).drive.out.vDq.d + injection (s (n + 1)), (s n).drive.out.vDq.q⟩ := by
    intro n lt
    obtain ⟨rated, -, -, mode⟩ := @after_rated sin cos atan2 m moves readings enabled steady n
    exact rated.hold (mode ▸ runs) ((below n).mpr lt)
  have act : ∀ n, ¬(s n).drive.curDivCnt.toNat + 1 < m.drive.cfg.curDiv.toNat →
      (s (n + 1)).drive.out.vDq = ⟨(s (n + 1)).drive.idPid.val + injection (s (n + 1)), (s (n + 1)).drive.iqPid.val⟩ := by
    intro n full
    obtain ⟨rated, -, -, mode⟩ := @after_rated sin cos atan2 m moves readings enabled steady n
    exact rated.act (mode ▸ runs) fun lt => full ((below n).mp lt)
  have small : (s 0).drive.curDivCnt.toNat < m.drive.cfg.curDiv.toNat := BitVec.lt_def.mp start
  constructor
  · -- nothing is injected on the second axis
    have held := @Divider.held_eq m.drive.cfg.curDiv.toNat n (fun n => (s n).drive.curDivCnt.toNat) ℚ _
      (fun n => (s n).drive.out.vDq.q) (fun n => (s n).drive.iqPid.val) (fun _ => 0) small (fun n => (ticks n).2)
      (fun n full => (congrArg Dq.q (act n full)).trans (add_zero _).symm)
      (fun n lt => ⟨(congrArg Dq.q (hold n lt).2).trans (add_zero _).symm, congrArg Pid.val (hold n lt).1.2⟩) acted
    rwa [Finset.sum_const_zero, add_zero] at held
  · exact @Divider.held_eq m.drive.cfg.curDiv.toNat n (fun n => (s n).drive.curDivCnt.toNat) ℚ _
      (fun n => (s n).drive.out.vDq.d) (fun n => (s n).drive.idPid.val) (fun n => injection (s n)) small
      (fun n => (ticks n).2) (fun n full => congrArg Dq.d (act n full))
      (fun n lt => ⟨congrArg Dq.d (hold n lt).2, congrArg Pid.val (hold n lt).1.1⟩) acted

/-- Each loop of the mode runs in every `div`-th call, whatever the readings and the references. The current loop's
voltages are held in between, on the first axis under all that the observer has injected since. -/
theorem loops_timed (enabled : m.drive.foc.lo.eState = .enable) (steady : ∀ n, ∀ act ∈ moves n, Steady act)
    (start : ∀ loop ∈ called m.drive.foc.lo.eMode, loop.cnt m.drive < loop.div m.drive.cfg) (n : Nat) :
    let s := after sin cos atan2 m moves readings
    let seen := fun loop : Loop => (loop.cnt m.drive).toNat + n
    (∀ loop : Loop, (loop.cnt (s n).drive).toNat =
      if loop ∈ called m.drive.foc.lo.eMode then seen loop % (loop.div m.drive.cfg).toNat else (loop.cnt m.drive).toNat) ∧
    (.cur ∈ called m.drive.foc.lo.eMode → m.drive.cfg.curDiv.toNat ≤ seen .cur →
      (s n).drive.out.vDq.q = (s n).drive.iqPid.val ∧
      (s n).drive.out.vDq.d = (s n).drive.idPid.val +
        ∑ k ∈ Finset.range (seen .cur % m.drive.cfg.curDiv.toNat + 1), injection (s (n - k))) := by
  intro s seen
  have counted : ∀ loop ∈ called m.drive.foc.lo.eMode,
      (loop.cnt (s n).drive).toNat = seen loop % (loop.div m.drive.cfg).toNat := by
    intro loop runs
    have ticks : ∀ n, _ := @after_ticks sin cos atan2 m moves readings enabled steady loop runs (start loop runs)
    exact @Divider.ticks_eq _ (fun n => (loop.cnt (s n).drive).toNat) (BitVec.lt_def.mp (start loop runs))
      (fun n => (ticks n).2) n
  constructor
  · intro loop
    split
    · next runs => exact counted loop runs
    · next idle => exact congrArg BitVec.toNat (after_idle sin cos atan2 enabled steady idle n)
  · intro runs acted
    have cnt : (s n).drive.curDivCnt.toNat = seen .cur % m.drive.cfg.curDiv.toNat := counted .cur runs
    rw [← cnt]
    exact after_held sin cos atan2 enabled steady runs (start .cur runs) acted

/-- A drive whose current loop runs in every second call, with the injecting observer. -/
def injecting : Machine where
  drive := { bench with cfg := { bench.cfg with curDiv := 2 } }
  obs := ⟨.hfi, SmoObs.still, HfiObs.zeroed HfiObs.probe, LbgObs.steady, 0, 0, 0, fun _ => 0, fun _ => 0⟩

/-- After five calls two injections are held. -/
theorem loops_timed_injecting :
    let s := after (fun _ => 0) (fun _ => 1) (fun _ _ => 0) injecting (fun n => [.refs ⟨n, 0, 0, 0, 0, 0⟩]) fun _ => benchSample
    (s 5).drive.out.vDq.d = (s 5).drive.idPid.val + ∑ k ∈ Finset.range (5 % 2 + 1), injection (s (5 - k)) := by
  have steady : ∀ n : Nat, ∀ act ∈ [Act.refs ⟨n, 0, 0, 0, 0, 0⟩], Steady act := by
    intro n act mem
    rw [List.mem_singleton.mp mem]
    trivial
  have start : ∀ loop ∈ called injecting.drive.foc.lo.eMode, loop.cnt injecting.drive < loop.div injecting.drive.cfg := by
    decide
  have timed := @loops_timed (fun _ => 0) (fun _ => 1) (fun _ _ => 0) injecting _ (fun _ => benchSample) rfl steady start 5
  exact (timed.2 (by decide) (by decide)).2

end Run

end AvaModule.FocMachine
