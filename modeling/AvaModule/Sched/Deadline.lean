import AvaModule.Lib.Counter
import AvaModule.Sched.Runs

/-! Execution times on the `u64` clock, for both scheduler types and both widths
of `usz`. The task table keeps readings and deadlines in `usz` words; the
timeline of a run keeps them as they were read. -/
namespace AvaModule.Scheduler
open Transition

variable {T : Target} {P : Platform T} {s s' : Sched T} {ops : List (Op T)} {i : Nat}

/-- The creation and the last end of every task. -/
structure Timeline (T : Target) where
  created : Nat → Option (SchedTaskCfg T × U64)
  ended : Nat → Option U64

namespace Timeline

def start : Timeline T := ⟨fun _ => none, fun _ => none⟩

def observe (tl : Timeline T) : Event T → Timeline T
  | .created i taskCfg ts => { tl with created := Function.update tl.created i (some (taskCfg, ts)) }
  | .ended i ts => { tl with ended := Function.update tl.ended i (some ts) }
  | _ => tl

/-- The time from which the next execution of an executed task is due. -/
def deadline (P : Platform T) (tl : Timeline T) (i : Nat) : Option Nat := do
  let (taskCfg, _) ← tl.created i
  let endTs ← tl.ended i
  return endTs.toNat + (P.hz2tick taskCfg.execFreq).toNat

theorem deadline_eq_some {tl : Timeline T} {due : Nat} (found : tl.deadline P i = some due) :
    ∃ taskCfg ts endTs, tl.created i = some (taskCfg, ts) ∧ tl.ended i = some endTs ∧
      endTs.toNat + (P.hz2tick taskCfg.execFreq).toNat = due := by
  obtain ⟨⟨taskCfg, ts⟩, created, rest⟩ := Option.bind_eq_some_iff.mp found
  obtain ⟨endTs, ended, sum⟩ := Option.bind_eq_some_iff.mp rest
  exact ⟨taskCfg, ts, endTs, created, ended, Option.some.inj sum⟩

/-- A callback starts no earlier than the delay after the creation of its task
and the deadline its last execution has set. -/
def OnTime (P : Platform T) (tl : Timeline T) : Event T → Prop
  | .began i now =>
      (∀ taskCfg ts, tl.created i = some (taskCfg, ts) →
        ts.toNat + taskCfg.delayTick.toNat ≤ now.toNat) ∧
      ∀ due, tl.deadline P i = some due → due ≤ now.toNat
  | _ => True

end Timeline

/-- Every event of a history is on time. -/
def Timely (P : Platform T) : Timeline T → List (Event T) → Prop
  | _, [] => True
  | tl, event :: events => tl.OnTime P event ∧ Timely P (tl.observe event) events

def Sched.timeline (s : Sched T) : Timeline T := s.history.foldl Timeline.observe .start

theorem timely_concat (tl : Timeline T) (events : List (Event T)) (event : Event T) :
    Timely P tl (events ++ [event]) ↔
      Timely P tl events ∧ (events.foldl Timeline.observe tl).OnTime P event := by
  induction events generalizing tl with
  | nil => simp [Timely]
  | cons first events ih =>
    simp only [List.cons_append, Timely, List.foldl_cons, ih, and_assoc]

@[simp] theorem executedTask_createTs (task : SchedTask T) (endTs : U64) :
    (executedTask P task endTs).status.createTs = task.status.createTs := by
  unfold executedTask
  dsimp only
  split <;> rfl

/-- A task that is still running after its execution has got its next deadline. -/
theorem executedTask_nextExecTs {task : SchedTask T} {endTs : U64}
    (running : (executedTask P task endTs).status.eState = .running) :
    (executedTask P task endTs).status.nextExecTs =
      toUsz (endTs + P.hz2tick (executedTask P task endTs).cfg.execFreq) := by
  unfold executedTask at running ⊢
  dsimp only at running ⊢
  split
  · rfl
  · next dead =>
    rw [if_neg dead] at running
    cases running

/-- What the words of the table mean on the timeline, when every reading so far
is at most `high`. -/
structure Timing (P : Platform T) (s : Sched T) (high : U64) : Prop where
  timely : Timely P .start s.history
  fresh : ∀ i, s.taskNum ≤ i → s.timeline.created i = none ∧ s.timeline.ended i = none
  created : ∀ i taskCfg ts, s.timeline.created i = some (taskCfg, ts) →
    ts ≤ high ∧ (s.tasks i).cfg = taskCfg ∧ (s.tasks i).status.createTs = toUsz ts
  ended : ∀ i endTs, s.timeline.ended i = some endTs → (s.tasks i).status.eState = .running →
    (s.tasks i).status.nextExecTs = toUsz (endTs + P.hz2tick (s.tasks i).cfg.execFreq)

theorem toNat_toUsz (ts : U64) : (toUsz ts : Usz T).toNat = ts.toNat % T.modulus :=
  BitVec.toNat_setWidth T.bits ts

theorem toUsz_eq_word (ts : U64) : (toUsz ts : Usz T) = Counter.word T.bits ts.toNat := by
  apply BitVec.eq_of_toNat_eq
  rw [toNat_toUsz, Counter.word, BitVec.toNat_ofNat, Target.modulus]

/-- The distance of two readings in `usz` is at most their distance. -/
theorem toUsz_sub_le {ts now : U64} (le : ts ≤ now) :
    (toUsz now - toUsz ts : Usz T).toNat ≤ now.toNat - ts.toNat := by
  rw [toUsz_eq_word, toUsz_eq_word, Counter.word_sub le, Counter.word, BitVec.toNat_ofNat]
  exact Nat.mod_le _ _

theorem timeline_of_history {events : List (Event T)} (history : s'.history = s.history ++ events) :
    s'.timeline = events.foldl Timeline.observe s.timeline := by
  rw [Sched.timeline, history, List.foldl_append]
  rfl

namespace Timing
variable {high : U64}

theorem later (timing : Timing P s low) (le : low ≤ high) : Timing P s high := by
  refine ⟨timing.timely, timing.fresh, ?_, timing.ended⟩
  intro j taskCfg ts found
  obtain ⟨before, same⟩ := timing.created j taskCfg ts found
  exact ⟨BitVec.le_trans before le, same⟩

theorem sameTable (timing : Timing P s high) (same : SameTable s s') (history : s'.history = s.history) :
    Timing P s' high := by
  have timeline : s'.timeline = s.timeline := by rw [Sched.timeline, history, Sched.timeline]
  obtain ⟨_, num, tasks⟩ := same
  refine ⟨history ▸ timing.timely, ?_, ?_, ?_⟩
  · rw [timeline, num]
    exact timing.fresh
  · rw [timeline, tasks]
    exact timing.created
  · rw [timeline, tasks]
    exact timing.ended

theorem add (timing : Timing P s high) {taskCfg : SchedTaskCfg T} {ts : U64} {ret : Int} (past : ts ≤ high)
    (run : schedAddTask P s taskCfg ts = some (s', ret)) : Timing P s' high := by
  obtain ⟨_, _, _, num, tasks, history⟩ := add_table run
  have timeline : s'.timeline = s.timeline.observe (.created s.taskNum taskCfg ts) :=
    timeline_of_history history
  refine ⟨?_, ?_, ?_, ?_⟩
  · rw [history, timely_concat]
    exact ⟨timing.timely, trivial⟩
  · intro j above
    have old := timing.fresh j (by omega)
    rw [timeline]
    refine ⟨?_, old.2⟩
    exact (Function.update_of_ne (by omega) _ _).trans old.1
  · intro j cfg created found
    rw [timeline] at found
    rw [tasks]
    by_cases self : j = s.taskNum
    · subst self
      simp only [Timeline.observe, Function.update_self, Option.some.injEq, Prod.mk.injEq] at found
      obtain ⟨rfl, rfl⟩ := found
      rw [Function.update_self]
      exact ⟨past, rfl, rfl⟩
    · rw [Function.update_of_ne self]
      exact timing.created j cfg created ((Function.update_of_ne self _ _).symm.trans found)
  · intro j endTs found running
    rw [timeline] at found
    rw [tasks] at running ⊢
    by_cases self : j = s.taskNum
    · subst self
      have none := (timing.fresh s.taskNum (Nat.le_refl _)).2
      exact absurd (none.symm.trans found) (by simp)
    · rw [Function.update_of_ne self] at running ⊢
      exact timing.ended j endTs found running

theorem addAll (timing : Timing P s high) {script : List (SchedTaskCfg T × U64)}
    (past : ∀ call ∈ script, call.2 ≤ high) (run : schedAddTasks P script s = some s') :
    Timing P s' high := by
  induction script generalizing s with
  | nil =>
    cases run
    exact timing
  | cons call script ih =>
    obtain ⟨⟨s₁, ret⟩, first, rest⟩ := Option.bind_eq_some_iff.mp run
    have early := past call (by simp)
    have others : ∀ call ∈ script, call.2 ≤ high := fun other inside => past other (by simp [inside])
    exact ih (timing.add early first) others rest

theorem finish (timing : Timing P s high) {endTs : U64} (lt : i < s.taskNum)
    (run : execFinish P s i endTs = some s') : Timing P s' high := by
  obtain ⟨_, num, tasks, history⟩ := finish_table run
  have timeline : s'.timeline = s.timeline.observe (.ended i endTs) := timeline_of_history history
  refine ⟨?_, ?_, ?_, ?_⟩
  · rw [history, timely_concat]
    exact ⟨timing.timely, trivial⟩
  · intro j above
    have old := timing.fresh j (by omega)
    rw [timeline]
    exact ⟨old.1, (Function.update_of_ne (by omega) _ _).trans old.2⟩
  · intro j cfg created found
    rw [timeline] at found
    rw [tasks]
    have old := timing.created j cfg created found
    by_cases self : j = i
    · subst self
      rw [Function.update_self, executedTask_cfg, executedTask_createTs]
      exact old
    · rw [Function.update_of_ne self]
      exact old
  · intro j last found running
    rw [timeline] at found
    rw [tasks] at running ⊢
    by_cases self : j = i
    · subst self
      simp only [Timeline.observe, Function.update_self, Option.some.injEq] at found
      subst found
      rw [Function.update_self] at running ⊢
      exact executedTask_nextExecTs running
    · rw [Function.update_of_ne self] at running ⊢
      exact timing.ended j last ((Function.update_of_ne self _ _).symm.trans found) running

/-- The start of a callback, if the reading's word is below the deadline's word
whenever the reading is before the deadline. -/
theorem begin (timing : Timing P s now)
    (running : (s.tasks i).status.eState = .running) (ready : Ready s i (toUsz now))
    (fit : ∀ due, s.timeline.deadline P i = some due → due < 2 ^ 64)
    (near : ∀ due, s.timeline.deadline P i = some due → now.toNat < due →
      now.toNat % T.modulus < due % T.modulus) :
    Timing P (s.record (.began i now)) now := by
  have history := history_record s (rfl : (Event.began i now).external = true)
  have timeline : (s.record (.began i now)).timeline = s.timeline := timeline_of_history history
  have onTime : s.timeline.OnTime P (.began i now) := by
    constructor
    · intro taskCfg ts created
      obtain ⟨before, cfg, createTs⟩ := timing.created i taskCfg ts created
      have waited := ready.2.1
      rw [cfg, createTs, BitVec.lt_def] at waited
      have apart := toUsz_sub_le (T := T) before
      rw [BitVec.le_def] at before
      omega
    · intro due found
      obtain ⟨taskCfg, ts, endTs, created, ended, sum⟩ := Timeline.deadline_eq_some found
      obtain ⟨_, cfg, _⟩ := timing.created i taskCfg ts created
      have word := timing.ended i endTs ended running
      have bound := fit due found
      have whole : (endTs + P.hz2tick taskCfg.execFreq).toNat = due := by
        rw [BitVec.toNat_add, sum, Nat.mod_eq_of_lt bound]
      have reached := ready.2.2
      rw [word, cfg, BitVec.lt_def, toNat_toUsz, toNat_toUsz, whole] at reached
      by_contra early
      exact reached (near due found (by omega))
  refine ⟨?_, ?_, ?_, ?_⟩
  · rw [history, timely_concat]
    exact ⟨timing.timely, onTime⟩
  · rw [timeline]
    exact timing.fresh
  · rw [timeline]
    exact timing.created
  · rw [timeline]
    exact timing.ended

end Timing

/-- The task `lo->f_get_task` returns. -/
def selected (P : Platform T) (s : Sched T) : Option Nat := (fGetTask P s).bind Prod.snd

theorem selected_of_select {currTs : Usz T}
    (select : fGetTask P { s with currTs := currTs } = some (s', some i)) : selected P s = some i := by
  unfold fGetTask at select
  unfold selected fGetTask
  cases eType : s.eType with
  | fcfs =>
    simp only [eType] at select ⊢
    have same (eType : SchedType) : fcfsIdx { s with eType, currTs } = fcfsIdx s := rfl
    rw [same] at select
    cases idx : fcfsIdx s with
    | none =>
      rw [idx] at select
      cases select
    | some idx =>
      rw [idx] at select
      cases select
      rfl
  | cfs =>
    simp only [eType] at select ⊢
    obtain ⟨task, found, done⟩ := Option.map_eq_some_iff.mp select
    cases done
    rw [show schedCfsGetTask P s = some (some i) from found]
    rfl

/-- The readings a call takes, in order. -/
def Op.readings : Op T → List U64
  | .add _ ts => [ts]
  | .exec now script endTs => now :: (script.map Prod.snd ++ [endTs])

/-- The deadlines set so far are below `2 ^ 64`. -/
def DeadlinesFit (P : Platform T) (s : Sched T) : Prop :=
  ∀ i due, s.timeline.deadline P i = some due → due < 2 ^ 64

/-- When `sched_exec` is called before the deadline of the task it selects, after
that task's delay, the word of its reading is below the word of the deadline. -/
def SameWindow (P : Platform T) (op : Op T) (s : Sched T) : Prop :=
  match op with
  | .add _ _ => True
  | .exec now _ _ => ∀ i due, selected P s = some i → s.timeline.deadline P i = some due →
      ¬toUsz now - (s.tasks i).status.createTs < (s.tasks i).cfg.delayTick →
        now.toNat < due → now.toNat % T.modulus < due % T.modulus

/-- What every call keeps: the table's words, and the queue under CFS. -/
structure Clocked (P : Platform T) (s : Sched T) (high : U64) : Prop where
  timing : Timing P s high
  cfs : s.eType = .cfs → ∃ queue, CfsInv P s [] queue

/-- The last reading of a call that runs a callback. -/
def Op.last : Op T → U64
  | .add _ ts => ts
  | .exec _ _ endTs => endTs

theorem Op.last_mem (op : Op T) : op.last ∈ op.readings := by
  cases op <;> simp [Op.last, Op.readings]

theorem Op.le_last {op : Op T} (clock : op.readings.Pairwise (· ≤ ·)) {ts : U64} (taken : ts ∈ op.readings) :
    ts ≤ op.last := by
  cases op with
  | add taskCfg ts' =>
    obtain rfl := List.mem_singleton.mp taken
    exact BitVec.le_refl ts
  | exec now script endTs =>
    rw [Op.readings, ← List.cons_append] at clock taken
    rcases List.mem_append.mp taken with earlier | last
    · exact (List.pairwise_append.mp clock).2.2 ts earlier endTs (by simp)
    · rw [List.mem_singleton.mp last]
      exact BitVec.le_refl endTs

/-- The execution of the selected task. -/
theorem Timing.call {high now endTs : U64} {script : List (SchedTaskCfg T × U64)} {s₀ : Sched T}
    (begun : Timing P (s.record (.began i now)) now) (lt : i < s.taskNum)
    (same : SameTable s s₀) (history : s₀.history = s.history) (later : now ≤ high)
    (past : ∀ call ∈ script, call.2 ≤ high) (run : execCall P s₀ i now script endTs = some s') :
    Timing P s' high := by
  obtain ⟨s₁, s₂, _, same₁, history₁, added, finished⟩ := call_table run
  have both : SameTable (s.record (.began i now)) (s₁.record (.began i now)) :=
    ⟨same₁.eType.trans same.eType, same₁.taskNum.trans same.taskNum, same₁.tasks.trans same.tasks⟩
  have began : (s₁.record (.began i now)).history = (s.record (.began i now)).history := by
    rw [history_record s₁ rfl, history_record s rfl, history₁, history]
  have num := (addAll_table added).2.1
  have inside : i < s₂.taskNum := by
    rw [num, both.taskNum, record_taskNum]
    omega
  exact (((begun.later later).sameTable both began).addAll past added).finish inside finished

/-- One call, whose readings come after the readings before it. -/
theorem step_clocked {op : Op T} {low : U64} (clocked : Clocked P s low)
    (clock : op.readings.Pairwise (· ≤ ·)) (after : ∀ ts ∈ op.readings, low ≤ ts)
    (fit : DeadlinesFit P s) (near : SameWindow P op s) (run : step P op s = some s') :
    Clocked P s' op.last := by
  obtain ⟨timing, cfs⟩ := clocked
  have past : ∀ ts ∈ op.readings, ts ≤ op.last := fun ts taken => Op.le_last clock taken
  have whole := timing.later (after op.last op.last_mem)
  constructor
  · cases op with
    | add taskCfg ts =>
      obtain ⟨⟨s₁, ret⟩, added, done⟩ := Option.map_eq_some_iff.mp run
      cases done
      exact whole.add (past ts (by simp [Op.readings])) added
    | exec now script endTs =>
      obtain ⟨⟨s₁, ret⟩, executed, done⟩ := Option.map_eq_some_iff.mp run
      cases done
      obtain ⟨s₀, found, select, outcome⟩ := schedExec_cases executed
      obtain ⟨⟨eType, num, tasks⟩, history, _⟩ := select_table select
      have same : SameTable s s₀ := ⟨eType, num, tasks⟩
      rcases outcome with ⟨rfl, _⟩ | ⟨i, rfl, ready, _, call⟩
      · exact whole.sameTable same history
      · obtain ⟨lt, running⟩ := select_running (s := { s with currTs := toUsz now })
          (fun cfsType => (cfs cfsType).imp fun queue inv => inv.tick (toUsz now)) select
        have early := timing.later (after now (by simp [Op.readings]))
        have begun := early.begin running ready (fit i)
          fun due found => near i due (selected_of_select select) found ready.2.1
        refine begun.call lt same history (past now (by simp [Op.readings])) ?_ call
        intro added inside
        have taken := List.mem_map_of_mem (f := Prod.snd) inside
        exact past added.2 (by simp [Op.readings, taken])
  · intro cfsType
    obtain ⟨queue, inv⟩ := cfs ((step_eType run).symm.trans cfsType)
    exact step_inv inv run

theorem runs_clocked {low : U64} (clocked : Clocked P s low)
    (clock : (ops.flatMap Op.readings).Pairwise (· ≤ ·)) (after : ∀ ts ∈ ops.flatMap Op.readings, low ≤ ts)
    (admits : Admits (step P) (fun op s => DeadlinesFit P s ∧ SameWindow P op s) ops s)
    (run : runs (step P) ops s = some s') : ∃ high, Clocked P s' high := by
  induction ops generalizing s low with
  | nil =>
    cases run
    exact ⟨low, clocked⟩
  | cons op ops ih =>
    obtain ⟨s₁, first, rest⟩ := Option.bind_eq_some_iff.mp run
    obtain ⟨⟨fit, near⟩, next⟩ := admits
    rw [List.flatMap_cons] at clock after
    obtain ⟨early, late, between⟩ := List.pairwise_append.mp clock
    have before : ∀ ts ∈ op.readings, low ≤ ts := fun ts taken => after ts (List.mem_append_left _ taken)
    have clocked₁ := step_clocked clocked early before fit near first
    exact ih clocked₁ late (between op.last op.last_mem) (next s₁ first) rest

theorem zeroed_clocked (P : Platform T) (eType : SchedType) : Clocked P (schedInit zeroed eType) 0 := by
  refine ⟨⟨trivial, fun _ _ => ⟨rfl, rfl⟩, ?_, ?_⟩, ?_⟩
  · rintro i taskCfg ts ⟨⟩
  · rintro i endTs ⟨⟩
  · rintro rfl
    exact ⟨[], zeroed_inv P⟩

/-- Over every run of a non-decreasing clock a first execution starts no earlier
than the delay after the creation, and a later one no earlier than the deadline
its predecessor has set, as long as no deadline is reached early in `usz`. -/
theorem runs_timely {eType : SchedType} (clock : (ops.flatMap Op.readings).Pairwise (· ≤ ·))
    (admits : Admits (step P) (fun op s => DeadlinesFit P s ∧ SameWindow P op s) ops (schedInit zeroed eType))
    (run : runs (step P) ops (schedInit zeroed eType) = some s) : Timely P .start s.history := by
  obtain ⟨high, clocked⟩ :=
    runs_clocked (zeroed_clocked P eType) clock (fun ts _ => Nat.zero_le ts.toNat) admits run
  exact clocked.timing.timely

/-- On a host the words are the readings, so no deadline is reached early. -/
theorem sameWindow_host {P : Platform .host} {s : Sched .host} (fit : DeadlinesFit P s) (op : Op .host) :
    SameWindow P op s := by
  cases op with
  | add => trivial
  | exec now =>
    intro i due _ found _ early
    have bound := fit i due found
    have modulus : Target.host.modulus = 2 ^ 64 := rfl
    rw [modulus, Nat.mod_eq_of_lt now.isLt, Nat.mod_eq_of_lt bound]
    exact early

/-- On a host every run of a non-decreasing clock is timely. -/
theorem runs_timely_host {P : Platform .host} {ops : List (Op .host)} {s : Sched .host} {eType : SchedType}
    (clock : (ops.flatMap Op.readings).Pairwise (· ≤ ·))
    (admits : Admits (step P) (fun _ s => DeadlinesFit P s) ops (schedInit zeroed eType))
    (run : runs (step P) ops (schedInit zeroed eType) = some s) : Timely P .start s.history := by
  have windows := admits.mono fun op s fit => And.intro fit (sameWindow_host fit op)
  obtain ⟨high, clocked⟩ :=
    runs_clocked (zeroed_clocked P eType) clock (fun ts _ => Nat.zero_le ts.toNat) windows run
  exact clocked.timing.timely

section Wrapped

/-- A table of eight tasks as the 32-bit build lays it out, at a clock of microseconds. -/
def mcuPlatform : Platform .mcu where
  taskMax := 8
  node i := BitVec.ofNat _ (8192 + 60 * i + 48)
  containerOf p := (p.toNat - 48 - 8192) / 60
  hz2tick freq := BitVec.ofNat _ (1000000 / freq.toNat)
  containerOf_node := by decide
  node_ne_null := by decide
  node_aligned := by decide

/-- A task of 1000 Hz. -/
def mcuTask : SchedTaskCfg .mcu := ⟨0, 1, 1000, 0, 0, some 4096⟩

theorem deadlinesFit_mcu {s : Sched .mcu}
    (early : ∀ i endTs, s.timeline.ended i = some endTs → endTs.toNat < 2 ^ 33) :
    DeadlinesFit mcuPlatform s := by
  intro i due found
  obtain ⟨taskCfg, ts, endTs, _, ended, sum⟩ := Timeline.deadline_eq_some found
  have bound := early i endTs ended
  have tick : (mcuPlatform.hz2tick taskCfg.execFreq).toNat ≤ 1000000 := by
    exact Nat.le_trans (Nat.mod_le _ _) (Nat.div_le_self _ _)
  omega

theorem only_ended (last : U64) {endTs : U64} (found : Function.update (fun _ => none) 0 (some last) i = some endTs) :
    endTs = last := by
  by_cases self : i = 0
  · subst self
    rw [Function.update_self] at found
    exact (Option.some.inj found).symm
  · rw [Function.update_of_ne self] at found
    cases found

/-- Three calls: the second execution starts at the deadline the first has set. -/
def timelyOps : List (Op .mcu) := [.add mcuTask 0, .exec 30 [] 40, .exec 1040 [] 1050]

theorem timelyOps_admits :
    Admits (step mcuPlatform) (fun op s => DeadlinesFit mcuPlatform s ∧ SameWindow mcuPlatform op s) timelyOps
      (schedInit zeroed .fcfs) := by
  refine .cons ⟨?_, trivial⟩ rfl (.cons ⟨?_, ?_⟩ rfl (.cons ⟨?_, ?_⟩ rfl trivial))
  · apply deadlinesFit_mcu
    rintro i endTs ⟨⟩
  · apply deadlinesFit_mcu
    rintro i endTs ⟨⟩
  · intro i due _ found
    obtain ⟨_, _, endTs, _, ended, _⟩ := Timeline.deadline_eq_some found
    cases ended
  · apply deadlinesFit_mcu
    intro i endTs found
    rw [only_ended 40 found]
    decide
  · intro i due first found _ early
    obtain rfl : 0 = i := Option.some.inj first
    have due_eq : 1040 = due := Option.some.inj found
    rw [← due_eq] at early
    exact absurd early (by decide)

theorem runs_timely_timelyOps :
    ∃ s, runs (step mcuPlatform) timelyOps (schedInit zeroed .fcfs) = some s ∧
      Timely mcuPlatform .start s.history :=
  ⟨_, rfl, runs_timely (by decide) timelyOps_admits rfl⟩

/-- The second execution ends 400 ticks before the word wraps. -/
def wrappingOps : List (Op .mcu) :=
  [.add mcuTask 0, .exec 4294966796 [] 4294966896, .exec 4294966996 [] 4294967096]

def wrappingHistory : List (Event .mcu) :=
  [.created 0 mcuTask 0, .began 0 4294966796, .ended 0 4294966896, .began 0 4294966996, .ended 0 4294967096]

/-- On the 32-bit build a deadline that wraps is reached before its time: the
third execution starts 900 ticks early. -/
theorem wrappingOps_early :
    (wrappingOps.flatMap Op.readings).Pairwise (· ≤ ·) ∧
      Admits (step mcuPlatform) (fun _ s => DeadlinesFit mcuPlatform s) wrappingOps (schedInit zeroed .fcfs) ∧
      ∃ s, runs (step mcuPlatform) wrappingOps (schedInit zeroed .fcfs) = some s ∧
        ¬Timely mcuPlatform .start s.history := by
  refine ⟨by decide, ?_, _, rfl, ?_⟩
  · refine .cons ?_ rfl (.cons ?_ rfl (.cons ?_ rfl trivial))
    · apply deadlinesFit_mcu
      rintro i endTs ⟨⟩
    · apply deadlinesFit_mcu
      rintro i endTs ⟨⟩
    · apply deadlinesFit_mcu
      intro i endTs found
      rw [only_ended 4294966896 found]
      decide
  · change ¬Timely mcuPlatform .start wrappingHistory
    rintro ⟨_, _, _, late, _⟩
    have due : (4294967896 : Nat) ≤ (4294966996 : U64).toNat := late.2 4294967896 rfl
    revert due
    decide

end Wrapped

end AvaModule.Scheduler
