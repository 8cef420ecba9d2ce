import AvaModule.Sched.Model

/-! What the calls do to the task table and to the trace, for both scheduler
types: one lemma for each function of the source, used instead of its body. -/
namespace AvaModule.Scheduler
open RbTree

variable {T : Target} {P : Platform T} {s s' : Sched T} {i : Nat}

/-- The parts of the state that choosing, linking and unlinking a task leave alone. -/
structure SameTable (s s' : Sched T) : Prop where
  eType : s'.eType = s.eType
  taskNum : s'.taskNum = s.taskNum
  tasks : s'.tasks = s.tasks

/-- The events that belong to a reading of the clock. -/
def Event.external : Event T → Bool
  | .keyed _ _ | .inserted _ _ _ => false
  | _ => true

def Sched.history (s : Sched T) : List (Event T) := s.trace.filter Event.external

theorem history_record (s : Sched T) {event : Event T} (external : event.external = true) :
    (s.record event).history = s.history ++ [event] := by
  simp [Sched.history, external]

theorem history_keyed (s : Sched T) (i : Nat) (linked : Bool) :
    (s.record (.keyed i linked)).history = s.history := by
  simp [Sched.history, Event.external]

/-- `sched_exec` calls the callback of a task that passes its three tests. -/
def Ready (s : Sched T) (i : Nat) (currTs : Usz T) : Prop :=
  (s.tasks i).cfg.fCb ≠ none ∧ ¬currTs - (s.tasks i).status.createTs < (s.tasks i).cfg.delayTick ∧
    ¬currTs < (s.tasks i).status.nextExecTs

/-- The record `sched_add_task` leaves in the free slot. -/
def addedTask (s : Sched T) (taskCfg : SchedTaskCfg T) (ts : U64) : SchedTask T :=
  ⟨taskCfg, { (s.tasks s.taskNum).status with
    eState := .running, createTs := toUsz ts, nextExecTs := toUsz ts + taskCfg.delayTick }⟩

/-- The record of an executed task. -/
def executedTask (P : Platform T) (task : SchedTask T) (endTs : U64) : SchedTask T :=
  let execCnt := task.status.execCnt + 1
  if task.cfg.execCntMax = 0 ∨ execCnt < task.cfg.execCntMax then
    { task with status := { task.status with
      execCnt := execCnt, nextExecTs := toUsz (endTs + P.hz2tick task.cfg.execFreq) } }
  else { task with status := { task.status with execCnt := execCnt, eState := .dead } }

theorem insert_table (run : schedCfsInsertTask P s i = some s') :
    SameTable s s' ∧ s'.history = s.history := by
  unfold schedCfsInsertTask at run
  dsimp only at run
  split at run
  · cases run
    exact ⟨⟨rfl, rfl, rfl⟩, rfl⟩
  · obtain ⟨⟨_, heap⟩, _, done⟩ := Option.bind_eq_some_iff.mp run
    cases done
    exact ⟨⟨rfl, rfl, rfl⟩, by simp [Sched.history, Event.external]⟩

theorem remove_table (run : schedCfsRemoveTask P s i = some s') :
    SameTable s s' ∧ s'.history = s.history := by
  unfold schedCfsRemoveTask at run
  split at run
  · obtain ⟨⟨_, heap⟩, _, done⟩ := Option.bind_eq_some_iff.mp run
    cases done
    exact ⟨⟨rfl, rfl, rfl⟩, rfl⟩
  · cases run
    exact ⟨⟨rfl, rfl, rfl⟩, rfl⟩

theorem add_table {taskCfg : SchedTaskCfg T} {ts : U64} {ret : Int}
    (run : schedAddTask P s taskCfg ts = some (s', ret)) :
    s.taskNum < P.taskMax ∧ ret = 0 ∧ s'.eType = s.eType ∧ s'.taskNum = s.taskNum + 1 ∧
      s'.tasks = Function.update s.tasks s.taskNum (addedTask s taskCfg ts) ∧
      s'.history = s.history ++ [.created s.taskNum taskCfg ts] := by
  unfold schedAddTask at run
  by_cases room : s.taskNum < P.taskMax
  · rw [if_pos room] at run
    dsimp only at run
    refine ⟨room, ?_⟩
    split at run
    · obtain ⟨⟨s₁⟩, inserted, done⟩ := Option.map_eq_some_iff.mp run
      cases done
      obtain ⟨⟨eType, taskNum, tasks⟩, history⟩ := insert_table inserted
      refine ⟨rfl, eType, taskNum, tasks, history.trans ?_⟩
      rw [history_keyed]
      exact history_record _ rfl
    · cases run
      refine ⟨rfl, rfl, rfl, rfl, ?_⟩
      rw [history_keyed]
      exact history_record _ rfl
  · rw [if_neg room] at run
    cases run

/-- The creations a callback's script adds to the history. -/
def creations (taskNum : Nat) : List (SchedTaskCfg T × U64) → List (Event T)
  | [] => []
  | (taskCfg, ts) :: script => .created taskNum taskCfg ts :: creations (taskNum + 1) script

theorem addAll_table {script : List (SchedTaskCfg T × U64)} (run : schedAddTasks P script s = some s') :
    s'.eType = s.eType ∧ s'.taskNum = s.taskNum + script.length ∧
      (s.taskNum ≤ P.taskMax → s'.taskNum ≤ P.taskMax) ∧ (∀ j < s.taskNum, s'.tasks j = s.tasks j) ∧
      s'.history = s.history ++ creations s.taskNum script := by
  induction script generalizing s with
  | nil =>
    cases run
    exact ⟨rfl, rfl, id, fun _ _ => rfl, (List.append_nil _).symm⟩
  | cons call script ih =>
    obtain ⟨taskCfg, ts⟩ := call
    obtain ⟨⟨s₁, ret⟩, first, rest⟩ := Option.bind_eq_some_iff.mp run
    obtain ⟨room, _, eType₁, num₁, tasks₁, history₁⟩ := add_table first
    obtain ⟨eType₂, num₂, within₂, kept₂, history₂⟩ := ih rest
    refine ⟨eType₂.trans eType₁, ?_, fun _ => within₂ (by omega), ?_, ?_⟩
    · rw [num₂, num₁, List.length_cons]
      omega
    · intro j lt
      rw [kept₂ j (by omega), tasks₁, Function.update_of_ne (Nat.ne_of_lt lt)]
    · rw [history₂, history₁, num₁, creations, List.append_assoc]
      rfl

theorem finish_table {endTs : U64} (run : execFinish P s i endTs = some s') :
    s'.eType = s.eType ∧ s'.taskNum = s.taskNum ∧
      s'.tasks = Function.update s.tasks i (executedTask P (s.tasks i) endTs) ∧
      s'.history = s.history ++ [.ended i endTs] := by
  unfold execFinish at run
  dsimp only at run
  unfold executedTask
  dsimp only
  split at run
  · next again =>
    rw [if_pos again]
    split at run
    · obtain ⟨⟨eType, taskNum, tasks⟩, history⟩ := insert_table run
      refine ⟨eType, taskNum, tasks, history.trans ?_⟩
      rw [history_keyed]
      exact history_record _ rfl
    · cases run
      refine ⟨rfl, rfl, rfl, ?_⟩
      rw [history_keyed]
      exact history_record _ rfl
  · next last =>
    cases run
    rw [if_neg last]
    exact ⟨rfl, rfl, rfl, history_record _ rfl⟩

/-- The three stages of an execution. -/
theorem call_table {now endTs : U64} {script : List (SchedTaskCfg T × U64)}
    (run : execCall P s i now script endTs = some s') :
    ∃ s₁ s₂, (if s.eType = .cfs then schedCfsRemoveTask P s i else some s) = some s₁ ∧
      SameTable s s₁ ∧ s₁.history = s.history ∧
      schedAddTasks P script (s₁.record (.began i now)) = some s₂ ∧ execFinish P s₂ i endTs = some s' := by
  obtain ⟨s₁, removed, rest⟩ := Option.bind_eq_some_iff.mp run
  obtain ⟨s₂, added, finished⟩ := Option.bind_eq_some_iff.mp rest
  refine ⟨s₁, s₂, removed, ?_, ?_, added, finished⟩
  · split at removed
    · exact (remove_table removed).1
    · cases removed
      exact ⟨rfl, rfl, rfl⟩
  · split at removed
    · exact (remove_table removed).2
    · cases removed
      rfl

/-- The scan of `sched_fcfs_get_task` stops at a running task. -/
theorem fcfsIdx_running (scan : fcfsIdx s = some i) :
    i < s.taskNum ∧ (s.tasks i).status.eState = .running := by
  obtain ⟨k, inside, rfl⟩ := List.mem_map.mp (List.mem_of_find?_eq_some scan)
  have positive := Nat.lt_of_le_of_lt (Nat.zero_le k) (List.mem_range.mp inside)
  have running := List.find?_some (show List.find? _ _ = some _ from scan)
  exact ⟨Nat.mod_lt _ positive, of_decide_eq_true running⟩

/-- Choosing a task changes at most where FCFS goes on. -/
theorem select_table {found : Option Nat} (run : fGetTask P s = some (s', found)) :
    SameTable s s' ∧ s'.history = s.history ∧ s'.currTs = s.currTs ∧ s'.heap = s.heap := by
  unfold fGetTask at run
  split at run
  · split at run <;> cases run <;> exact ⟨⟨rfl, rfl, rfl⟩, rfl, rfl, rfl⟩
  · obtain ⟨_, _, done⟩ := Option.map_eq_some_iff.mp run
    cases done
    exact ⟨⟨rfl, rfl, rfl⟩, rfl, rfl, rfl⟩

/-- `sched_exec` either leaves the table alone or executes the chosen task. -/
theorem schedExec_cases {now endTs : U64} {script : List (SchedTaskCfg T × U64)} {ret : Int}
    (run : schedExec P s now script endTs = some (s', ret)) :
    ∃ s₀ found, fGetTask P { s with currTs := toUsz now } = some (s₀, found) ∧
      ((s' = s₀ ∧ ∀ i, found = some i → ¬Ready s i (toUsz now)) ∨
        ∃ i, found = some i ∧ Ready s i (toUsz now) ∧ ret = 0 ∧
          execCall P s₀ i now script endTs = some s') := by
  unfold schedExec at run
  obtain ⟨⟨s₀, found⟩, select, rest⟩ := Option.bind_eq_some_iff.mp run
  obtain ⟨⟨_, _, tasks⟩, _, currTs, _⟩ := select_table select
  refine ⟨s₀, found, select, ?_⟩
  cases found with
  | none =>
    cases rest
    exact Or.inl ⟨rfl, fun i absurd => by cases absurd⟩
  | some i =>
    dsimp only at rest
    rw [tasks, currTs] at rest
    have unready : ¬Ready s i (toUsz now) → ∀ j, some i = some j → ¬Ready s j (toUsz now) := by
      rintro not j ⟨⟩
      exact not
    split at rest
    · next absent =>
      cases rest
      exact Or.inl ⟨rfl, unready fun ready => ready.1 absent⟩
    · next present =>
      split at rest
      · next waiting =>
        cases rest
        exact Or.inl ⟨rfl, unready fun ready => ready.2.1 waiting⟩
      · next delayed =>
        split at rest
        · next early =>
          cases rest
          exact Or.inl ⟨rfl, unready fun ready => ready.2.2 early⟩
        · next reached =>
          obtain ⟨s₁, call, done⟩ := Option.map_eq_some_iff.mp rest
          cases done
          exact Or.inr ⟨i, rfl, ⟨present, delayed, reached⟩, rfl, call⟩

theorem step_eType {op : Op T} (run : step P op s = some s') : s'.eType = s.eType := by
  cases op with
  | add taskCfg ts =>
    obtain ⟨⟨s₁, ret⟩, added, done⟩ := Option.map_eq_some_iff.mp run
    cases done
    exact (add_table added).2.2.1
  | exec now script endTs =>
    obtain ⟨⟨s₁, ret⟩, executed, done⟩ := Option.map_eq_some_iff.mp run
    cases done
    obtain ⟨s₀, found, select, outcome⟩ := schedExec_cases executed
    have chosen := (select_table select).1.eType
    rcases outcome with ⟨rfl, _⟩ | ⟨i, _, _, _, call⟩
    · exact chosen
    · obtain ⟨s₂, s₃, _, same, _, added, finished⟩ := call_table call
      have eType₃ := (addAll_table added).1
      rw [(finish_table finished).1, eType₃, record_eType, same.eType, chosen]

/-- A call fits if its `sched_add_task` calls find room and have valid ids. -/
def OpFits (P : Platform T) (op : Op T) (s : Sched T) : Prop :=
  match op with
  | .add taskCfg _ => s.taskNum < P.taskMax ∧ taskCfg.id.toNat < P.taskMax
  | .exec _ script _ =>
      s.taskNum + script.length ≤ P.taskMax ∧ ∀ call ∈ script, call.1.id.toNat < P.taskMax

def IdsValid (P : Platform T) (s : Sched T) : Prop :=
  ∀ i < s.taskNum, (s.tasks i).cfg.id.toNat < P.taskMax

theorem SameTable.idsValid (same : SameTable s s') (ids : IdsValid P s) : IdsValid P s' := by
  intro i lt
  rw [same.tasks]
  exact ids i (same.taskNum ▸ lt)

theorem add_ids {taskCfg : SchedTaskCfg T} {ts : U64} {ret : Int} (ids : IdsValid P s)
    (valid : taskCfg.id.toNat < P.taskMax) (run : schedAddTask P s taskCfg ts = some (s', ret)) :
    IdsValid P s' := by
  obtain ⟨_, _, _, num, tasks, _⟩ := add_table run
  intro i lt
  rw [tasks]
  by_cases self : i = s.taskNum
  · subst self
    rw [Function.update_self]
    exact valid
  · rw [Function.update_of_ne self]
    exact ids i (by omega)

theorem addAll_ids {script : List (SchedTaskCfg T × U64)} (ids : IdsValid P s)
    (valid : ∀ call ∈ script, call.1.id.toNat < P.taskMax) (run : schedAddTasks P script s = some s') :
    IdsValid P s' := by
  induction script generalizing s with
  | nil =>
    cases run
    exact ids
  | cons call script ih =>
    obtain ⟨⟨s₁, ret⟩, first, rest⟩ := Option.bind_eq_some_iff.mp run
    have later : ∀ call ∈ script, call.1.id.toNat < P.taskMax := fun other inside => valid other (by simp [inside])
    exact ih (add_ids ids (valid call (by simp)) first) later rest

@[simp] theorem executedTask_cfg (task : SchedTask T) (endTs : U64) :
    (executedTask P task endTs).cfg = task.cfg := by
  unfold executedTask
  dsimp only
  split <;> rfl

theorem step_ids {op : Op T} (ids : IdsValid P s) (fits : OpFits P op s) (run : step P op s = some s') :
    IdsValid P s' := by
  cases op with
  | add taskCfg ts =>
    obtain ⟨⟨s₁, ret⟩, added, done⟩ := Option.map_eq_some_iff.mp run
    cases done
    exact add_ids ids fits.2 added
  | exec now script endTs =>
    obtain ⟨⟨s₁, ret⟩, executed, done⟩ := Option.map_eq_some_iff.mp run
    cases done
    obtain ⟨s₀, found, select, outcome⟩ := schedExec_cases executed
    have chosen : IdsValid P s₀ := (select_table select).1.idsValid ids
    rcases outcome with ⟨rfl, _⟩ | ⟨i, _, _, _, call⟩
    · exact chosen
    · obtain ⟨s₁, s₂, _, same, _, added, finished⟩ := call_table call
      have begun : IdsValid P (s₁.record (.began i now)) := same.idsValid chosen
      have extended := addAll_ids begun fits.2 added
      obtain ⟨_, num, tasks, _⟩ := finish_table finished
      intro j lt
      rw [tasks]
      by_cases self : j = i
      · subst self
        rw [Function.update_self, executedTask_cfg]
        exact extended j (num ▸ lt)
      · rw [Function.update_of_ne self]
        exact extended j (num ▸ lt)

end AvaModule.Scheduler
