import AvaModule.Lib.StableQueue
import AvaModule.Sched.Queue
import AvaModule.Sched.Table

/-! The scheduler under `SCHED_TYPE_CFS` between the atomic parts of its calls.
`away` lists the running tasks that are not linked at the moment: the one whose
callback is executing and the one that is about to be inserted. A task with an id
beyond the table is never linked. -/
namespace AvaModule.Scheduler
open RedBlack RbTree StableQueue

variable {T : Target} {P : Platform T} {s s' : Sched T} {away queue rest : List Nat} {i : Nat}

/-- An event as the log of the queue sees it. -/
def entryOf : Event T → Entry Nat (Nat ×ₗ Nat)
  | .inserted i nextExecTs priority => .enter i (toLex (nextExecTs.toNat, priority.toNat))
  | .began i _ => .leave i
  | _ => .other

structure CfsInv (P : Platform T) (s : Sched T) (away queue : List Nat) : Prop where
  cfs : s.eType = .cfs
  room : s.taskNum ≤ P.taskMax
  tree : HeapQueue P s.heap queue
  member : ∀ i, i ∈ queue ↔ i < s.taskNum ∧ (s.tasks i).status.eState = .running ∧
    (s.tasks i).cfg.id.toNat < P.taskMax ∧ i ∉ away
  served : Served (s.trace.map entryOf) queue (fun i => (s.tasks i).key) s.stamp
  unlinked : ∀ i linked, Event.keyed i linked ∈ s.trace → linked = false

namespace CfsInv

theorem lt_max (inv : CfsInv P s away queue) (lt : i < s.taskNum) : i < P.taskMax :=
  Nat.lt_of_lt_of_le lt inv.room

theorem linked_iff (inv : CfsInv P s away queue) (hi : i < P.taskMax) : s.linked P i ↔ i ∈ queue := by
  rw [← inv.tree.linked_iff hi, Sched.linked, decide_eq_true_iff]

theorem sorted (inv : CfsInv P s away queue) :
    queue.Pairwise fun a b => (s.tasks a).key ≤ (s.tasks b).key :=
  inv.served.ordered.imp key_le_of_rank_lt

theorem record_other (inv : CfsInv P s away queue) {event : Event T} (quiet : entryOf event = .other)
    (unlinked : ∀ i linked, event = .keyed i linked → linked = false) :
    CfsInv P (s.record event) away queue := by
  refine ⟨inv.cfs, inv.room, inv.tree, inv.member, ?_, ?_⟩
  · rw [Sched.record, List.map_append, List.map_singleton, quiet]
    exact inv.served.other
  · intro i linked found
    rcases List.mem_append.mp found with old | new
    · exact inv.unlinked i linked old
    · exact unlinked i linked (List.mem_singleton.mp new).symm

/-- A key is written while its task is not linked. -/
theorem record_keyed (inv : CfsInv P s away queue) (hi : i < P.taskMax) (absent : i ∉ queue) :
    CfsInv P (s.record (.keyed i (s.linked P i))) away queue := by
  refine inv.record_other rfl ?_
  rintro _ linked ⟨⟩
  rw [Bool.eq_false_iff]
  intro isLinked
  exact absent ((inv.linked_iff hi).mp isLinked)

/-- A task that is not queued is rewritten. -/
theorem setTask (inv : CfsInv P s away queue) (absent : i ∉ queue) (task : SchedTask T)
    (kept : i < s.taskNum → task.status.eState = .running → i ∈ away) :
    CfsInv P (s.setTask i task) away queue := by
  have others : ∀ j ∈ queue, (s.setTask i task).tasks j = s.tasks j := by
    intro j queued
    refine setTask_of_ne s task ?_
    rintro rfl
    exact absent queued
  refine ⟨inv.cfs, inv.room, inv.tree, ?_, ?_, inv.unlinked⟩
  · intro j
    by_cases self : j = i
    · subst self
      rw [setTask_self]
      constructor
      · intro queued
        exact absurd queued absent
      · rintro ⟨lt, running, _, notAway⟩
        exact absurd (kept lt running) notAway
    · rw [setTask_of_ne s task self]
      exact inv.member j
  · refine inv.served.rekey fun j queued => ?_
    rw [others j queued]

/-- `sched_cfs_insert_task` links a task that was away, if its id is valid. -/
theorem insert (inv : CfsInv P s (i :: away) queue) (lt : i < s.taskNum)
    (running : (s.tasks i).status.eState = .running) (absent : i ∉ away) :
    ∃ s' queue', schedCfsInsertTask P s i = some s' ∧ CfsInv P s' away queue' := by
  have fresh : i ∉ queue := fun queued => ((inv.member i).mp queued).2.2.2 (by simp)
  by_cases id : (s.tasks i).cfg.id.toNat < P.taskMax
  · obtain ⟨h', xs, ys, run, rfl, tree, low, high⟩ := inv.tree.link_run (inv.lt_max lt) fresh inv.sorted
    let key := (s.tasks i).status.nextExecTs
    let s' : Sched T := { s with
      heap := h'
      trace := s.trace ++ [.inserted i key (s.tasks i).cfg.priority]
      stamp := Function.update s.stamp i s.trace.length }
    refine ⟨s', xs ++ i :: ys, ?_, inv.cfs, inv.room, tree, ?_, ?_, ?_⟩
    · simp only [schedCfsInsertTask, if_neg (Nat.not_le.mpr id), run, Option.bind_eq_bind,
        Option.bind_some]
      rfl
    · intro j
      have member := inv.member j
      simp only [List.mem_append, List.mem_cons, not_or] at member ⊢
      by_cases self : j = i
      · subst self
        simp only [true_or, or_true, true_iff]
        exact ⟨lt, running, id, absent⟩
      · simp only [self, not_false_eq_true, true_and, false_or] at member ⊢
        exact member
    · have entered := inv.served.enter fresh low high
      rw [List.length_map] at entered
      rw [show s'.trace.map entryOf = _ from List.map_append]
      exact entered
    · intro j linked found
      rcases List.mem_append.mp found with old | new
      · exact inv.unlinked j linked old
      · cases List.mem_singleton.mp new
  · refine ⟨s, queue, ?_, inv.cfs, inv.room, inv.tree, ?_, inv.served, inv.unlinked⟩
    · rw [schedCfsInsertTask]
      exact if_pos (Nat.not_lt.mp id)
    · intro j
      rw [inv.member j]
      by_cases self : j = i
      · subst self
        simp [id]
      · simp [self]

/-- `sched_cfs_remove_task` of the head, with the start of its callback. -/
theorem remove (inv : CfsInv P s [] (i :: rest)) (now : U64) :
    ∃ s', schedCfsRemoveTask P s i = some s' ∧ CfsInv P (s'.record (.began i now)) [i] rest := by
  obtain ⟨lt, running, _⟩ := (inv.member i).mp (by simp)
  have linked := (inv.linked_iff (inv.lt_max lt)).mpr (by simp)
  have queued : HeapQueue P s.heap ([] ++ i :: rest) := inv.tree
  obtain ⟨h', run, tree⟩ := queued.unlink_run
  have nodup := List.nodup_cons.mp inv.served.nodup
  refine ⟨{ s with heap := h' }, ?_, inv.cfs, inv.room, tree, ?_, ?_, ?_⟩
  · rw [schedCfsRemoveTask, if_pos linked, run]
    rfl
  · intro j
    have member := inv.member j
    simp only [List.mem_cons, List.not_mem_nil, not_false_eq_true, and_true, or_false] at member ⊢
    by_cases self : j = i
    · subst self
      simp [nodup.1]
    · simp only [self, false_or, not_false_eq_true, and_true] at member ⊢
      exact member
  · rw [record_trace, List.map_append, List.map_singleton]
    exact inv.served.leave
  · intro j linked found
    rcases List.mem_append.mp found with old | new
    · exact inv.unlinked j linked old
    · cases List.mem_singleton.mp new

/-- `sched_add_task` while there is room. -/
theorem add (inv : CfsInv P s away queue) (room : s.taskNum < P.taskMax)
    (earlier : ∀ j ∈ away, j < s.taskNum) (taskCfg : SchedTaskCfg T) (ts : U64) :
    ∃ s' queue', schedAddTask P s taskCfg ts = some (s', 0) ∧ CfsInv P s' away queue' := by
  have fresh : s.taskNum ∉ queue := fun queued => absurd ((inv.member _).mp queued).1 (lt_irrefl _)
  have notAway : s.taskNum ∉ away := fun inside => absurd (earlier _ inside) (lt_irrefl _)
  let task := addedTask s taskCfg ts
  let s₁ : Sched T := { (s.setTask s.taskNum task).record (.created s.taskNum taskCfg ts) with
    taskNum := s.taskNum + 1 }
  have new : s₁.tasks s.taskNum = task := setTask_self s _ task
  have kept : ∀ j, j ≠ s.taskNum → s₁.tasks j = s.tasks j := fun j ne => setTask_of_ne s task ne
  have created : CfsInv P ((s.setTask s.taskNum task).record (.created s.taskNum taskCfg ts)) away queue :=
    (inv.setTask fresh _ (fun lt => absurd lt (lt_irrefl _))).record_other rfl (by rintro _ _ ⟨⟩)
  have inv₁ : CfsInv P s₁ (s.taskNum :: away) queue := by
    refine ⟨created.cfs, room, created.tree, ?_, created.served, created.unlinked⟩
    intro j
    rw [inv.member j]
    by_cases self : j = s.taskNum
    · subst self
      simp
    · rw [kept j self]
      have bound : j < s₁.taskNum ↔ j < s.taskNum := by
        simp only [s₁]
        omega
      rw [bound]
      simp [self]
  have inv₂ := inv₁.record_keyed room fresh
  have running : (s₁.tasks s.taskNum).status.eState = .running := by
    rw [new]
    rfl
  obtain ⟨s', queue', run, inv'⟩ := inv₂.insert (Nat.lt_succ_self _) running notAway
  refine ⟨s', queue', ?_, inv'⟩
  rw [schedAddTask, if_pos room]
  exact (if_pos inv₂.cfs).trans (congrArg (Option.map (·, 0)) run)

/-- A callback's calls of `sched_add_task`. -/
theorem addAll (inv : CfsInv P s away queue) (script : List (SchedTaskCfg T × U64))
    (room : s.taskNum + script.length ≤ P.taskMax) (earlier : ∀ j ∈ away, j < s.taskNum) :
    ∃ s' queue', schedAddTasks P script s = some s' ∧ CfsInv P s' away queue' := by
  induction script generalizing s queue with
  | nil => exact ⟨s, queue, rfl, inv⟩
  | cons call script ih =>
    rw [List.length_cons] at room
    obtain ⟨s₁, queue₁, run₁, inv₁⟩ := inv.add (by omega) earlier call.1 call.2
    have num₁ := (add_table run₁).2.2.2.1
    have earlier₁ : ∀ j ∈ away, j < s₁.taskNum := by
      intro j inside
      have := earlier j inside
      omega
    obtain ⟨s₂, queue₂, run₂, inv₂⟩ := ih inv₁ (by omega) earlier₁
    refine ⟨s₂, queue₂, ?_, inv₂⟩
    rw [schedAddTasks, run₁]
    exact run₂

/-- The end of `sched_exec` queues the task again or leaves it dead. -/
theorem finish (inv : CfsInv P s [i] queue) (lt : i < s.taskNum)
    (running : (s.tasks i).status.eState = .running) (endTs : U64) :
    ∃ s' queue', execFinish P s i endTs = some s' ∧ CfsInv P s' [] queue' := by
  have absent : i ∉ queue := fun queued => ((inv.member i).mp queued).2.2.2 (by simp)
  have ended : CfsInv P (s.record (.ended i endTs)) [i] queue := inv.record_other rfl (by rintro _ _ ⟨⟩)
  by_cases again : (s.tasks i).cfg.execCntMax = 0 ∨
      (s.tasks i).status.execCnt + 1 < (s.tasks i).cfg.execCntMax
  · let task : SchedTask T := { s.tasks i with status := { (s.tasks i).status with
      execCnt := (s.tasks i).status.execCnt + 1
      nextExecTs := toUsz (endTs + P.hz2tick (s.tasks i).cfg.execFreq) } }
    have rekeyed := (ended.setTask absent task (fun _ _ => by simp)).record_keyed
      (inv.lt_max lt) absent
    have stillRunning : (((s.record (.ended i endTs)).setTask i task).tasks i).status.eState = .running := by
      rw [setTask_self]
      exact running
    obtain ⟨s', queue', run, inv'⟩ := rekeyed.insert lt stillRunning (by simp)
    refine ⟨s', queue', ?_, inv'⟩
    rw [execFinish]
    dsimp only
    rw [if_pos again, if_pos rekeyed.cfs]
    exact run
  · let task : SchedTask T := { s.tasks i with status := { (s.tasks i).status with
      execCnt := (s.tasks i).status.execCnt + 1, eState := .dead } }
    have dead := ended.setTask absent task (by rintro _ ⟨⟩)
    refine ⟨(s.record (.ended i endTs)).setTask i task, queue, ?_, dead.cfs, dead.room, dead.tree, ?_,
      dead.served, dead.unlinked⟩
    · rw [execFinish]
      dsimp only
      rw [if_neg again]
    · intro j
      rw [dead.member j]
      by_cases self : j = i
      · subst self
        simp [task]
      · simp [self]

theorem get (inv : CfsInv P s away queue) : schedCfsGetTask P s = some queue.head? := by
  rw [schedCfsGetTask, inv.tree.first_run]
  cases queue with
  | nil => rfl
  | cons i rest =>
    have lt := inv.tree.within i (by simp)
    simp [P.node_ne_null i lt, P.containerOf_node i lt]

theorem select (inv : CfsInv P s away queue) : fGetTask P s = some (s, queue.head?) := by
  unfold fGetTask
  split
  · next fcfs =>
    rw [inv.cfs] at fcfs
    cases fcfs
  · rw [inv.get]
    rfl

/-- The clock reading does not matter to the invariant. -/
theorem tick (inv : CfsInv P s away queue) (currTs : Usz T) :
    CfsInv P { s with currTs := currTs } away queue :=
  ⟨inv.cfs, inv.room, inv.tree, inv.member, inv.served, inv.unlinked⟩

/-- The execution of the head. -/
theorem call (inv : CfsInv P s [] (i :: rest)) (now endTs : U64) (script : List (SchedTaskCfg T × U64))
    (room : s.taskNum + script.length ≤ P.taskMax) :
    ∃ s' queue', execCall P s i now script endTs = some s' ∧ CfsInv P s' [] queue' := by
  obtain ⟨lt, running, _⟩ := (inv.member i).mp (by simp)
  obtain ⟨s₁, run₁, inv₁⟩ := inv.remove now
  obtain ⟨same₁, _⟩ := remove_table run₁
  have num₁ : (s₁.record (.began i now)).taskNum = s.taskNum := same₁.taskNum
  obtain ⟨s₂, queue₂, run₂, inv₂⟩ := inv₁.addAll script (by omega) (by
    intro j inside
    rw [List.mem_singleton.mp inside]
    omega)
  obtain ⟨_, num₂, _, kept₂, _⟩ := addAll_table run₂
  have running₂ : (s₂.tasks i).status.eState = .running := by
    rw [kept₂ i (by omega), record_tasks, same₁.tasks]
    exact running
  obtain ⟨s₃, queue₃, run₃, inv₃⟩ := inv₂.finish (by omega) running₂ endTs
  refine ⟨s₃, queue₃, ?_, inv₃⟩
  simp only [execCall, if_pos inv.cfs, run₁, run₂, run₃, Option.bind_eq_bind, Option.bind_some]

/-- An execution that stays inside the task array has had room. -/
theorem call_room (inv : CfsInv P s away queue) {now endTs : U64} {script : List (SchedTaskCfg T × U64)}
    (run : execCall P s i now script endTs = some s') : s.taskNum + script.length ≤ P.taskMax := by
  obtain ⟨s₁, s₂, _, same₁, _, added, _⟩ := call_table run
  obtain ⟨_, num₂, within₂, _, _⟩ := addAll_table added
  have room := inv.room
  rw [record_taskNum, same₁.taskNum] at num₂ within₂
  have := within₂ room
  omega

end CfsInv

/-- Either scheduler type chooses a running task of the table. -/
theorem select_running (cfs : s.eType = .cfs → ∃ queue, CfsInv P s [] queue)
    (select : fGetTask P s = some (s', some i)) :
    i < s.taskNum ∧ (s.tasks i).status.eState = .running := by
  by_cases eType : s.eType = .cfs
  · obtain ⟨queue, inv⟩ := cfs eType
    rw [inv.select] at select
    have head : queue.head? = some i := (Prod.mk.inj (Option.some.inj select)).2
    obtain ⟨lt, running, _⟩ := (inv.member i).mp (List.mem_of_head? head)
    exact ⟨lt, running⟩
  · unfold fGetTask at select
    split at select
    · split at select
      · cases select
      · next idx scan =>
        cases select
        exact fcfsIdx_running scan
    · next other => exact absurd other eType

/-- Every call that stays inside the task array keeps the invariant. -/
theorem step_inv {op : Op T} (inv : CfsInv P s [] queue) (run : step P op s = some s') :
    ∃ queue', CfsInv P s' [] queue' := by
  cases op with
  | add taskCfg ts =>
    obtain ⟨⟨s₁, ret⟩, added, done⟩ := Option.map_eq_some_iff.mp run
    cases done
    obtain ⟨s₂, queue', added', inv'⟩ := inv.add (add_table added).1 (by simp) taskCfg ts
    cases added.symm.trans added'
    exact ⟨queue', inv'⟩
  | exec now script endTs =>
    obtain ⟨⟨s₁, ret⟩, executed, done⟩ := Option.map_eq_some_iff.mp run
    cases done
    have idle := inv.tick (toUsz now)
    obtain ⟨s₀, found, select, outcome⟩ := schedExec_cases executed
    cases select.symm.trans idle.select
    rcases outcome with ⟨rfl, _⟩ | ⟨i, head, _, _, call⟩
    · exact ⟨queue, idle⟩
    · obtain ⟨rest, rfl⟩ := List.head?_eq_some_iff.mp head
      obtain ⟨s₂, queue', call', inv'⟩ := idle.call now endTs script (idle.call_room call)
      cases call.symm.trans call'
      exact ⟨queue', inv'⟩

theorem schedExec_total (inv : CfsInv P s [] queue) (now endTs : U64)
    (script : List (SchedTaskCfg T × U64)) (room : s.taskNum + script.length ≤ P.taskMax) :
    ∃ s' ret, schedExec P s now script endTs = some (s', ret) := by
  have idle := inv.tick (toUsz now)
  rw [schedExec, Option.bind_eq_bind, idle.select, Option.bind_some]
  cases queue with
  | nil => exact ⟨_, _, rfl⟩
  | cons i rest =>
    obtain ⟨s', _, run, _⟩ := idle.call now endTs script room
    dsimp only [List.head?_cons]
    rw [run]
    split
    · exact ⟨_, _, rfl⟩
    · split
      · exact ⟨_, _, rfl⟩
      · split <;> exact ⟨_, _, rfl⟩

theorem step_total {op : Op T} (inv : CfsInv P s [] queue) (fits : OpFits P op s) :
    ∃ s', step P op s = some s' := by
  cases op with
  | add taskCfg ts =>
    obtain ⟨s', _, run, _⟩ := inv.add fits.1 (by simp) taskCfg ts
    exact ⟨s', by rw [step, run]; rfl⟩
  | exec now script endTs =>
    obtain ⟨s', ret, run⟩ := schedExec_total inv now endTs script fits.1
    exact ⟨s', by rw [step, run]; rfl⟩

theorem zeroed_inv (P : Platform T) : CfsInv P (schedInit zeroed .cfs : Sched T) [] [] := by
  refine ⟨rfl, Nat.zero_le _, ⟨by simp, ?_⟩, ?_, .empty _ _, ?_⟩
  · refine ⟨fun _ => ⟨0, 0, 0⟩, .nil, 0, ⟨rfl, trivial, by simp [Tree.toList], fun _ _ => rfl⟩, .nil, rfl, ?_⟩
    intro i _ _
    rfl
  · intro i
    simp [schedInit, zeroed]
  · intro i linked found
    simp [schedInit, zeroed] at found

end AvaModule.Scheduler
