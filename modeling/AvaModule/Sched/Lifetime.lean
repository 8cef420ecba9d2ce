import AvaModule.Sched.Service

/-! How often a task is executed, for both scheduler types. FCFS skips a dead task
in its scan, CFS no longer has it in the tree; either way only running tasks are
executed, and the counter of a task is the number of calls of its callback. -/
namespace AvaModule.Scheduler
open Transition

variable {T : Target} {P : Platform T} {s s' : Sched T} {ty : SchedType} {ops done : List (Op T)} {i : Nat}
variable {now endTs : U64} {script : List (SchedTaskCfg T × U64)} {ret : Int} {found : Option Nat}

/-- What the calls need of a state: room in the table and, under CFS, a tree that
holds the running tasks. -/
structure Sound (P : Platform T) (s : Sched T) : Prop where
  room : s.taskNum ≤ P.taskMax
  tree : s.eType = .cfs → ∃ queue, CfsInv P s [] queue

/-- `i` counts the calls of its callback, up to its limit if it has one, and is
dead exactly at the limit. -/
structure Accounted (s : Sched T) (i : Nat) : Prop where
  counted : s.callbacks.count i = (s.tasks i).status.execCnt.toNat
  limited : (s.tasks i).cfg.execCntMax ≠ 0 → (s.tasks i).status.execCnt ≤ (s.tasks i).cfg.execCntMax
  dead_iff : (s.tasks i).status.eState = .dead ↔
    (s.tasks i).cfg.execCntMax ≠ 0 ∧ (s.tasks i).status.execCnt = (s.tasks i).cfg.execCntMax

/-- Every task is accounted for, and no free slot has been used. -/
structure Ledger (s : Sched T) : Prop where
  tasks : ∀ i < s.taskNum, Accounted s i
  free : ∀ i, s.taskNum ≤ i → s.callbacks.count i = 0 ∧ (s.tasks i).status.execCnt = 0

/-- Tasks have been added to `s`; those it had are unchanged. -/
structure Grown (s s' : Sched T) : Prop where
  taskNum : s.taskNum ≤ s'.taskNum
  old : ∀ j < s.taskNum, s'.tasks j = s.tasks j
  running : ∀ j, s.taskNum ≤ j → j < s'.taskNum → (s'.tasks j).status.eState = .running
  execCnt : ∀ j, (s'.tasks j).status.execCnt = (s.tasks j).status.execCnt

namespace Grown

theorem refl (s : Sched T) : Grown s s :=
  ⟨le_rfl, fun _ _ => rfl, fun _ low high => absurd high (Nat.not_lt.mpr low), fun _ => rfl⟩

theorem of_same (same : SameTable s s') : Grown s s' := by
  refine ⟨same.taskNum.ge, fun j _ => ?_, fun j low high => ?_, fun j => ?_⟩
  · rw [same.tasks]
  · rw [same.taskNum] at high
    exact absurd high (Nat.not_lt.mpr low)
  · rw [same.tasks]

theorem trans {s₁ s₂ s₃ : Sched T} (first : Grown s₁ s₂) (second : Grown s₂ s₃) : Grown s₁ s₃ := by
  refine ⟨first.taskNum.trans second.taskNum, ?_, ?_, ?_⟩
  · intro j lt
    rw [second.old j (lt.trans_le first.taskNum), first.old j lt]
  · intro j low high
    by_cases early : j < s₂.taskNum
    · rw [second.old j early]
      exact first.running j low early
    · exact second.running j (Nat.not_lt.mp early) high
  · intro j
    rw [second.execCnt, first.execCnt]

theorem add {taskCfg : SchedTaskCfg T} {ts : U64} (run : schedAddTask P s taskCfg ts = some (s', ret)) :
    Grown s s' := by
  obtain ⟨_, _, _, num, tasks, _⟩ := add_table run
  refine ⟨by omega, ?_, ?_, ?_⟩
  · intro j lt
    rw [tasks, Function.update_of_ne (Nat.ne_of_lt lt)]
  · intro j low high
    obtain rfl : j = s.taskNum := by omega
    rw [tasks, Function.update_self]
    rfl
  · intro j
    rw [tasks]
    by_cases self : j = s.taskNum
    · subst self
      rw [Function.update_self]
      rfl
    · rw [Function.update_of_ne self]

theorem addAll (run : schedAddTasks P script s = some s') : Grown s s' := by
  induction script generalizing s with
  | nil =>
    cases run
    exact refl _
  | cons call script ih =>
    obtain ⟨⟨s₁, ret⟩, first, rest⟩ := Option.bind_eq_some_iff.mp run
    exact (add first).trans (ih rest)

end Grown

section Calls

theorem select_total (sound : Sound P s) : ∃ s₀ found, fGetTask P s = some (s₀, found) ∧ Sound P s₀ := by
  by_cases cfs : s.eType = .cfs
  · obtain ⟨queue, inv⟩ := sound.tree cfs
    exact ⟨s, _, inv.select, sound⟩
  · unfold fGetTask
    split
    · split
      · exact ⟨_, _, rfl, sound⟩
      · exact ⟨_, _, rfl, sound.room, fun other => absurd other cfs⟩
    · next other => exact absurd other cfs

theorem fcfs_addAll (fcfs : s.eType ≠ .cfs) (script : List (SchedTaskCfg T × U64))
    (room : s.taskNum + script.length ≤ P.taskMax) : ∃ s', schedAddTasks P script s = some s' := by
  induction script generalizing s with
  | nil => exact ⟨s, rfl⟩
  | cons call script ih =>
    rw [List.length_cons] at room
    have added : ∃ s₁, schedAddTask P s call.1 call.2 = some (s₁, 0) := by
      rw [schedAddTask, if_pos (by omega)]
      exact ⟨_, if_neg fcfs⟩
    obtain ⟨s₁, run₁⟩ := added
    obtain ⟨_, _, eType₁, num₁, _⟩ := add_table run₁
    obtain ⟨s₂, run₂⟩ := ih (eType₁ ▸ fcfs) (by omega)
    exact ⟨s₂, by rw [schedAddTasks, run₁]; exact run₂⟩

theorem fcfs_finish (fcfs : s.eType ≠ .cfs) (i : Nat) (endTs : U64) :
    ∃ s', execFinish P s i endTs = some s' := by
  unfold execFinish
  dsimp only
  split
  · exact ⟨_, if_neg fcfs⟩
  · exact ⟨_, rfl⟩

theorem fcfs_call (fcfs : s.eType ≠ .cfs) (i : Nat) (room : s.taskNum + script.length ≤ P.taskMax) :
    ∃ s', execCall P s i now script endTs = some s' := by
  obtain ⟨s₁, run₁⟩ := fcfs_addAll (s := s.record (.began i now)) fcfs script room
  obtain ⟨s₂, run₂⟩ := fcfs_finish (P := P) ((addAll_table run₁).1 ▸ fcfs) i endTs
  refine ⟨s₂, ?_⟩
  simp only [execCall, if_neg fcfs, run₁, run₂, Option.bind_eq_bind, Option.bind_some]

/-- `k` is executed, after tasks may have been added. -/
structure Executes (P : Platform T) (s s' : Sched T) (k : Nat) : Prop where
  within : k < s.taskNum
  running : (s.tasks k).status.eState = .running
  callbacks : s'.callbacks = s.callbacks ++ [k]
  record : ∃ between endTs, Grown s between ∧ s'.taskNum = between.taskNum ∧
    s'.tasks = Function.update between.tasks k (executedTask P (s.tasks k) endTs)

/-- An outermost call adds tasks, or executes one running task. -/
theorem step_effect {op : Op T} (sound : Sound P s) (run : step P op s = some s') :
    (Grown s s' ∧ s'.callbacks = s.callbacks) ∨ ∃ k, Executes P s s' k := by
  cases op with
  | add taskCfg ts =>
    obtain ⟨⟨s₁, ret⟩, added, done⟩ := Option.map_eq_some_iff.mp run
    cases done
    refine Or.inl ⟨.add added, ?_⟩
    rw [Sched.callbacks, (add_table added).2.2.2.2.2, List.filterMap_append]
    exact List.append_nil _
  | exec now script endTs =>
    obtain ⟨⟨s₁, ret⟩, executed, done⟩ := Option.map_eq_some_iff.mp run
    cases done
    have tick : Sound P { s with currTs := toUsz now } :=
      ⟨sound.room, fun cfs => (sound.tree cfs).imp fun _ inv => inv.tick (toUsz now)⟩
    obtain ⟨s₀, found, select, outcome⟩ := schedExec_cases executed
    obtain ⟨same, history, _⟩ := select_table select
    rcases outcome with ⟨rfl, _⟩ | ⟨k, rfl, _, _, call⟩
    · exact Or.inl ⟨.of_same ⟨same.eType, same.taskNum, same.tasks⟩, by rw [Sched.callbacks, history]; rfl⟩
    · obtain ⟨lt, running⟩ := select_running tick.tree select
      have ran := call_callbacks call
      obtain ⟨s₂, s₃, _, same₂, _, added, finished⟩ := call_table call
      obtain ⟨_, num, tasks, _⟩ := finish_table finished
      have chosen : Grown s s₀ := .of_same ⟨same.eType, same.taskNum, same.tasks⟩
      have begun : Grown s₀ (s₂.record (.began k now)) := .of_same ⟨same₂.eType, same₂.taskNum, same₂.tasks⟩
      have grown := (chosen.trans begun).trans (.addAll added)
      refine Or.inr ⟨k, lt, running, ?_, s₃, endTs, grown, num, ?_⟩
      · rw [ran, Sched.callbacks, history]
        rfl
      · rw [tasks, grown.old k lt]

theorem step_room {op : Op T} (room : s.taskNum ≤ P.taskMax) (run : step P op s = some s') :
    s'.taskNum ≤ P.taskMax := by
  cases op with
  | add taskCfg ts =>
    obtain ⟨⟨s₁, ret⟩, added, done⟩ := Option.map_eq_some_iff.mp run
    cases done
    obtain ⟨free, _, _, num, _⟩ := add_table added
    exact num ▸ free
  | exec now script endTs =>
    obtain ⟨⟨s₁, ret⟩, executed, done⟩ := Option.map_eq_some_iff.mp run
    cases done
    obtain ⟨s₀, found, select, outcome⟩ := schedExec_cases executed
    have chosen : s₀.taskNum = s.taskNum := (select_table select).1.taskNum
    rcases outcome with ⟨rfl, _⟩ | ⟨k, _, _, _, call⟩
    · exact chosen ▸ room
    · obtain ⟨s₂, s₃, _, same₂, _, added, finished⟩ := call_table call
      rw [(finish_table finished).2.1]
      exact (addAll_table added).2.2.1 (by rw [record_taskNum, same₂.taskNum, chosen]; exact room)

/-- A call that fits succeeds. -/
theorem step_sound {op : Op T} (sound : Sound P s) (fits : OpFits P op s) :
    ∃ s', step P op s = some s' ∧ Sound P s' := by
  by_cases cfs : s.eType = .cfs
  · obtain ⟨queue, inv⟩ := sound.tree cfs
    obtain ⟨s', run⟩ := step_total inv fits
    exact ⟨s', run, step_room sound.room run, fun _ => step_inv inv run⟩
  · suffices total : ∃ s', step P op s = some s' by
      obtain ⟨s', run⟩ := total
      exact ⟨s', run, step_room sound.room run, fun other => absurd (step_eType run ▸ other) cfs⟩
    cases op with
    | add taskCfg ts =>
      have added : ∃ s₁, schedAddTask P s taskCfg ts = some (s₁, 0) := by
        rw [schedAddTask, if_pos fits.1]
        exact ⟨_, if_neg cfs⟩
      obtain ⟨s₁, run⟩ := added
      exact ⟨s₁, by rw [step, run]; rfl⟩
    | exec now script endTs =>
      have tick : Sound P { s with currTs := toUsz now } :=
        ⟨sound.room, fun other => absurd other cfs⟩
      obtain ⟨s₀, found, select, _⟩ := select_total tick
      obtain ⟨same, _⟩ := select_table select
      suffices total : ∃ out, schedExec P s now script endTs = some out by
        obtain ⟨out, run⟩ := total
        exact ⟨out.1, by rw [step, run]; rfl⟩
      rw [schedExec, Option.bind_eq_bind, select, Option.bind_some]
      cases found with
      | none => exact ⟨_, rfl⟩
      | some k =>
        have fcfs : s₀.eType ≠ .cfs := same.eType ▸ cfs
        have room : s₀.taskNum + script.length ≤ P.taskMax := same.taskNum ▸ fits.1
        obtain ⟨s₁, call⟩ : ∃ s₁, execCall P s₀ k now script endTs = some s₁ := fcfs_call fcfs k room
        dsimp only
        rw [call]
        split
        · exact ⟨_, rfl⟩
        · split
          · exact ⟨_, rfl⟩
          · split <;> exact ⟨_, rfl⟩

theorem zeroed_sound (P : Platform T) (ty : SchedType) : Sound P (schedInit zeroed ty) := by
  refine ⟨Nat.zero_le _, fun cfs => ⟨[], ?_⟩⟩
  obtain rfl : ty = .cfs := cfs
  exact zeroed_inv P

end Calls

section Counting

theorem zeroed_ledger (ty : SchedType) : Ledger (schedInit zeroed ty : Sched T) :=
  ⟨fun _ lt => absurd lt (Nat.not_lt_zero _), fun _ _ => ⟨rfl, rfl⟩⟩

theorem Grown.ledger (grown : Grown s s') (callbacks : s'.callbacks = s.callbacks) (ledger : Ledger s) :
    Ledger s' := by
  refine ⟨fun i lt => ?_, fun i beyond => ?_⟩
  · by_cases early : i < s.taskNum
    · obtain ⟨counted, limited, dead_iff⟩ := ledger.tasks i early
      rw [← grown.old i early] at counted limited dead_iff
      exact ⟨callbacks ▸ counted, limited, dead_iff⟩
    · obtain ⟨unused, zero⟩ := ledger.free i (Nat.not_lt.mp early)
      have running := grown.running i (Nat.not_lt.mp early) lt
      rw [← grown.execCnt] at zero
      refine ⟨?_, fun _ => ?_, ?_⟩
      · rw [callbacks, unused, zero]
        rfl
      · rw [zero]
        exact Nat.zero_le _
      · rw [running, zero]
        constructor
        · intro absurd
          cases absurd
        · rintro ⟨limit, same⟩
          exact absurd same.symm limit
  · rw [callbacks, grown.execCnt]
    exact ledger.free i (grown.taskNum.trans beyond)

/-- A running task below its limit counts one more execution; the last one it is
allowed makes it dead. -/
theorem executedTask_counts {task : SchedTask T} (running : task.status.eState = .running)
    (few : task.status.execCnt.toNat + 1 < 2 ^ T.bits)
    (limited : task.cfg.execCntMax ≠ 0 → task.status.execCnt ≤ task.cfg.execCntMax)
    (dead_iff : task.status.eState = .dead ↔
      task.cfg.execCntMax ≠ 0 ∧ task.status.execCnt = task.cfg.execCntMax) (endTs : U64) :
    (executedTask P task endTs).status.execCnt.toNat = task.status.execCnt.toNat + 1 ∧
      (task.cfg.execCntMax ≠ 0 → (executedTask P task endTs).status.execCnt ≤ task.cfg.execCntMax) ∧
      ((executedTask P task endTs).status.eState = .dead ↔
        task.cfg.execCntMax ≠ 0 ∧ (executedTask P task endTs).status.execCnt = task.cfg.execCntMax) := by
  have next : (task.status.execCnt + 1).toNat = task.status.execCnt.toNat + 1 := by
    rw [BitVec.toNat_add, one_toNat]
    exact Nat.mod_eq_of_lt few
  have alive : ¬(task.cfg.execCntMax ≠ 0 ∧ task.status.execCnt = task.cfg.execCntMax) := by
    rw [← dead_iff, running]
    decide
  have below : task.cfg.execCntMax ≠ 0 → task.status.execCnt.toNat < task.cfg.execCntMax.toNat := by
    intro limit
    have differ : task.status.execCnt.toNat ≠ task.cfg.execCntMax.toNat :=
      fun same => alive ⟨limit, BitVec.eq_of_toNat_eq same⟩
    have := BitVec.le_def.mp (limited limit)
    omega
  unfold executedTask
  dsimp only
  split
  · next again =>
    have short : task.cfg.execCntMax ≠ 0 → (task.status.execCnt + 1).toNat < task.cfg.execCntMax.toNat :=
      fun limit => BitVec.lt_def.mp (again.resolve_left limit)
    refine ⟨next, fun limit => Nat.le_of_lt (short limit), ?_⟩
    rw [running]
    constructor
    · intro absurd
      cases absurd
    · rintro ⟨limit, same⟩
      exact absurd (congrArg BitVec.toNat same) (Nat.ne_of_lt (short limit))
  · next last =>
    rw [not_or] at last
    obtain ⟨limit, reached⟩ := last
    rw [BitVec.lt_def] at reached
    have full : task.status.execCnt + 1 = task.cfg.execCntMax := by
      refine BitVec.eq_of_toNat_eq ?_
      have := below limit
      omega
    exact ⟨next, fun _ => Nat.le_of_eq (congrArg BitVec.toNat full), fun _ => ⟨limit, full⟩, fun _ => rfl⟩

theorem Executes.ledger {k : Nat} (executes : Executes P s s' k) (ledger : Ledger s)
    (few : s'.callbacks.count k < 2 ^ T.bits) : Ledger s' := by
  obtain ⟨within, running, callbacks, between, endTs, grown, num, tasks⟩ := executes
  have kept : Ledger { between with trace := s.trace } := by
    have same : Grown s { between with trace := s.trace } :=
      ⟨grown.taskNum, grown.old, grown.running, grown.execCnt⟩
    exact same.ledger rfl ledger
  have others : ∀ j, j ≠ k → s'.callbacks.count j = s.callbacks.count j := by
    intro j ne
    rw [callbacks, List.count_append, List.count_singleton]
    simp [Ne.symm ne]
  refine ⟨fun i lt => ?_, fun i beyond => ?_⟩
  · by_cases self : i = k
    · subst self
      obtain ⟨counted, limited, dead_iff⟩ := ledger.tasks i within
      rw [callbacks, List.count_append, List.count_singleton_self, counted] at few
      obtain ⟨next, upTo, dies⟩ := executedTask_counts running few limited dead_iff endTs
      refine ⟨?_, ?_, ?_⟩ <;> rw [tasks, Function.update_self]
      · rw [callbacks, List.count_append, List.count_singleton_self, counted, next]
      · rw [executedTask_cfg]
        exact upTo
      · rw [executedTask_cfg]
        exact dies
    · obtain ⟨counted, limited, dead_iff⟩ := kept.tasks i (num ▸ lt)
      refine ⟨?_, ?_, ?_⟩ <;> rw [tasks, Function.update_of_ne self]
      · rw [others i self]
        exact counted
      · exact limited
      · exact dead_iff
  · have self : i ≠ k := by
      have := grown.taskNum
      omega
    obtain ⟨unused, zero⟩ := kept.free i (num ▸ beyond)
    rw [others i self, tasks, Function.update_of_ne self]
    exact ⟨unused, zero⟩

theorem step_callbacks {op : Op T} (sound : Sound P s) (run : step P op s = some s') (i : Nat) :
    s.callbacks.count i ≤ s'.callbacks.count i := by
  rcases step_effect sound run with ⟨_, same⟩ | ⟨k, executes⟩
  · rw [same]
  · rw [executes.callbacks, List.count_append]
    exact Nat.le_add_right _ _

theorem step_ledger {op : Op T} (sound : Sound P s) (ledger : Ledger s) (run : step P op s = some s')
    (few : ∀ i, s'.callbacks.count i < 2 ^ T.bits) : Ledger s' := by
  rcases step_effect sound run with ⟨grown, same⟩ | ⟨k, executes⟩
  · exact grown.ledger same ledger
  · exact executes.ledger ledger (few k)

/-- A dead task keeps its record and its callback is not called. -/
theorem step_dead {op : Op T} (sound : Sound P s) (run : step P op s = some s') (lt : i < s.taskNum)
    (dead : (s.tasks i).status.eState = .dead) :
    i < s'.taskNum ∧ s'.tasks i = s.tasks i ∧ s'.callbacks.count i = s.callbacks.count i := by
  rcases step_effect sound run with ⟨grown, same⟩ | ⟨k, _, running, callbacks, between, endTs, grown, num, tasks⟩
  · exact ⟨lt.trans_le grown.taskNum, grown.old i lt, by rw [same]⟩
  · have self : i ≠ k := by
      rintro rfl
      rw [dead] at running
      cases running
    refine ⟨num ▸ lt.trans_le grown.taskNum, ?_, ?_⟩
    · rw [tasks, Function.update_of_ne self, grown.old i lt]
    · rw [callbacks, List.count_append, List.count_singleton]
      simp [Ne.symm self]

end Counting

section Runs

/-- A run whose calls fit succeeds, and so does each part of it. -/
theorem runs_sound (admits : Admits (step P) (OpFits P) ops s) (sound : Sound P s) :
    ∃ s', runs (step P) ops s = some s' ∧ Sound P s' :=
  runs_total step_sound sound admits

theorem runs_callbacks (sound : Sound P s) (admits : Admits (step P) (OpFits P) ops s)
    (run : runs (step P) ops s = some s') (i : Nat) : s.callbacks.count i ≤ s'.callbacks.count i := by
  have kept := runs_invariant (P := fun t => Sound P t ∧ s.callbacks.count i ≤ t.callbacks.count i)
    (fun ⟨sound, le⟩ fits next => ?_) ⟨sound, le_rfl⟩ admits run
  · exact kept.2
  · obtain ⟨t, next', sound'⟩ := step_sound sound fits
    cases next.symm.trans next'
    exact ⟨sound', le.trans (step_callbacks sound next i)⟩

/-- An outermost call calls at most one callback. -/
theorem runs_callbacks_length (sound : Sound P s) (admits : Admits (step P) (OpFits P) ops s)
    (run : runs (step P) ops s = some s') : s'.callbacks.length ≤ s.callbacks.length + ops.length := by
  induction ops generalizing s with
  | nil =>
    cases run
    exact le_rfl
  | cons op ops ih =>
    obtain ⟨s₁, next, rest⟩ := Option.bind_eq_some_iff.mp run
    obtain ⟨t, next', sound₁⟩ := step_sound sound admits.1
    cases next.symm.trans next'
    have later := ih sound₁ (admits.2 s₁ next) rest
    have once : s₁.callbacks.length ≤ s.callbacks.length + 1 := by
      rcases step_effect sound next with ⟨_, same⟩ | ⟨k, executes⟩
      · rw [same]
        exact Nat.le_succ _
      · rw [executes.callbacks, List.length_append]
        rfl
    rw [List.length_cons]
    omega

theorem runs_ledger (sound : Sound P s) (ledger : Ledger s) (admits : Admits (step P) (OpFits P) ops s)
    (run : runs (step P) ops s = some s') (few : ∀ i, s'.callbacks.count i < 2 ^ T.bits) : Ledger s' := by
  induction ops generalizing s with
  | nil =>
    cases run
    exact ledger
  | cons op ops ih =>
    obtain ⟨s₁, next, rest⟩ := Option.bind_eq_some_iff.mp run
    obtain ⟨t, next', sound₁⟩ := step_sound sound admits.1
    cases next.symm.trans next'
    have later := admits.2 s₁ next
    have few₁ : ∀ i, s₁.callbacks.count i < 2 ^ T.bits := fun i =>
      (runs_callbacks sound₁ later rest i).trans_lt (few i)
    exact ih sound₁ (step_ledger sound ledger next few₁) later rest

/-- From a dead task on, no selection finds it and no call changes it. -/
theorem runs_dead (sound : Sound P s) (admits : Admits (step P) (OpFits P) ops s)
    (run : runs (step P) ops s = some s') (lt : i < s.taskNum)
    (dead : (s.tasks i).status.eState = .dead) :
    (s'.tasks i).status.eState = .dead ∧ s'.callbacks.count i = s.callbacks.count i ∧
      ∀ t found, fGetTask P s' = some (t, found) → found ≠ some i := by
  have kept := runs_invariant (P := fun t => Sound P t ∧ i < t.taskNum ∧
      (t.tasks i).status.eState = .dead ∧ t.callbacks.count i = s.callbacks.count i)
    (fun ⟨sound, lt, dead, same⟩ fits next => ?_) ⟨sound, lt, dead, rfl⟩ admits run
  · obtain ⟨sound', _, dead', same⟩ := kept
    refine ⟨dead', same, ?_⟩
    rintro t _ select rfl
    have running := (select_running sound'.tree select).2
    rw [dead'] at running
    cases running
  · obtain ⟨t, next', sound'⟩ := step_sound sound fits
    cases next.symm.trans next'
    obtain ⟨lt', record, count⟩ := step_dead sound next lt dead
    exact ⟨sound', lt', by rw [record, dead], count.trans same⟩

/-- In any run from a zeroed scheduler of either type whose calls fit, and that
calls no callback `2 ^ w` times: after every call each task's counter is the
number of calls of its callback, it stays within a limit that is not zero, the
task is dead exactly at that limit, and a dead task stays dead and is neither
selected nor executed by any later call. -/
theorem runs_lifetime (admits : Admits (step P) (OpFits P) ops (schedInit zeroed ty))
    (few : ∀ s', runs (step P) ops (schedInit zeroed ty) = some s' → ∀ i, s'.callbacks.count i < 2 ^ T.bits)
    (part : done <+: ops) :
    ∃ s, runs (step P) done (schedInit zeroed ty) = some s ∧ (∀ i < s.taskNum, Accounted s i) ∧
      ∀ more, done ++ more <+: ops → ∃ s', runs (step P) more s = some s' ∧
        ∀ i < s.taskNum, (s.tasks i).status.eState = .dead →
          (s'.tasks i).status.eState = .dead ∧ s'.callbacks.count i = s.callbacks.count i ∧
            ∀ t found, fGetTask P s' = some (t, found) → found ≠ some i := by
  obtain ⟨rest, rfl⟩ := part
  have start := zeroed_sound P ty
  obtain ⟨s, run, sound⟩ := runs_sound admits.left start
  have later := admits.right run
  obtain ⟨last, runRest, _⟩ := runs_sound later sound
  have whole : runs (step P) (done ++ rest) (schedInit zeroed ty) = some last := by
    rw [runs_append, run]
    exact runRest
  have fewNow : ∀ i, s.callbacks.count i < 2 ^ T.bits := fun i =>
    (runs_callbacks sound later runRest i).trans_lt (few last whole i)
  have ledger := runs_ledger start (zeroed_ledger ty) admits.left run fewNow
  refine ⟨s, run, ledger.tasks, fun more segment => ?_⟩
  obtain ⟨tail, rfl⟩ := (List.prefix_append_right_inj done).mp segment
  obtain ⟨s', runMore, _⟩ := runs_sound later.left sound
  exact ⟨s', runMore, fun i lt dead => runs_dead sound later.left runMore lt dead⟩

theorem runs_lifetime_threeOps :
    ∃ s, runs (step smallPlatform) threeOps (schedInit zeroed .cfs) = some s ∧
      ∀ i < s.taskNum, Accounted s i := by
  have few : ∀ s', runs (step smallPlatform) threeOps (schedInit zeroed .cfs) = some s' →
      ∀ i, s'.callbacks.count i < 2 ^ Target.host.bits := by
    intro s' run i
    have short := runs_callbacks_length (zeroed_sound smallPlatform .cfs) threeOps_fit run
    exact (List.count_le_length.trans short).trans_lt (by decide)
  obtain ⟨s, run, accounted, _⟩ := runs_lifetime threeOps_fit few List.prefix_rfl
  exact ⟨s, run, accounted⟩

end Runs

end AvaModule.Scheduler
