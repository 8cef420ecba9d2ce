import Mathlib.Data.List.Sort
import AvaModule.Sched.Deadline
import AvaModule.Sched.Service

/-! Overdue tasks under `SCHED_TYPE_CFS`. While the words of the table do not wrap, whatever is late at some reading is
served before everything that a later call queues. -/
namespace AvaModule.Scheduler
open Transition StableQueue

variable {T : Target} {P : Platform T} {s s₁ s' : Sched T} {queue moved : List Nat} {ops : List (Op T)} {i : Nat}

/-- Where a task stands in the order of the tree. -/
def Sched.rank (s : Sched T) (i : Nat) : (Nat ×ₗ Nat) ×ₗ Nat :=
  StableQueue.rank (fun i => (s.tasks i).key) s.stamp i

/-- A running task whose deadline is before a reading. -/
def Late (s : Sched T) (now : U64) (i : Nat) : Prop :=
  i < s.taskNum ∧ (s.tasks i).status.eState = .running ∧ (s.tasks i).status.nextExecTs < toUsz now

instance (s : Sched T) (now : U64) : DecidablePred (Late s now) :=
  fun i => inferInstanceAs (Decidable (i < s.taskNum ∧ _ ∧ _))

/-- The late tasks in the order of the tree. -/
def late (s : Sched T) (now : U64) : List Nat :=
  ((List.range s.taskNum).filter (Late s now ·)).insertionSort fun i j => s.rank i ≤ s.rank j

theorem mem_late {now : U64} : i ∈ late s now ↔ Late s now i := by
  rw [late, (List.perm_insertionSort _ _).mem_iff, List.mem_filter, List.mem_range, decide_eq_true_eq]
  exact ⟨And.right, fun late => ⟨late.1, late⟩⟩

/-- The late tasks are the only list in the order of the tree with these members. -/
theorem late_unique {now : U64} {xs : List Nat} (sorted : xs.Pairwise fun i j => s.rank i < s.rank j)
    (members : ∀ i, i ∈ xs ↔ Late s now i) : late s now = xs := by
  have nodup : (late s now).Nodup :=
    (List.perm_insertionSort _ _).nodup_iff.mpr (List.nodup_range.filter _)
  have distinct : xs.Nodup := sorted.imp fun lt same => absurd (same ▸ lt) (lt_irrefl _)
  have perm : (late s now).Perm xs :=
    (List.perm_ext_iff_of_nodup nodup distinct).mpr fun i => mem_late.trans (members i).symm
  have ordered : (late s now).Pairwise fun i j => s.rank i ≤ s.rank j := List.pairwise_insertionSort _ _
  refine perm.eq_of_pairwise ?_ ordered (sorted.imp le_of_lt)
  intro i j inside inside' le ge
  have ranks : (xs.map s.rank).Nodup :=
    (List.pairwise_map.mpr sorted).imp fun lt same => absurd (same ▸ lt) (lt_irrefl _)
  exact List.inj_on_of_nodup_map ranks (perm.mem_iff.mp inside) inside' (le_antisymm le ge)

/-- They are the front of the queue. -/
theorem CfsInv.late_eq (inv : CfsInv P s [] queue) (ids : IdsValid P s) (now : U64) :
    late s now = queue.filter fun i => (s.tasks i).status.nextExecTs < toUsz now := by
  refine late_unique (inv.served.ordered.filter _) fun i => ?_
  rw [List.mem_filter, inv.running_iff ids, decide_eq_true_eq, and_assoc]
  rfl

theorem CfsInv.late_sorted (inv : CfsInv P s [] queue) (ids : IdsValid P s) (now : U64) :
    (late s now).Pairwise fun i j => s.rank i < s.rank j := by
  rw [inv.late_eq ids]
  exact inv.served.ordered.filter _

theorem CfsInv.late_head {now : U64} {rest : List Nat} (inv : CfsInv P s [] queue) (ids : IdsValid P s)
    (first : late s now = i :: rest) : queue.head? = some i := by
  have member : i ∈ late s now := first ▸ List.mem_cons_self
  rw [inv.late_eq ids] at first member
  obtain ⟨queued, early⟩ := List.mem_filter.mp member
  cases queue with
  | nil => cases queued
  | cons k queue =>
    have least : (s.tasks k).key ≤ (s.tasks i).key := by
      rcases List.mem_cons.mp queued with rfl | behind
      · exact le_rfl
      · exact (List.pairwise_cons.mp inv.sorted).1 i behind
    have sooner : (s.tasks k).status.nextExecTs.toNat ≤ (s.tasks i).status.nextExecTs.toNat := by
      rcases Prod.Lex.toLex_le_toLex.mp least with lt | ⟨same, _⟩
      · exact Nat.le_of_lt lt
      · exact Nat.le_of_eq same
    have front : (s.tasks k).status.nextExecTs < toUsz now := by
      have early := BitVec.lt_def.mp (of_decide_eq_true early)
      exact BitVec.lt_def.mpr (Nat.lt_of_le_of_lt sooner early)
    rw [List.filter_cons, if_pos (decide_eq_true front)] at first
    exact congrArg some (List.cons.inj first).1

section Steps
variable {now t endTs : U64} {taskCfg : SchedTaskCfg T} {script : List (SchedTaskCfg T × U64)} {ret : Int}

/-- A part of a call changes only the `moved` tasks, and leaves neither these nor the new ones late. -/
structure Passed (now : U64) (moved : List Nat) (s s' : Sched T) : Prop where
  num : s.taskNum ≤ s'.taskNum
  tasks : ∀ i < s.taskNum, i ∉ moved → s'.tasks i = s.tasks i
  stamp : ∀ i < s.taskNum, i ∉ moved → s'.stamp i = s.stamp i
  onTime : ∀ i, s.taskNum ≤ i ∨ i ∈ moved → ¬Late s' now i

theorem SameTable.passed (same : SameTable s s') (stamp : s'.stamp = s.stamp) : Passed now [] s s' where
  num := Nat.le_of_eq same.taskNum.symm
  tasks := fun i _ _ => congrFun same.tasks i
  stamp := fun i _ _ => congrFun stamp i
  onTime := by
    rintro i (above | moved) late
    · exact absurd late.1 (by rw [same.taskNum]; omega)
    · cases moved

theorem Passed.trans (first : Passed now [] s s₁) (second : Passed now moved s₁ s') : Passed now moved s s' where
  num := first.num.trans second.num
  tasks := fun i lt kept => (second.tasks i (by have := first.num; omega) kept).trans (first.tasks i lt List.not_mem_nil)
  stamp := fun i lt kept => (second.stamp i (by have := first.num; omega) kept).trans (first.stamp i lt List.not_mem_nil)
  onTime := by
    rintro i new ⟨lt, running, early⟩
    by_cases fresh : s₁.taskNum ≤ i ∨ i ∈ moved
    · exact second.onTime i fresh ⟨lt, running, early⟩
    · obtain ⟨below, kept⟩ := not_or.mp fresh
      have same := second.tasks i (by omega) kept
      rw [same] at running early
      exact first.onTime i (.inl (new.resolve_right kept)) ⟨by omega, running, early⟩

/-- The late tasks that a step has not moved are those that are late after it. -/
theorem Passed.late_eq (passed : Passed now moved s s') (sorted : (late s now).Pairwise fun i j => s.rank i < s.rank j) :
    late s' now = (late s now).filter (· ∉ moved) := by
  have kept : ∀ i ∈ (late s now).filter (· ∉ moved), s'.tasks i = s.tasks i ∧ s'.rank i = s.rank i := by
    intro i inside
    obtain ⟨late, still⟩ := List.mem_filter.mp inside
    have lt := (mem_late.mp late).1
    have still : i ∉ moved := of_decide_eq_true still
    refine ⟨passed.tasks i lt still, ?_⟩
    rw [Sched.rank, Sched.rank, rank, rank, passed.tasks i lt still, passed.stamp i lt still]
  apply late_unique
  · refine (sorted.filter _).imp_of_mem fun inside inside' lt => ?_
    rwa [(kept _ inside).2, (kept _ inside').2]
  · intro i
    constructor
    · intro inside
      have same := (kept i inside).1
      obtain ⟨lt, running, early⟩ := mem_late.mp (List.mem_filter.mp inside).1
      exact ⟨lt.trans_le passed.num, same ▸ running, same ▸ early⟩
    · rintro ⟨lt, running, early⟩
      have old := mt (passed.onTime i) (not_not.mpr ⟨lt, running, early⟩)
      obtain ⟨below, still⟩ := not_or.mp old
      have same := passed.tasks i (by omega) still
      exact List.mem_filter.mpr ⟨mem_late.mpr ⟨by omega, same ▸ running, same ▸ early⟩, decide_eq_true still⟩

theorem insert_stamp (run : schedCfsInsertTask P s i = some s') {j : Nat} (ne : j ≠ i) : s'.stamp j = s.stamp j := by
  unfold schedCfsInsertTask at run
  dsimp only at run
  split at run
  · cases run
    rfl
  · obtain ⟨⟨_, heap⟩, _, done⟩ := Option.bind_eq_some_iff.mp run
    cases done
    exact Function.update_of_ne ne _ _

theorem remove_stamp (run : schedCfsRemoveTask P s i = some s') : s'.stamp = s.stamp := by
  unfold schedCfsRemoveTask at run
  split at run
  · obtain ⟨⟨_, heap⟩, _, done⟩ := Option.bind_eq_some_iff.mp run
    cases done
    rfl
  · cases run
    rfl

theorem add_stamp (run : schedAddTask P s taskCfg ts = some (s', ret)) {j : Nat} (ne : j ≠ s.taskNum) :
    s'.stamp j = s.stamp j := by
  unfold schedAddTask at run
  split at run
  · dsimp only at run
    split at run
    · obtain ⟨s₁, inserted, done⟩ := Option.map_eq_some_iff.mp run
      cases done
      exact insert_stamp inserted ne
    · cases run
      rfl
  · cases run

theorem finish_stamp (run : execFinish P s i endTs = some s') {j : Nat} (ne : j ≠ i) : s'.stamp j = s.stamp j := by
  unfold execFinish at run
  dsimp only at run
  split at run
  · split at run
    · exact insert_stamp run ne
    · cases run
      rfl
  · cases run
    rfl

/-- The words that a call stores are its readings and the deadlines made from them. -/
def Unwrapped (P : Platform T) (op : Op T) (s : Sched T) : Prop :=
  match op with
  | .add taskCfg ts => ts.toNat + taskCfg.delayTick.toNat < T.modulus
  | .exec now script endTs => now ≤ endTs ∧
      (∀ call ∈ script, call.2.toNat + call.1.delayTick.toNat < T.modulus) ∧
      ∀ i, selected P s = some i → endTs.toNat + (P.hz2tick (s.tasks i).cfg.execFreq).toNat < T.modulus

/-- A running task is not due before its delay has passed. -/
def Delayed (s : Sched T) : Prop :=
  ∀ i < s.taskNum, (s.tasks i).status.eState = .running →
    (s.tasks i).status.createTs.toNat + (s.tasks i).cfg.delayTick.toNat ≤ (s.tasks i).status.nextExecTs.toNat

theorem toUsz_exact (fits : t.toNat < T.modulus) : (toUsz t : Usz T).toNat = t.toNat := by
  rw [toNat_toUsz, Nat.mod_eq_of_lt fits]

theorem toUsz_le (t : U64) : (toUsz t : Usz T).toNat ≤ t.toNat := by
  rw [toNat_toUsz]
  exact Nat.mod_le _ _

theorem modulus_le (T : Target) : T.modulus ≤ 2 ^ 64 := by
  cases T <;> decide

theorem addedTask_next (fits : t.toNat + taskCfg.delayTick.toNat < T.modulus) :
    (addedTask s taskCfg t).status.createTs.toNat = t.toNat ∧
      (addedTask s taskCfg t).status.nextExecTs.toNat = t.toNat + taskCfg.delayTick.toNat := by
  have ts := toUsz_exact (T := T) (t := t) (by omega)
  refine ⟨ts, ?_⟩
  change (toUsz t + taskCfg.delayTick).toNat = _
  rw [BitVec.toNat_add, ts]
  exact Nat.mod_eq_of_lt fits

theorem executedTask_next {task : SchedTask T} (fits : endTs.toNat + (P.hz2tick task.cfg.execFreq).toNat < T.modulus)
    (running : (executedTask P task endTs).status.eState = .running) :
    (executedTask P task endTs).status.nextExecTs.toNat = endTs.toNat + (P.hz2tick task.cfg.execFreq).toNat := by
  have room := modulus_le T
  have sum : (endTs + P.hz2tick task.cfg.execFreq).toNat = endTs.toNat + (P.hz2tick task.cfg.execFreq).toNat := by
    rw [BitVec.toNat_add, Nat.mod_eq_of_lt (by omega)]
  rw [executedTask_nextExecTs running, executedTask_cfg, toUsz_exact (by rw [sum]; exact fits), sum]

theorem add_passed (fits : t.toNat + taskCfg.delayTick.toNat < T.modulus) (onward : now ≤ t)
    (run : schedAddTask P s taskCfg t = some (s', ret)) : Passed now [] s s' := by
  obtain ⟨_, _, _, num, tasks, _⟩ := add_table run
  refine ⟨by omega, fun i lt _ => ?_, fun i lt _ => add_stamp run (Nat.ne_of_lt lt), ?_⟩
  · rw [tasks, Function.update_of_ne (Nat.ne_of_lt lt)]
  · rintro i (above | moved) ⟨lt, _, early⟩
    · obtain rfl : i = s.taskNum := by omega
      rw [tasks, Function.update_self, BitVec.lt_def, (addedTask_next fits).2] at early
      have word := toUsz_le (T := T) now
      have onward := BitVec.le_def.mp onward
      omega
    · cases moved

theorem add_delayed (fits : t.toNat + taskCfg.delayTick.toNat < T.modulus) (delayed : Delayed s)
    (run : schedAddTask P s taskCfg t = some (s', ret)) : Delayed s' := by
  obtain ⟨_, _, _, num, tasks, _⟩ := add_table run
  intro i lt running
  rw [tasks] at running ⊢
  by_cases self : i = s.taskNum
  · subst self
    rw [Function.update_self, (addedTask_next fits).1, (addedTask_next fits).2]
    exact le_rfl
  · rw [Function.update_of_ne self] at running ⊢
    exact delayed i (by omega) running

theorem addAll_passed (fits : ∀ call ∈ script, call.2.toNat + call.1.delayTick.toNat < T.modulus)
    (onward : ∀ call ∈ script, now ≤ call.2) (run : schedAddTasks P script s = some s') : Passed now [] s s' := by
  induction script generalizing s with
  | nil =>
    cases run
    exact SameTable.passed ⟨rfl, rfl, rfl⟩ rfl
  | cons call script ih =>
    obtain ⟨⟨s₁, ret⟩, first, rest⟩ := Option.bind_eq_some_iff.mp run
    have here := add_passed (fits call List.mem_cons_self) (onward call List.mem_cons_self) first
    exact here.trans (ih (fun call mem => fits call (List.mem_cons_of_mem _ mem))
      (fun call mem => onward call (List.mem_cons_of_mem _ mem)) rest)

theorem addAll_delayed (fits : ∀ call ∈ script, call.2.toNat + call.1.delayTick.toNat < T.modulus) (delayed : Delayed s)
    (run : schedAddTasks P script s = some s') : Delayed s' := by
  induction script generalizing s with
  | nil =>
    cases run
    exact delayed
  | cons call script ih =>
    obtain ⟨⟨s₁, ret⟩, first, rest⟩ := Option.bind_eq_some_iff.mp run
    exact ih (fun call mem => fits call (List.mem_cons_of_mem _ mem))
      (add_delayed (fits call List.mem_cons_self) delayed first) rest

theorem finish_passed (fits : endTs.toNat + (P.hz2tick (s.tasks i).cfg.execFreq).toNat < T.modulus) (onward : now ≤ endTs)
    (run : execFinish P s i endTs = some s') : Passed now [i] s s' := by
  obtain ⟨_, num, tasks, _⟩ := finish_table run
  refine ⟨Nat.le_of_eq num.symm, fun j _ other => ?_, fun j _ other => ?_, ?_⟩
  · rw [tasks, Function.update_of_ne (List.ne_of_not_mem_cons other)]
  · exact finish_stamp run (List.ne_of_not_mem_cons other)
  · rintro j (above | moved) ⟨lt, running, early⟩
    · omega
    · obtain rfl := List.mem_singleton.mp moved
      rw [tasks, Function.update_self] at running early
      rw [BitVec.lt_def, executedTask_next fits running] at early
      have word := toUsz_le (T := T) now
      have onward := BitVec.le_def.mp onward
      omega

theorem finish_delayed (fits : endTs.toNat + (P.hz2tick (s.tasks i).cfg.execFreq).toNat < T.modulus) (delayed : Delayed s)
    (lt : i < s.taskNum) (was : (s.tasks i).status.eState = .running)
    (reached : (s.tasks i).status.nextExecTs.toNat ≤ endTs.toNat) (run : execFinish P s i endTs = some s') : Delayed s' := by
  obtain ⟨_, num, tasks, _⟩ := finish_table run
  intro j below running
  rw [tasks] at running ⊢
  by_cases self : j = i
  · subst self
    rw [Function.update_self] at running ⊢
    rw [executedTask_next fits running, executedTask_cfg, executedTask_createTs]
    have old := delayed j lt was
    omega
  · rw [Function.update_of_ne self] at running ⊢
    exact delayed j (num ▸ below) running

/-- An execution moves only the task that it runs. -/
theorem call_passed (lt : i < s.taskNum) (fits : endTs.toNat + (P.hz2tick (s.tasks i).cfg.execFreq).toNat < T.modulus)
    (added : ∀ call ∈ script, call.2.toNat + call.1.delayTick.toNat < T.modulus) (later : ∀ call ∈ script, now ≤ call.2)
    (onward : now ≤ endTs) (run : execCall P s i t script endTs = some s') : Passed now [i] s s' := by
  obtain ⟨s₁, s₂, removed, same, _, adds, finished⟩ := call_table run
  have stamp : s₁.stamp = s.stamp := by
    split at removed
    · exact remove_stamp removed
    · cases removed
      rfl
  have begun : SameTable s (s₁.record (.began i t)) := ⟨same.eType, same.taskNum, same.tasks⟩
  have before : Passed now [] s s₂ := (begun.passed stamp).trans (addAll_passed added later adds)
  have kept := before.tasks i lt List.not_mem_nil
  exact before.trans (finish_passed (kept ▸ fits) onward finished)

theorem call_delayed (delayed : Delayed s) (lt : i < s.taskNum) (was : (s.tasks i).status.eState = .running)
    (fits : endTs.toNat + (P.hz2tick (s.tasks i).cfg.execFreq).toNat < T.modulus)
    (added : ∀ call ∈ script, call.2.toNat + call.1.delayTick.toNat < T.modulus)
    (reached : (s.tasks i).status.nextExecTs.toNat ≤ endTs.toNat) (run : execCall P s i t script endTs = some s') :
    Delayed s' := by
  obtain ⟨s₁, s₂, _, same, _, adds, finished⟩ := call_table run
  have begun : Delayed (s₁.record (.began i t)) := by
    intro j below running
    rw [record_tasks, same.tasks] at running ⊢
    exact delayed j (same.taskNum ▸ below) running
  obtain ⟨_, num, _, kept, _⟩ := addAll_table adds
  rw [record_taskNum, same.taskNum] at num kept
  have task : s₂.tasks i = s.tasks i := (kept i lt).trans (congrFun same.tasks i)
  exact finish_delayed (task ▸ fits) (addAll_delayed added begun adds) (by omega) (task ▸ was) (task ▸ reached) finished

theorem step_delayed {op : Op T} (inv : CfsInv P s [] queue) (delayed : Delayed s) (unwrapped : Unwrapped P op s)
    (run : step P op s = some s') : Delayed s' := by
  cases op with
  | add taskCfg ts =>
    obtain ⟨⟨s₁, ret⟩, added, done⟩ := Option.map_eq_some_iff.mp run
    cases done
    exact add_delayed unwrapped delayed added
  | exec now script endTs =>
    obtain ⟨⟨s₁, ret⟩, executed, done⟩ := Option.map_eq_some_iff.mp run
    cases done
    obtain ⟨s₀, found, select, outcome⟩ := schedExec_cases executed
    cases select.symm.trans (inv.tick (toUsz now)).select
    rcases outcome with ⟨rfl, _⟩ | ⟨i, head, ready, _, call⟩
    · exact delayed
    · obtain ⟨ordered, added, fits⟩ := unwrapped
      obtain ⟨lt, running, _⟩ := (inv.member i).mp (List.mem_of_head? head)
      have chosen : selected P s = some i := selected_of_select (head ▸ select)
      have reached : (s.tasks i).status.nextExecTs.toNat ≤ endTs.toNat :=
        (Nat.le_of_not_lt (mt BitVec.lt_def.mpr ready.2.2)).trans ((toUsz_le now).trans (BitVec.le_def.mp ordered))
      exact call_delayed (s := { s with currTs := toUsz now }) delayed lt running (fits i chosen) added reached call

/-- The late tasks wait on while one is added. -/
theorem add_waits (inv : CfsInv P s [] queue) (ids : IdsValid P s) (unwrapped : Unwrapped P (.add taskCfg t) s)
    (onward : now ≤ t) (added : schedAddTask P s taskCfg t = some (s', ret)) :
    s'.callbacks = s.callbacks ∧ late s' now = late s now ∧ ∀ j ∈ late s now, s'.tasks j = s.tasks j := by
  have passed := add_passed unwrapped onward added
  refine ⟨?_, ?_, fun j inside => passed.tasks j (mem_late.mp inside).1 List.not_mem_nil⟩
  · rw [Sched.callbacks, (add_table added).2.2.2.2.2, List.filterMap_append]
    exact List.append_nil _
  · rw [passed.late_eq (inv.late_sorted ids now)]
    exact List.filter_eq_self.mpr fun j _ => by simp

/-- Of the late tasks `sched_exec` runs the first, if it has a callback. -/
theorem exec_serves {rest : List Nat} (inv : CfsInv P s [] queue) (ids : IdsValid P s) (delayed : Delayed s)
    (unwrapped : Unwrapped P (.exec t script endTs) s) (onward : ∀ ts ∈ (Op.exec t script endTs).readings, now ≤ ts)
    (first : late s now = i :: rest) (callback : (s.tasks i).cfg.fCb ≠ none)
    (run : schedExec P s t script endTs = some (s', ret)) :
    s'.callbacks = s.callbacks ++ [i] ∧ late s' now = rest ∧ ∀ j ∈ rest, s'.tasks j = s.tasks j := by
  obtain ⟨ordered, added, fits⟩ := unwrapped
  obtain ⟨lt, running, early⟩ := mem_late.mp (first ▸ List.mem_cons_self : i ∈ late s now)
  have head := inv.late_head ids first
  obtain ⟨s₀, found, select, outcome⟩ := schedExec_cases run
  cases select.symm.trans (inv.tick (toUsz t)).select
  have chosen : selected P s = some i := selected_of_select (head ▸ select)
  have room := fits i chosen
  have ready : Ready s i (toUsz t) := by
    have here : now ≤ t := onward t (by simp [Op.readings])
    rw [BitVec.le_def] at here ordered
    have reading := toUsz_exact (T := T) (t := t) (by omega)
    have word := toUsz_le (T := T) now
    rw [BitVec.lt_def] at early
    have waited := delayed i lt running
    have since : (toUsz t - (s.tasks i).status.createTs).toNat = t.toNat - (s.tasks i).status.createTs.toNat := by
      rw [BitVec.toNat_sub_of_le (BitVec.le_def.mpr (by omega)), reading]
    refine ⟨callback, ?_, ?_⟩
    · rw [BitVec.lt_def, since]
      omega
    · rw [BitVec.lt_def, reading]
      omega
  rcases outcome with ⟨rfl, unready⟩ | ⟨j, headJ, _, _, call⟩
  · exact absurd ready (unready i head)
  · cases head.symm.trans headJ
    have sorted := inv.late_sorted ids now
    have passed : Passed now [i] s s' := by
      have moved : Passed now [i] { s with currTs := toUsz t } s' := call_passed lt room added
        (fun call mem => onward call.2 (by simp [Op.readings, List.mem_map_of_mem mem]))
        (onward endTs (by simp [Op.readings])) call
      exact ⟨moved.num, moved.tasks, moved.stamp, moved.onTime⟩
    have absent : i ∉ rest := by
      rw [first] at sorted
      exact fun again => absurd ((List.pairwise_cons.mp sorted).1 i again) (lt_irrefl _)
    have others : ∀ j ∈ rest, j ≠ i := fun j inside same => absent (same ▸ inside)
    have ran : s'.callbacks = { s with currTs := toUsz t }.callbacks ++ [i] := call_callbacks call
    refine ⟨ran, ?_, fun j inside => ?_⟩
    · rw [passed.late_eq sorted, first, List.filter_cons, if_neg (by simp)]
      exact List.filter_eq_self.mpr fun j inside => by simp [others j inside]
    · have lt := (mem_late.mp (first ▸ List.mem_cons_of_mem i inside : j ∈ late s now)).1
      exact passed.tasks j lt (by simp [others j inside])

end Steps

def Op.isExec : Op T → Bool
  | .add _ _ => false
  | .exec _ _ _ => true

theorem runs_delayed (admits : Admits (step P) (fun op s => OpFits P op s ∧ Unwrapped P op s) ops (schedInit zeroed .cfs))
    (run : runs (step P) ops (schedInit zeroed .cfs) = some s) :
    (∃ queue, CfsInv P s [] queue) ∧ IdsValid P s ∧ Delayed s := by
  refine runs_invariant (P := fun s => (∃ queue, CfsInv P s [] queue) ∧ IdsValid P s ∧ Delayed s) ?_
    ⟨⟨[], zeroed_inv P⟩, ?_, ?_⟩ admits run
  · rintro op s s' ⟨⟨queue, inv⟩, ids, delayed⟩ ⟨fits, unwrapped⟩ run
    exact ⟨step_inv inv run, step_ids ids fits run, step_delayed inv delayed unwrapped run⟩
  · exact fun i lt => absurd lt (Nat.not_lt_zero i)
  · exact fun i lt => absurd lt (Nat.not_lt_zero i)

/-- Whatever the calls from a reading on add, their executions run the tasks that are late then, in the order of the
tree and each once, until all of them have had their turn. -/
theorem late_served {later : List (Op T)}
    (admits : Admits (step P) (fun op s => OpFits P op s ∧ Unwrapped P op s) (ops ++ later) (schedInit zeroed .cfs))
    (run : runs (step P) ops (schedInit zeroed .cfs) = some s) (now : U64)
    (onward : ∀ op ∈ later, ∀ ts ∈ op.readings, now ≤ ts) (callbacks : ∀ i ∈ late s now, (s.tasks i).cfg.fCb ≠ none)
    (few : later.countP Op.isExec ≤ (late s now).length) :
    ∃ s', runs (step P) later s = some s' ∧
      s'.callbacks = s.callbacks ++ (late s now).take (later.countP Op.isExec) ∧
      late s' now = (late s now).drop (later.countP Op.isExec) := by
  obtain ⟨⟨queue, inv⟩, ids, delayed⟩ := runs_delayed admits.left run
  replace admits := admits.right run
  clear run
  induction later generalizing s queue with
  | nil => exact ⟨s, rfl, by simp, rfl⟩
  | cons op later ih =>
    obtain ⟨⟨fits, unwrapped⟩, next⟩ := admits
    obtain ⟨s₁, here⟩ := step_total inv fits
    obtain ⟨queue₁, inv₁⟩ := step_inv inv here
    have ids₁ := step_ids ids fits here
    have delayed₁ := step_delayed inv delayed unwrapped here
    have beyond : ∀ op ∈ later, ∀ ts ∈ op.readings, now ≤ ts := fun op mem => onward op (List.mem_cons_of_mem _ mem)
    have go := @ih s₁ beyond
    cases op with
    | add taskCfg ts =>
      obtain ⟨⟨s₂, ret⟩, added, done⟩ := Option.map_eq_some_iff.mp here
      obtain rfl : s₁ = s₂ := done.symm
      obtain ⟨ran, same, kept⟩ := add_waits inv ids unwrapped (onward _ List.mem_cons_self ts (by simp [Op.readings])) added
      rw [same, ran] at go
      rw [List.countP_cons_of_neg (by simp [Op.isExec])] at few ⊢
      obtain ⟨s', rest, served, left⟩ := go (fun j inside => kept j inside ▸ callbacks j inside) few queue₁ inv₁ ids₁ delayed₁
        (next s₁ here)
      exact ⟨s', by rw [runs, here]; exact rest, served, left⟩
    | exec t script endTs =>
      obtain ⟨⟨s₂, ret⟩, executed, done⟩ := Option.map_eq_some_iff.mp here
      obtain rfl : s₁ = s₂ := done.symm
      rw [List.countP_cons_of_pos (by simp [Op.isExec])] at few ⊢
      obtain ⟨i, rest, first⟩ := List.exists_cons_of_length_pos (Nat.zero_lt_of_lt few)
      obtain ⟨ran, left, kept⟩ := exec_serves inv ids delayed unwrapped (onward _ List.mem_cons_self) first
        (callbacks i (first ▸ List.mem_cons_self)) executed
      rw [left, ran] at go
      rw [first] at few callbacks ⊢
      have able : ∀ j ∈ rest, (s₁.tasks j).cfg.fCb ≠ none := fun j inside =>
        kept j inside ▸ callbacks j (List.mem_cons_of_mem i inside)
      obtain ⟨s', after, served, still⟩ := go able (Nat.le_of_succ_le_succ few) queue₁ inv₁ ids₁ delayed₁ (next s₁ here)
      refine ⟨s', by rw [runs, here]; exact after, ?_, ?_⟩
      · rw [served, List.take_succ_cons, List.append_assoc]
        rfl
      · rw [still, List.drop_succ_cons]

section Two

theorem small_ticks (freq : Usz .host) {t : U64} (early : t.toNat < 2 ^ 63) :
    t.toNat + (smallPlatform.hz2tick freq).toNat < Target.host.modulus := by
  have tick : (smallPlatform.hz2tick freq).toNat ≤ 1000000 := (Nat.mod_le _ _).trans (Nat.div_le_self _ _)
  have modulus : Target.host.modulus = 2 ^ 64 := rfl
  omega

/-- Two tasks that are late at 30. The first one's callback adds a third, which has to wait. -/
theorem late_served_two :
    ∃ s s', runs (step smallPlatform) [.add (everyMs 0) 10, .add (everyMs 1) 20] (schedInit zeroed .cfs) = some s ∧
      runs (step smallPlatform) [.exec 30 [(everyMs 2, 40)] 50, .exec 60 [] 70] s = some s' ∧
      s'.callbacks = s.callbacks ++ [0, 1] := by
  obtain ⟨s₁, _, run₁, inv₁⟩ := (zeroed_inv smallPlatform).add (by decide) (by simp) (everyMs 0) 10
  obtain ⟨_, _, _, num₁, tasks₁, _⟩ := add_table run₁
  replace num₁ : s₁.taskNum = 1 := num₁
  obtain ⟨s₂, _, run₂, inv₂⟩ := inv₁.add (by rw [num₁]; decide) (by simp) (everyMs 1) 20
  obtain ⟨_, _, _, num₂, tasks₂, _⟩ := add_table run₂
  rw [num₁] at num₂ tasks₂
  have task₀ : s₂.tasks 0 = addedTask (schedInit zeroed .cfs) (everyMs 0) 10 := by
    rw [tasks₂, Function.update_of_ne (by decide), tasks₁]
    exact Function.update_self _ _ _
  have task₁ : s₂.tasks 1 = addedTask s₁ (everyMs 1) 20 := by
    rw [tasks₂, Function.update_self]
  have first : step smallPlatform (.add (everyMs 0) 10) (schedInit zeroed .cfs) = some s₁ := by
    rw [step, run₁]
    rfl
  have second : step smallPlatform (.add (everyMs 1) 20) s₁ = some s₂ := by
    rw [step, run₂]
    rfl
  have fits : OpFits smallPlatform (.exec 30 [(everyMs 2, 40)] 50) s₂ := by
    rw [OpFits, num₂]
    decide
  obtain ⟨s₃, third⟩ := step_total inv₂ fits
  have num₃ : s₃.taskNum ≤ 8 := by
    obtain ⟨queue, inv₃⟩ := step_inv inv₂ third
    exact inv₃.room
  have admits : Admits (step smallPlatform) (fun op s => OpFits smallPlatform op s ∧ Unwrapped smallPlatform op s)
      ([.add (everyMs 0) 10, .add (everyMs 1) 20] ++ [.exec 30 [(everyMs 2, 40)] 50, .exec 60 [] 70])
      (schedInit zeroed .cfs) := by
    refine .cons ⟨by rw [OpFits]; decide, by rw [Unwrapped]; decide⟩ first (.cons ⟨?_, by rw [Unwrapped]; decide⟩ second
      (.cons ⟨fits, by decide, by decide, fun i _ => small_ticks _ (by decide)⟩ third ⟨⟨?_, ?_⟩, fun _ _ => trivial⟩))
    · rw [OpFits, num₁]
      decide
    · exact ⟨num₃, by simp⟩
    · exact ⟨by decide, by simp, fun i _ => small_ticks _ (by decide)⟩
  have waiting : late s₂ 30 = [0, 1] := by
    refine late_unique ?_ fun i => ?_
    · have earlier : (toUsz 10 + (everyMs 0).delayTick).toNat < (toUsz 20 + (everyMs 1).delayTick).toNat := by decide
      have keys : (s₂.tasks 0).key < (s₂.tasks 1).key := by
        rw [task₀, task₁]
        exact Prod.Lex.toLex_lt_toLex.mpr (.inl earlier)
      have ranked : s₂.rank 0 < s₂.rank 1 := @rank_lt_of_key_lt _ _ _ (fun i => (s₂.tasks i).key) s₂.stamp 0 1 keys
      simpa using ranked
    · rw [Late, num₂]
      constructor
      · intro inside
        rcases List.mem_cons.mp inside with rfl | inside
        · rw [task₀]
          exact ⟨by decide, rfl, by decide⟩
        · rw [List.mem_singleton.mp inside, task₁]
          exact ⟨by decide, rfl, (by decide : (toUsz 20 + (everyMs 1).delayTick : Usz .host) < toUsz 30)⟩
      · rintro ⟨lt, -⟩
        have cases : i = 0 ∨ i = 1 := by omega
        simpa using cases
  have run : runs (step smallPlatform) [.add (everyMs 0) 10, .add (everyMs 1) 20] (schedInit zeroed .cfs) = some s₂ := by
    rw [runs, first, Option.bind_some, runs, second]
    rfl
  have onward : ∀ op ∈ ([.exec 30 [(everyMs 2, 40)] 50, .exec 60 [] 70] : List (Op .host)), ∀ ts ∈ op.readings, 30 ≤ ts := by
    simp [Op.readings]
  have callbacks : ∀ i ∈ late s₂ 30, (s₂.tasks i).cfg.fCb ≠ none := by
    rw [waiting]
    intro i inside
    rcases List.mem_cons.mp inside with rfl | inside
    · rw [task₀]
      exact Option.some_ne_none _
    · rw [List.mem_singleton.mp inside, task₁]
      exact Option.some_ne_none _
  obtain ⟨s', ran, served, _⟩ := late_served admits run 30 onward callbacks (by rw [waiting]; decide)
  rw [waiting] at served
  exact ⟨s₂, s', run, ran, served⟩

end Two

end AvaModule.Scheduler
