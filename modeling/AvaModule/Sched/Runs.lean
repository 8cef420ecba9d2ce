import AvaModule.Ds.RbTree.Runs
import AvaModule.Sched.Invariant

/-! Whole runs under `SCHED_TYPE_CFS`, from a zeroed and initialised scheduler.
`taskNum` counts the `sched_add_task` calls made so far, so a run whose calls fit
makes at most `taskMax` of them. -/
namespace AvaModule.Scheduler
open RedBlack RbTree StableQueue Transition

variable {T : Target} {P : Platform T} {s s' : Sched T} {queue : List Nat} {ops done : List (Op T)}

theorem schedCfsTaskCmp_nonpos {a b : SchedTask T} : schedCfsTaskCmp a b ≤ 0 ↔ a.key ≤ b.key := by
  rw [← not_lt (a := b.key), ← schedCfsTaskCmp_neg]
  unfold schedCfsTaskCmp
  simp only [gt_iff_lt, BitVec.lt_def]
  split_ifs <;> omega

/-- The tree `t` of the heap holds the tasks `queue`: each running task once, in
the order of `sched_cfs_task_cmp`, and a task's packed word is non-zero exactly
if it is there. No key has been written while its task was linked. -/
structure CfsTree (P : Platform T) (s : Sched T) (t : RedBlack.Tree (Usz T)) (queue : List Nat) : Prop where
  heap : RedBlackHeap s.heap t
  nodes : t.toList = queue.map P.node
  once : queue.Nodup
  running : ∀ i, i ∈ queue ↔ i < s.taskNum ∧ (s.tasks i).status.eState = .running
  ordered : queue.Pairwise fun a b => schedCfsTaskCmp (s.tasks a) (s.tasks b) ≤ 0
  linked : ∀ i < s.taskNum, (s.heap.nodes (P.node i)).rbParentColor ≠ null ↔ i ∈ queue
  unlinked : ∀ i linked, Event.keyed i linked ∈ s.trace → linked = false

/-- With valid ids the queue holds every running task. -/
theorem CfsInv.running_iff (inv : CfsInv P s [] queue) (ids : IdsValid P s) (i : Nat) :
    i ∈ queue ↔ i < s.taskNum ∧ (s.tasks i).status.eState = .running := by
  rw [inv.member i]
  constructor
  · rintro ⟨lt, running, _⟩
    exact ⟨lt, running⟩
  · rintro ⟨lt, running⟩
    exact ⟨lt, running, ids i lt, by simp⟩

theorem CfsInv.cfsTree (inv : CfsInv P s [] queue) (ids : IdsValid P s) : ∃ t, CfsTree P s t queue := by
  obtain ⟨_, outside, t, n, holds, balanced, nodes, _⟩ := inv.tree
  refine ⟨t, holds.redBlackHeap balanced, nodes, inv.served.nodup, inv.running_iff ids, ?_, ?_,
    inv.unlinked⟩
  · exact inv.sorted.imp schedCfsTaskCmp_nonpos.mpr
  · intro i lt
    exact inv.tree.linked_iff (inv.lt_max lt)

/-- The states of the runs whose calls fit. -/
theorem runs_cfsInv (admits : Admits (step P) (OpFits P) ops (schedInit zeroed .cfs)) :
    ∃ s queue, runs (step P) ops (schedInit zeroed .cfs) = some s ∧ CfsInv P s [] queue ∧ IdsValid P s := by
  have progress : ∀ {op : Op T} {s : Sched T}, (∃ queue, CfsInv P s [] queue ∧ IdsValid P s) →
      OpFits P op s → ∃ s', step P op s = some s' ∧ ∃ queue, CfsInv P s' [] queue ∧ IdsValid P s' := by
    rintro op s ⟨queue, inv, ids⟩ fits
    obtain ⟨s', run⟩ := step_total inv fits
    obtain ⟨queue', inv'⟩ := step_inv inv run
    exact ⟨s', run, queue', inv', step_ids ids fits run⟩
  have noTasks : IdsValid P (schedInit zeroed .cfs : Sched T) := fun i lt => absurd lt (Nat.not_lt_zero i)
  obtain ⟨s, run, queue, inv, ids⟩ := runs_total progress ⟨[], zeroed_inv P, noTasks⟩ admits
  exact ⟨s, queue, run, inv, ids⟩

/-- Between the calls of any run the tree holds exactly the running tasks. -/
theorem cfsRuns_tree (admits : Admits (step P) (OpFits P) ops (schedInit zeroed .cfs))
    (part : done <+: ops) :
    ∃ s t queue, runs (step P) done (schedInit zeroed .cfs) = some s ∧ CfsTree P s t queue := by
  obtain ⟨rest, rfl⟩ := part
  obtain ⟨s, queue, run, inv, ids⟩ := runs_cfsInv admits.left
  obtain ⟨t, tree⟩ := inv.cfsTree ids
  exact ⟨s, t, queue, run, tree⟩

/-- A table of eight tasks, with the layout of `sched_task_t` on the host. -/
def smallPlatform : Platform .host where
  taskMax := 8
  node i := BitVec.ofNat _ (8192 + 120 * i + 96)
  containerOf p := (p.toNat - 96 - 8192) / 120
  hz2tick freq := BitVec.ofNat _ (1000000 / freq.toNat)
  containerOf_node := by decide
  node_ne_null := by decide
  node_aligned := by decide

/-- A task that runs for ever, every millisecond at a microsecond clock. -/
def everyMs (id : BitVec 64) : SchedTaskCfg .host := ⟨id, 1, 1000, 0, 0, some 4096⟩

/-- Three calls, the last of which runs a callback that adds a task. -/
def threeOps : List (Op .host) :=
  [.add (everyMs 0) 10, .add (everyMs 1) 20, .exec 30 [(everyMs 2, 40)] 50]

theorem threeOps_fit : Admits (step smallPlatform) (OpFits smallPlatform) threeOps (schedInit zeroed .cfs) := by
  obtain ⟨s₁, _, run₁, inv₁⟩ := (zeroed_inv smallPlatform).add (by decide) (by simp) (everyMs 0) 10
  have num₁ : s₁.taskNum = 1 := (add_table run₁).2.2.2.1
  obtain ⟨s₂, _, run₂, _⟩ := inv₁.add (by rw [num₁]; decide) (by simp) (everyMs 1) 20
  have num₂ : s₂.taskNum = 2 := by rw [(add_table run₂).2.2.2.1, num₁]
  have first : OpFits smallPlatform (.add (everyMs 0) 10) (schedInit zeroed .cfs) := by
    rw [OpFits]
    decide
  have second : OpFits smallPlatform (.add (everyMs 1) 20) s₁ := by
    rw [OpFits, num₁]
    decide
  have third : OpFits smallPlatform (.exec 30 [(everyMs 2, 40)] 50) s₂ := by
    rw [OpFits, num₂]
    decide
  refine .cons (t := s₁) first ?_ (.cons (t := s₂) second ?_ ⟨third, fun _ _ => trivial⟩)
  · rw [step, run₁]
    rfl
  · rw [step, run₂]
    rfl

theorem cfsRuns_tree_threeOps :
    ∃ s t queue, runs (step smallPlatform) threeOps (schedInit zeroed .cfs) = some s ∧
      CfsTree smallPlatform s t queue :=
  cfsRuns_tree threeOps_fit List.prefix_rfl

theorem began_of_leave {events : List (Event T)} {m i : Nat} (found : (events.map entryOf)[m]? = some (Entry.leave i)) :
    ∃ ts, events[m]? = some (Event.began i ts) := by
  rw [List.getElem?_map] at found
  obtain ⟨event, present, leaves⟩ := Option.map_eq_some_iff.mp found
  cases event with
  | began j ts =>
    cases leaves
    exact ⟨ts, present⟩
  | created | keyed | inserted | ended => cases leaves

/-- Over any run `sched_cfs_get_task` finds the running task that is least by
deadline, priority and the time of its insertion, and tasks inserted with equal
keys are executed in the order of their insertion. -/
theorem cfsRuns_fifo (admits : Admits (step P) (OpFits P) ops (schedInit zeroed .cfs))
    (run : runs (step P) ops (schedInit zeroed .cfs) = some s) :
    (∃ found, schedCfsGetTask P s = some found ∧
      (found = none ↔ ∀ i < s.taskNum, (s.tasks i).status.eState ≠ .running) ∧
      ∀ i, found = some i → i < s.taskNum ∧ (s.tasks i).status.eState = .running ∧
        ∀ j < s.taskNum, (s.tasks j).status.eState = .running → j ≠ i →
          (s.tasks i).key < (s.tasks j).key ∨
            ((s.tasks i).key = (s.tasks j).key ∧ s.stamp i < s.stamp j)) ∧
    ∀ {p q r : Nat} {a b : Nat} {nextExecTs : Usz T} {priority : BitVec 32} {ts : U64},
      p < q → q < r → s.trace[p]? = some (.inserted a nextExecTs priority) →
      s.trace[q]? = some (.inserted b nextExecTs priority) → s.trace[r]? = some (.began b ts) →
      (∀ m ts, q < m → m < r → s.trace[m]? ≠ some (.began b ts)) →
      ∃ m ts, p < m ∧ m < r ∧ s.trace[m]? = some (.began a ts) := by
  obtain ⟨s', queue, run', inv, ids⟩ := runs_cfsInv admits
  obtain rfl : s = s' := Option.some.inj (run.symm.trans run')
  refine ⟨⟨queue.head?, inv.get, ?_, ?_⟩, ?_⟩
  · constructor
    · intro empty i lt running
      have queued := (inv.running_iff ids i).mpr ⟨lt, running⟩
      rw [List.head?_eq_none_iff.mp empty] at queued
      cases queued
    · intro none
      cases queue with
      | nil => rfl
      | cons i rest =>
        obtain ⟨lt, running, _⟩ := (inv.member i).mp (by simp)
        exact absurd running (none i lt)
  · intro i found
    obtain ⟨rest, rfl⟩ := List.head?_eq_some_iff.mp found
    obtain ⟨lt, running, _⟩ := (inv.member i).mp (by simp)
    refine ⟨lt, running, ?_⟩
    intro j ltJ runningJ ne
    have queued := (inv.running_iff ids j).mpr ⟨ltJ, runningJ⟩
    have first := (List.pairwise_cons.mp inv.served.ordered).1 j
      ((List.mem_cons.mp queued).resolve_left ne)
    exact Prod.Lex.toLex_lt_toLex.mp first
  · intro p q r a b nextExecTs priority ts pq qr atP atQ atR between
    have image : ∀ {m : Nat} {event : Event T}, s.trace[m]? = some event →
        (s.trace.map entryOf)[m]? = some (entryOf event) := by
      intro m event found
      rw [List.getElem?_map, found]
      rfl
    have free : ∀ m, q < m → m < r → (s.trace.map entryOf)[m]? ≠ some (.leave b) := by
      intro m after before found
      obtain ⟨ts, began⟩ := began_of_leave found
      exact between m ts after before began
    obtain ⟨m, after, before, found⟩ := inv.served.fair pq qr (image atP) (image atQ) (image atR) free
    obtain ⟨ts, began⟩ := began_of_leave found
    exact ⟨m, ts, after, before, began⟩

theorem cfsRuns_fifo_threeOps :
    ∃ s, runs (step smallPlatform) threeOps (schedInit zeroed .cfs) = some s ∧
      ∃ found, schedCfsGetTask smallPlatform s = some found ∧
        (found = none ↔ ∀ i < s.taskNum, (s.tasks i).status.eState ≠ .running) := by
  obtain ⟨s, _, run, _⟩ := runs_cfsInv threeOps_fit
  obtain ⟨⟨found, get, absent, _⟩, _⟩ := cfsRuns_fifo threeOps_fit run
  exact ⟨s, run, found, get, absent⟩

end AvaModule.Scheduler
