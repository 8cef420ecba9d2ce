import AvaModule.Sched.Lifetime

/-! What `sched_add_task` accepts. It does not compare `task_num` with the size of
the table, and its result is always zero: a task beyond the table is written
outside it, and under CFS one whose id `sched_cfs_insert_task` refuses stays
counted but is never linked. -/
namespace AvaModule.Scheduler
open RbTree Transition

variable {T : Target} {P : Platform T} {s s' : Sched T} {ty : SchedType} {i : Nat}
variable {taskCfg : SchedTaskCfg T} {ts : U64}

/-- Task `i` can be selected: it is running and, under CFS, linked in the tree. -/
def Eligible (P : Platform T) (s : Sched T) (i : Nat) : Prop :=
  i < s.taskNum ∧ (s.tasks i).status.eState = .running ∧ (s.eType = .cfs → InTree s.heap (P.node i))

/-- The call writes inside the table, and either returns zero with the new task
eligible or returns an error with the scheduler unchanged. -/
def AddKept (P : Platform T) (call : SchedTaskCfg T × U64) (s : Sched T) : Prop :=
  ∃ s' ret, schedAddTask P s call.1 call.2 = some (s', ret) ∧ s'.taskNum ≤ P.taskMax ∧
    (ret = 0 → Eligible P s' s.taskNum) ∧ (ret ≠ 0 → s' = s)

def addStep (P : Platform T) (call : SchedTaskCfg T × U64) (s : Sched T) : Option (Sched T) :=
  (schedAddTask P s call.1 call.2).map Prod.fst

section Calls

theorem HeapQueue.inTree_iff {h : RbHeap T} {queue : List Nat} (q : HeapQueue P h queue) (hi : i < P.taskMax) :
    InTree h (P.node i) ↔ i ∈ queue := by
  obtain ⟨within, outside, t, n, holds, _, seq, _⟩ := q
  rw [holds.inTree_iff, seq, node_mem within hi]

theorem Sound.added (sound : Sound P s) (room : s.taskNum < P.taskMax) (taskCfg : SchedTaskCfg T) (ts : U64) :
    ∃ s', schedAddTask P s taskCfg ts = some (s', 0) ∧ Sound P s' := by
  have run : ∃ s', schedAddTask P s taskCfg ts = some (s', 0) := by
    by_cases cfs : s.eType = .cfs
    · obtain ⟨queue, inv⟩ := sound.tree cfs
      obtain ⟨s', _, run, _⟩ := inv.add room (by simp) taskCfg ts
      exact ⟨s', run⟩
    · rw [schedAddTask, if_pos room]
      exact ⟨_, if_neg cfs⟩
  obtain ⟨s', run⟩ := run
  have step : step P (.add taskCfg ts) s = some s' := by
    rw [step, run]
    rfl
  refine ⟨s', run, step_room sound.room step, fun cfs => ?_⟩
  obtain ⟨queue, inv⟩ := sound.tree ((step_eType step).symm.trans cfs)
  exact step_inv inv step

/-- A call is as it should be exactly if the table has room and, under CFS, the id
is below its size. -/
theorem addKept_iff (sound : Sound P s) :
    AddKept P (taskCfg, ts) s ↔
      s.taskNum < P.taskMax ∧ (s.eType = .cfs → taskCfg.id.toNat < P.taskMax) := by
  constructor
  · rintro ⟨s', ret, run, _, accepted, _⟩
    obtain ⟨room, rfl, eType, num, tasks, _⟩ := add_table run
    refine ⟨room, fun cfs => ?_⟩
    obtain ⟨t, run', sound'⟩ := sound.added room taskCfg ts
    cases run.symm.trans run'
    obtain ⟨queue, inv⟩ := sound'.tree (eType.trans cfs)
    have queued := (inv.tree.inTree_iff room).mp ((accepted rfl).2.2 (eType.trans cfs))
    have valid := ((inv.member _).mp queued).2.2.1
    rw [tasks, Function.update_self] at valid
    exact valid
  · rintro ⟨room, valid⟩
    obtain ⟨s', run, sound'⟩ := sound.added room taskCfg ts
    obtain ⟨_, _, eType, num, tasks, _⟩ := add_table run
    have running : (s'.tasks s.taskNum).status.eState = .running := by
      rw [tasks, Function.update_self]
      rfl
    have counted : s.taskNum < s'.taskNum := num ▸ Nat.lt_succ_self _
    refine ⟨s', 0, run, sound'.room, fun _ => ⟨counted, running, fun cfs => ?_⟩, fun error => absurd rfl error⟩
    obtain ⟨queue, inv⟩ := sound'.tree cfs
    refine (inv.tree.inTree_iff room).mpr ((inv.member _).mpr ⟨counted, running, ?_, by simp⟩)
    rw [tasks, Function.update_self]
    exact valid (eType ▸ cfs)

theorem adds_iff (sound : Sound P s) (calls : List (SchedTaskCfg T × U64)) :
    Admits (addStep P) (AddKept P) calls s ↔
      s.taskNum + calls.length ≤ P.taskMax ∧ (s.eType = .cfs → ∀ call ∈ calls, call.1.id.toNat < P.taskMax) := by
  induction calls generalizing s with
  | nil =>
    constructor
    · intro _
      exact ⟨sound.room, by simp⟩
    · intro _
      trivial
  | cons call calls ih =>
    obtain ⟨taskCfg, ts⟩ := call
    rw [Admits, addKept_iff sound, List.length_cons]
    constructor
    · rintro ⟨⟨room, valid⟩, later⟩
      obtain ⟨s', run, sound'⟩ := sound.added room taskCfg ts
      obtain ⟨_, _, eType, num, _⟩ := add_table run
      obtain ⟨rooms, valids⟩ := (ih sound').mp (later s' (by rw [addStep, run]; rfl))
      refine ⟨by omega, fun cfs => List.forall_mem_cons.mpr ⟨valid cfs, valids (eType.trans cfs)⟩⟩
    · rintro ⟨rooms, valids⟩
      refine ⟨⟨by omega, fun cfs => (List.forall_mem_cons.mp (valids cfs)).1⟩, fun s' step => ?_⟩
      obtain ⟨⟨_, ret⟩, run, rfl⟩ := Option.map_eq_some_iff.mp step
      obtain ⟨room, _, eType, num, _⟩ := add_table run
      obtain ⟨t, run', sound'⟩ := sound.added room taskCfg ts
      cases run.symm.trans run'
      exact (ih sound').mpr ⟨by omega, fun cfs => (List.forall_mem_cons.mp (valids (eType ▸ cfs))).2⟩

end Calls

/-- Every call of a sequence stays inside the table, makes its task eligible when
it returns zero and otherwise changes nothing, exactly if there are no more calls
than slots and, under CFS, every id is below the number of slots. -/
theorem adds_eligible_iff (P : Platform T) (ty : SchedType) (calls : List (SchedTaskCfg T × U64)) :
    Admits (addStep P) (AddKept P) calls (schedInit zeroed ty) ↔
      calls.length ≤ P.taskMax ∧ (ty = .cfs → ∀ call ∈ calls, call.1.id.toNat < P.taskMax) := by
  rw [adds_iff (zeroed_sound P ty)]
  have start : (schedInit zeroed ty : Sched T).taskNum + calls.length = calls.length := Nat.zero_add _
  rw [start]
  rfl

/-- Under CFS a task with id 8 is counted and running in a table of eight, with
result zero, but it is not in the tree. -/
theorem invalid_id_accepted :
    ¬∀ (ty : SchedType) (calls : List (SchedTaskCfg .host × U64)),
      Admits (addStep smallPlatform) (AddKept smallPlatform) calls (schedInit zeroed ty) := by
  intro kept
  have first := (kept .cfs [(everyMs 8, 10)]).1
  have valid := ((addKept_iff (zeroed_sound smallPlatform .cfs)).mp first).2 rfl
  exact absurd valid (by decide)

end AvaModule.Scheduler
