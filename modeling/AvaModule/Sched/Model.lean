import AvaModule.Ds.RbTree.Heap

/-! The scheduler of sched/sched.h. A task is its index in `lo.tasks`; its tree
node lies at an address the platform fixes. Clock readings and what a callback
does are inputs. The model of a call fails where the source leaves the task
array or a tree function fails. `trace` and `stamp` record what the calls have
done; no step reads them. -/
namespace AvaModule.Scheduler
open RbTree

variable {T : Target}

abbrev U64 := BitVec 64

/-- The build's task table, the addresses of its `rb_node` members with the
`CONTAINER_OF` that takes them back, and `sched_hz2tick` of a frequency. -/
structure Platform (T : Target) where
  taskMax : Nat
  node : Nat → Usz T
  containerOf : Usz T → Nat
  hz2tick : Usz T → U64
  containerOf_node : ∀ i < taskMax, containerOf (node i) = i
  node_ne_null : ∀ i < taskMax, node i ≠ null
  node_aligned : ∀ i < taskMax, Aligned (node i)

inductive TaskState where
  | running
  | sleeping
  | stopped
  | dead
  deriving DecidableEq, Repr

/-- A callback is known by its address. -/
structure SchedTaskCfg (T : Target) where
  id : Usz T
  priority : BitVec 32
  execFreq : Usz T
  execCntMax : Usz T
  delayTick : Usz T
  fCb : Option (Usz T)

structure SchedTaskStatus (T : Target) where
  eState : TaskState
  execCnt : Usz T
  createTs : Usz T
  nextExecTs : Usz T

structure SchedTask (T : Target) where
  cfg : SchedTaskCfg T
  status : SchedTaskStatus T

inductive SchedType where
  | fcfs
  | cfs
  deriving DecidableEq, Repr

/-- `keyed` is a write of a task's sort key, with the test whether the task was
linked then. -/
inductive Event (T : Target) where
  | created (task : Nat) (taskCfg : SchedTaskCfg T) (ts : U64)
  | keyed (task : Nat) (linked : Bool)
  | inserted (task : Nat) (nextExecTs : Usz T) (priority : BitVec 32)
  | began (task : Nat) (ts : U64)
  | ended (task : Nat) (ts : U64)

structure Sched (T : Target) where
  eType : SchedType
  currTs : Usz T
  taskNum : Nat
  tasks : Nat → SchedTask T
  prevIdx : Nat
  heap : RbHeap T
  trace : List (Event T)
  stamp : Nat → Nat

/-- The conversion of a `u64` to `usz`. -/
def toUsz (ts : U64) : Usz T := ts.setWidth T.bits

def mEInval : Int := 1

def Sched.record (s : Sched T) (event : Event T) : Sched T :=
  { s with trace := s.trace ++ [event] }

def Sched.setTask (s : Sched T) (i : Nat) (task : SchedTask T) : Sched T :=
  { s with tasks := Function.update s.tasks i task }

section Updates
variable (s : Sched T) (i : Nat) (task : SchedTask T) (event : Event T)

@[simp] theorem setTask_self : (s.setTask i task).tasks i = task := Function.update_self _ _ _

@[simp] theorem setTask_of_ne {i j : Nat} (ne : j ≠ i) : (s.setTask i task).tasks j = s.tasks j :=
  Function.update_of_ne ne _ _

@[simp] theorem setTask_taskNum : (s.setTask i task).taskNum = s.taskNum := rfl

@[simp] theorem setTask_eType : (s.setTask i task).eType = s.eType := rfl

@[simp] theorem setTask_trace : (s.setTask i task).trace = s.trace := rfl

@[simp] theorem record_tasks : (s.record event).tasks = s.tasks := rfl

@[simp] theorem record_taskNum : (s.record event).taskNum = s.taskNum := rfl

@[simp] theorem record_eType : (s.record event).eType = s.eType := rfl

@[simp] theorem record_trace : (s.record event).trace = s.trace ++ [event] := rfl

end Updates

def schedCfsTaskCmp (a b : SchedTask T) : Int :=
  if a.status.nextExecTs < b.status.nextExecTs then -1
  else if a.status.nextExecTs > b.status.nextExecTs then 1
  else if a.cfg.priority < b.cfg.priority then -1
  else if a.cfg.priority > b.cfg.priority then 1
  else 0

variable (P : Platform T)

/-- The loop of `sched_cfs_insert_task`: the empty word to link at and its node. -/
def cfsSlot (tasks : Nat → SchedTask T) (task : SchedTask T) (rbParent : Usz T) (newRbNode : RbLink T) :
    RbM T (Usz T × RbLink T) :=
  Loop.runState (fun (rbParent, newRbNode) => do
    let curr ← readLink newRbNode
    if curr ≠ null then
      if schedCfsTaskCmp task (tasks (P.containerOf curr)) < 0 then
        return .next (curr, .child .left curr)
      else
        return .next (curr, .child .right curr)
    else
      return .done (rbParent, newRbNode)) (rbParent, newRbNode)

theorem cfsSlot_turn (tasks : Nat → SchedTask T) (task : SchedTask T) (rbParent : Usz T) (newRbNode : RbLink T) :
    cfsSlot P tasks task rbParent newRbNode = do
      let curr ← readLink newRbNode
      if curr ≠ null then
        if schedCfsTaskCmp task (tasks (P.containerOf curr)) < 0 then
          cfsSlot P tasks task curr (.child .left curr)
        else
          cfsSlot P tasks task curr (.child .right curr)
      else
        return (rbParent, newRbNode) := by
  rw [cfsSlot, Loop.runState_eq, bind_assoc]
  congr 1
  funext curr
  split
  · split <;> rfl
  · rfl

def cfsLink (tasks : Nat → SchedTask T) (i : Nat) : RbM T Unit := do
  let (rbParent, newRbNode) ← cfsSlot P tasks (tasks i) null .root
  rbLinkNode (P.node i) rbParent newRbNode
  rbInsertColor (P.node i)

def schedCfsInsertTask (s : Sched T) (i : Nat) : Option (Sched T) :=
  let task := s.tasks i
  if task.cfg.id.toNat ≥ P.taskMax then some s
  else do
    let (_, heap) ← cfsLink P s.tasks i s.heap
    return { s with
      heap := heap
      trace := s.trace ++ [.inserted i task.status.nextExecTs task.cfg.priority]
      stamp := Function.update s.stamp i s.trace.length }

/-- `task->rb_node.rb_parent_color != 0` -/
def Sched.linked (s : Sched T) (i : Nat) : Bool := (s.heap.nodes (P.node i)).rbParentColor ≠ null

def cfsUnlink (i : Nat) : RbM T Unit := do
  rbErase (P.node i)
  assign (P.node i) fun _ => ⟨0, 0, 0⟩

def schedCfsRemoveTask (s : Sched T) (i : Nat) : Option (Sched T) :=
  if s.linked P i then do
    let (_, heap) ← cfsUnlink P i s.heap
    return { s with heap := heap }
  else some s

def schedCfsGetTask (s : Sched T) : Option (Option Nat) := do
  let (rbNode, _) ← rbFirst s.heap
  return if rbNode = null then none else some (P.containerOf rbNode)

/-- The index `sched_fcfs_get_task` stops at. -/
def fcfsIdx (s : Sched T) : Option Nat :=
  ((List.range s.taskNum).map fun i => (s.prevIdx + i) % s.taskNum).find? fun idx =>
    (s.tasks idx).status.eState = .running

/-- `lo->f_get_task`, as `sched_init` has set it. -/
def fGetTask (s : Sched T) : Option (Sched T × Option Nat) :=
  match s.eType with
  | .fcfs =>
      match fcfsIdx s with
      | none => some (s, none)
      | some idx => some ({ s with prevIdx := idx + 1 }, some idx)
  | .cfs => (schedCfsGetTask P s).map fun task => (s, task)

def schedAddTask (s : Sched T) (taskCfg : SchedTaskCfg T) (ts : U64) : Option (Sched T × Int) :=
  if s.taskNum < P.taskMax then
    let i := s.taskNum
    let createTs := toUsz ts
    let s : Sched T := s.setTask i ⟨taskCfg, { (s.tasks i).status with
      eState := .running, createTs := createTs, nextExecTs := createTs + taskCfg.delayTick }⟩
    let s : Sched T := { s.record (.created i taskCfg ts) with taskNum := i + 1 }
    let s : Sched T := s.record (.keyed i (s.linked P i))
    if s.eType = .cfs then (schedCfsInsertTask P s i).map (·, 0) else some (s, 0)
  else none

/-- A callback's calls of `sched_add_task`, each with the reading it takes. -/
def schedAddTasks : List (SchedTaskCfg T × U64) → Sched T → Option (Sched T)
  | [], s => some s
  | (taskCfg, ts) :: script, s => do
      let (s, _) ← schedAddTask P s taskCfg ts
      schedAddTasks script s

/-- `sched_exec` after the callback has returned. -/
def execFinish (s : Sched T) (i : Nat) (endTs : U64) : Option (Sched T) :=
  let task := s.tasks i
  let execCnt := task.status.execCnt + 1
  let s : Sched T := s.record (.ended i endTs)
  if task.cfg.execCntMax = 0 ∨ execCnt < task.cfg.execCntMax then
    let nextExecTs := toUsz (endTs + P.hz2tick task.cfg.execFreq)
    let s : Sched T := s.setTask i
      { task with status := { task.status with execCnt := execCnt, nextExecTs := nextExecTs } }
    let s : Sched T := s.record (.keyed i (s.linked P i))
    if s.eType = .cfs then schedCfsInsertTask P s i else some s
  else
    some (s.setTask i { task with status := { task.status with execCnt := execCnt, eState := .dead } })

/-- `sched_exec` from the removal of the task on. -/
def execCall (s : Sched T) (i : Nat) (now : U64) (script : List (SchedTaskCfg T × U64)) (endTs : U64) :
    Option (Sched T) := do
  let s ← (if s.eType = .cfs then schedCfsRemoveTask P s i else some s : Option (Sched T))
  let s ← schedAddTasks P script (s.record (.began i now))
  execFinish P s i endTs

/-- `now` and `endTs` are the two readings of the call, `script` the calls its
callback makes if one is run. -/
def schedExec (s : Sched T) (now : U64) (script : List (SchedTaskCfg T × U64)) (endTs : U64) :
    Option (Sched T × Int) := do
  let s : Sched T := { s with currTs := toUsz now }
  let (s, task) ← fGetTask P s
  match task with
  | none => some (s, -mEInval)
  | some i =>
      let task := s.tasks i
      if task.cfg.fCb = none then some (s, -mEInval)
      else if s.currTs - task.status.createTs < task.cfg.delayTick then some (s, 0)
      else if s.currTs < task.status.nextExecTs then some (s, 0)
      else (execCall P s i now script endTs).map (·, 0)

/-- A zeroed scheduler; `SCHED_TASK_STATE_RUNNING` is zero. -/
def zeroed : Sched T where
  eType := .fcfs
  currTs := 0
  taskNum := 0
  tasks _ := ⟨⟨0, 0, 0, 0, 0, none⟩, ⟨.running, 0, 0, 0⟩⟩
  prevIdx := 0
  heap := ⟨fun _ => ⟨0, 0, 0⟩, null⟩
  trace := []
  stamp _ := 0

/-- `sched_init` of a scheduler of one of the two types. -/
def schedInit (s : Sched T) (eType : SchedType) : Sched T := { s with eType := eType }

/-- An outermost call. -/
inductive Op (T : Target) where
  | add (taskCfg : SchedTaskCfg T) (ts : U64)
  | exec (now : U64) (script : List (SchedTaskCfg T × U64)) (endTs : U64)

def step (op : Op T) (s : Sched T) : Option (Sched T) :=
  match op with
  | .add taskCfg ts => (schedAddTask P s taskCfg ts).map Prod.fst
  | .exec now script endTs => (schedExec P s now script endTs).map Prod.fst

end AvaModule.Scheduler
