import AvaModule.Lib.RoundRobin
import AvaModule.Lib.Transition
import AvaModule.Sched.Runs

/-! Fairness under `SCHED_TYPE_FCFS`. Selections alternate in any order with
additions, which make the table grow, and with tasks becoming dead. The scan
goes on behind the last selected task. -/
namespace AvaModule.Scheduler
open RoundRobin Transition

variable {T : Target} {P : Platform T} {s s' : Sched T} {i j : Nat}

inductive FcfsAct (T : Target) where
  | getTask
  | addTask (taskCfg : SchedTaskCfg T) (ts : U64)
  | die (i : Nat)

/-- What `sched_exec` leaves of a task whose last execution is over. -/
def Sched.die (s : Sched T) (i : Nat) : Sched T :=
  s.setTask i { s.tasks i with status := { (s.tasks i).status with eState := .dead } }

/-- One act, with the results of the selections so far. -/
def fcfsStep (P : Platform T) (act : FcfsAct T) (st : Sched T × List (Option Nat)) :
    Option (Sched T × List (Option Nat)) :=
  match act with
  | .getTask => (fGetTask P st.1).map fun (s, found) => (s, st.2 ++ [found])
  | .addTask taskCfg ts => (schedAddTask P st.1 taskCfg ts).map fun (s, _) => (s, st.2)
  | .die i => some (st.1.die i, st.2)

/-- The state after a list of acts and the results of its selections. -/
def fcfsRun (P : Platform T) (acts : List (FcfsAct T)) (s : Sched T) :
    Option (Sched T × List (Option Nat)) :=
  runs (fcfsStep P) acts (s, [])

def Sched.isRunning (s : Sched T) (i : Nat) : Prop :=
  i < s.taskNum ∧ (s.tasks i).status.eState = .running

/-- `j` is running before, between and after the acts. -/
def RunningThroughout (P : Platform T) (acts : List (FcfsAct T)) (s : Sched T) (j : Nat) : Prop :=
  ∀ part s' seen, part <+: acts → fcfsRun P part s = some (s', seen) → s'.isRunning j

section Steps

theorem fcfsIdx_eq_scan (s : Sched T) :
    fcfsIdx s = scan s.taskNum s.prevIdx fun idx => (s.tasks idx).status.eState = .running := rfl

theorem add_prevIdx {taskCfg : SchedTaskCfg T} {ts : U64} {ret : Int} (fcfs : s.eType = .fcfs)
    (run : schedAddTask P s taskCfg ts = some (s', ret)) : s'.prevIdx = s.prevIdx := by
  unfold schedAddTask at run
  split at run
  · dsimp only at run
    split at run
    · next cfs =>
      rw [record_eType] at cfs
      exact absurd (cfs.symm.trans fcfs) (by decide)
    · cases run
      rfl
  · cases run

/-- A selection under FCFS is one scan. -/
theorem fcfs_select (fcfs : s.eType = .fcfs) :
    (∃ b, scan s.taskNum s.prevIdx (fun idx => (s.tasks idx).status.eState = .running) = some b ∧
        fGetTask P s = some ({ s with prevIdx := b + 1 }, some b)) ∨
      (scan s.taskNum s.prevIdx (fun idx => (s.tasks idx).status.eState = .running) = none ∧
        fGetTask P s = some (s, none)) := by
  rw [← fcfsIdx_eq_scan]
  unfold fGetTask
  rw [fcfs]
  cases scan : fcfsIdx s with
  | none => exact Or.inr ⟨rfl, rfl⟩
  | some b => exact Or.inl ⟨b, rfl, rfl⟩

/-- A task of the table that runs after an act has run before it. -/
theorem fcfsStep_running {act : FcfsAct T} {st st' : Sched T × List (Option Nat)}
    (run : fcfsStep P act st = some st') (lt : i < st.1.taskNum) (running : st'.1.isRunning i) :
    st.1.isRunning i := by
  refine ⟨lt, ?_⟩
  cases act with
  | getTask =>
    obtain ⟨⟨s', found⟩, select, rfl⟩ := Option.map_eq_some_iff.mp run
    rw [← (select_table select).1.tasks]
    exact running.2
  | addTask taskCfg ts =>
    obtain ⟨⟨s', ret⟩, added, rfl⟩ := Option.map_eq_some_iff.mp run
    obtain ⟨_, _, _, _, tasks, _⟩ := add_table added
    have same := running.2
    rw [tasks, Function.update_of_ne (Nat.ne_of_lt lt)] at same
    exact same
  | die k =>
    obtain rfl := Option.some.inj run
    by_cases self : i = k
    · subst self
      have dead := running.2
      rw [Sched.die, setTask_self] at dead
      cases dead
    · have same := running.2
      rw [Sched.die, setTask_of_ne _ _ self] at same
      exact same

/-- What every act keeps: the type, and that the scan starts within the table. -/
theorem fcfsStep_bound {act : FcfsAct T} {st st' : Sched T × List (Option Nat)}
    (run : fcfsStep P act st = some st') (fcfs : st.1.eType = .fcfs) (bound : st.1.prevIdx ≤ st.1.taskNum) :
    st'.1.eType = .fcfs ∧ st'.1.prevIdx ≤ st'.1.taskNum ∧ st.1.taskNum ≤ st'.1.taskNum := by
  cases act with
  | getTask =>
    rcases fcfs_select (P := P) fcfs with ⟨b, found, select⟩ | ⟨_, select⟩
    · rw [fcfsStep, select] at run
      cases run
      exact ⟨fcfs, (scan_some found).1, le_rfl⟩
    · rw [fcfsStep, select] at run
      cases run
      exact ⟨fcfs, bound, le_rfl⟩
  | addTask taskCfg ts =>
    obtain ⟨⟨s', ret⟩, added, rfl⟩ := Option.map_eq_some_iff.mp run
    have prev := add_prevIdx fcfs added
    obtain ⟨_, _, eType, num, _⟩ := add_table added
    refine ⟨eType.trans fcfs, ?_, ?_⟩ <;> dsimp only <;> omega
  | die k =>
    obtain rfl := Option.some.inj run
    exact ⟨fcfs, bound, le_rfl⟩

/-- An act adds to the results only what it selects, and only that moves the scan. -/
theorem fcfsStep_seen {act : FcfsAct T} {st st' : Sched T × List (Option Nat)}
    (run : fcfsStep P act st = some st') (fcfs : st.1.eType = .fcfs) :
    (∃ b, scan st.1.taskNum st.1.prevIdx (fun idx => (st.1.tasks idx).status.eState = .running) = some b ∧
        st'.2 = st.2 ++ [some b] ∧ st'.1.prevIdx = b + 1) ∨
      (st'.1.prevIdx = st.1.prevIdx ∧ (st'.2 = st.2 ∨ st'.2 = st.2 ++ [none])) := by
  cases act with
  | getTask =>
    rcases fcfs_select (P := P) fcfs with ⟨b, found, select⟩ | ⟨_, select⟩
    · rw [fcfsStep, select] at run
      cases run
      exact Or.inl ⟨b, found, rfl, rfl⟩
    · rw [fcfsStep, select] at run
      cases run
      exact Or.inr ⟨rfl, Or.inr rfl⟩
  | addTask taskCfg ts =>
    obtain ⟨⟨s', ret⟩, added, rfl⟩ := Option.map_eq_some_iff.mp run
    exact Or.inr ⟨add_prevIdx fcfs added, Or.inl rfl⟩
  | die k =>
    obtain rfl := Option.some.inj run
    exact Or.inr ⟨rfl, Or.inl rfl⟩

end Steps

section Runs
variable {act : FcfsAct T} {acts : List (FcfsAct T)} {s₁ s₂ : Sched T} {seen : List (Option Nat)}

theorem fcfsStep_from (act : FcfsAct T) (s : Sched T) (seen : List (Option Nat)) :
    fcfsStep P act (s, seen) = (fcfsStep P act (s, [])).map fun st => (st.1, seen ++ st.2) := by
  cases act with
  | getTask =>
    cases select : fGetTask P s <;> simp [fcfsStep, select]
  | addTask taskCfg ts =>
    cases added : schedAddTask P s taskCfg ts <;> simp [fcfsStep, added]
  | die i => simp [fcfsStep]

theorem fcfsRun_from (acts : List (FcfsAct T)) (s : Sched T) (seen : List (Option Nat)) :
    runs (fcfsStep P) acts (s, seen) = (fcfsRun P acts s).map fun st => (st.1, seen ++ st.2) := by
  induction acts generalizing s seen with
  | nil => simp [fcfsRun, runs]
  | cons act acts ih =>
    rw [fcfsRun, runs, runs, fcfsStep_from act s seen]
    cases fcfsStep P act (s, []) with
    | none => rfl
    | some st =>
      rw [Option.map_some, Option.bind_some, Option.bind_some, ih, ih st.1 st.2, Option.map_map]
      simp [Function.comp_def]

theorem fcfsRun_cons : fcfsRun P (act :: acts) s = some (s₂, seen) ↔
    ∃ s₁ first rest, fcfsStep P act (s, []) = some (s₁, first) ∧
      fcfsRun P acts s₁ = some (s₂, rest) ∧ seen = first ++ rest := by
  rw [fcfsRun, runs, Option.bind_eq_some_iff]
  constructor
  · rintro ⟨⟨s₁, first⟩, step, later⟩
    rw [fcfsRun_from] at later
    obtain ⟨⟨_, rest⟩, run, same⟩ := Option.map_eq_some_iff.mp later
    cases same
    exact ⟨s₁, first, rest, step, run, rfl⟩
  · rintro ⟨s₁, first, rest, step, run, rfl⟩
    refine ⟨_, step, ?_⟩
    rw [fcfsRun_from, run]
    rfl

theorem RunningThroughout.head (throughout : RunningThroughout P acts s j) : s.isRunning j :=
  throughout [] s [] List.nil_prefix rfl

theorem RunningThroughout.tail {first : List (Option Nat)} (throughout : RunningThroughout P (act :: acts) s j)
    (step : fcfsStep P act (s, []) = some (s₁, first)) : RunningThroughout P acts s₁ j := by
  intro part s' seen segment run
  exact throughout (act :: part) s' _ (List.cons_prefix_cons.mpr ⟨rfl, segment⟩)
    (fcfsRun_cons.mpr ⟨s₁, first, seen, step, run, rfl⟩)

theorem fcfsRun_bound (run : fcfsRun P acts s = some (s₂, seen)) (fcfs : s.eType = .fcfs)
    (bound : s.prevIdx ≤ s.taskNum) : s₂.eType = .fcfs ∧ s₂.prevIdx ≤ s₂.taskNum := by
  refine runs_preserve (P := fun st => st.1.eType = .fcfs ∧ st.1.prevIdx ≤ st.1.taskNum)
    (fun ⟨fcfs, bound⟩ step => ?_) ⟨fcfs, bound⟩ run
  obtain ⟨fcfs', bound', _⟩ := fcfsStep_bound step fcfs bound
  exact ⟨fcfs', bound'⟩

theorem fcfsRun_running (run : fcfsRun P acts s = some (s₂, seen)) (fcfs : s.eType = .fcfs)
    (bound : s.prevIdx ≤ s.taskNum) (lt : i < s.taskNum) (running : s₂.isRunning i) : s.isRunning i := by
  induction acts generalizing s seen with
  | nil =>
    cases run
    exact running
  | cons act acts ih =>
    obtain ⟨s₁, first, rest, step, later, _⟩ := fcfsRun_cons.mp run
    obtain ⟨fcfs₁, bound₁, grown⟩ := fcfsStep_bound step fcfs bound
    exact fcfsStep_running step lt (ih later fcfs₁ bound₁ (lt.trans_le grown))

/-- Without a selection the scan stays where it is. -/
theorem fcfsRun_silent (run : fcfsRun P acts s = some (s₂, seen)) (fcfs : s.eType = .fcfs)
    (bound : s.prevIdx ≤ s.taskNum) (silent : ∀ found ∈ seen, found = none) : s₂.prevIdx = s.prevIdx := by
  induction acts generalizing s seen with
  | nil =>
    cases run
    rfl
  | cons act acts ih =>
    obtain ⟨s₁, first, rest, step, later, rfl⟩ := fcfsRun_cons.mp run
    obtain ⟨fcfs₁, bound₁, _⟩ := fcfsStep_bound step fcfs bound
    rw [ih later fcfs₁ bound₁ fun found inside => silent found (by simp [inside])]
    rcases fcfsStep_seen step fcfs with ⟨b, _, now, _⟩ | ⟨kept, _⟩
    · exact absurd (silent (some b) (by simp [show first = [some b] from now])) nofun
    · exact kept

/-- While `i` is not selected, the places between it and the scan are those of
the other running tasks that have been selected, each once. -/
theorem fcfsRun_arc (run : fcfsRun P acts s = some (s₂, seen)) (fcfs : s.eType = .fcfs)
    (bound : s.prevIdx ≤ s.taskNum) (lt : i < s.taskNum) (running : s₂.isRunning i)
    (apart : some i ∉ seen) (other : j ≠ i) (throughout : RunningThroughout P acts s j) :
    (if Arc (i + 1) s.prevIdx j then 1 else 0) + seen.count (some j) =
      if Arc (i + 1) s₂.prevIdx j then 1 else 0 := by
  induction acts generalizing s seen with
  | nil =>
    cases run
    rfl
  | cons act acts ih =>
    have here := fcfsRun_running run fcfs bound lt running
    obtain ⟨s₁, first, rest, step, later, rfl⟩ := fcfsRun_cons.mp run
    obtain ⟨fcfs₁, bound₁, grown⟩ := fcfsStep_bound step fcfs bound
    rw [List.mem_append, not_or] at apart
    have last := ih later fcfs₁ bound₁ (lt.trans_le grown) apart.2 (throughout.tail step)
    rw [List.count_append, ← last, ← Nat.add_assoc]
    congr 1
    obtain ⟨ltJ, runningJ⟩ := throughout.head
    rcases fcfsStep_seen step fcfs with ⟨b, found, now, moved⟩ | ⟨kept, now | now⟩
    · have ne : b ≠ i := by
        rintro rfl
        exact apart.1 (by simp [show first = [some b] from now])
      obtain ⟨grows, once⟩ := arc_next bound found ne lt (decide_eq_true here.2) ltJ
        (decide_eq_true runningJ) other
      rw [show first = [some b] from now, moved, List.count_singleton]
      by_cases passed : Arc (i + 1) s.prevIdx j
      · have differ : b ≠ j := fun same => once ⟨passed, same⟩
        rw [if_pos passed, if_pos (grows.mpr (Or.inl passed))]
        simp [differ]
      · by_cases same : b = j
        · rw [if_neg passed, if_pos (grows.mpr (Or.inr same)), same]
          simp
        · rw [if_neg passed, if_neg fun after => (grows.mp after).elim passed same]
          simp [same]
    · rw [show first = [] from now, kept]
      rfl
    · rw [show first = [none] from now, kept]
      rfl

end Runs

/-- From every state of an FCFS scheduler: a selection finds nothing exactly if no
task is running; the selection that follows one of `a` passes over no running
task in cyclic order; and until `a` is selected again every other task that is
running throughout is selected exactly once. -/
theorem fcfs_roundRobin (fcfs : s.eType = .fcfs) :
    (∃ s' found, fGetTask P s = some (s', found) ∧ (found = none ↔ ∀ c, ¬s.isRunning c)) ∧
    ∀ {a : Nat} {s₁ : Sched T}, fGetTask P s = some (s₁, some a) →
      (∀ {gap : List (FcfsAct T)} {s₂ s₃ : Sched T} {seen : List (Option Nat)} {b : Nat},
        fcfsRun P gap s₁ = some (s₂, seen) → (∀ found ∈ seen, found = none) →
        fGetTask P s₂ = some (s₃, some b) →
          s₂.isRunning b ∧ ∀ c, s₂.isRunning c → ¬Arc (a + 1) b c) ∧
      ∀ {mid : List (FcfsAct T)} {s₂ s₃ : Sched T} {seen : List (Option Nat)},
        fcfsRun P mid s₁ = some (s₂, seen) → some a ∉ seen → fGetTask P s₂ = some (s₃, some a) →
          ∀ j ≠ a, RunningThroughout P mid s₁ j → seen.count (some j) = 1 := by
  refine ⟨?_, fun {a s₁} first => ?_⟩
  · rcases fcfs_select (P := P) fcfs with ⟨b, found, select⟩ | ⟨absent, select⟩
    · refine ⟨_, _, select, ?_⟩
      obtain ⟨lt, running⟩ := scan_some found
      constructor
      · intro absurd
        cases absurd
      · intro idle
        exact absurd ⟨lt, of_decide_eq_true running⟩ (idle b)
    · refine ⟨_, _, select, fun _ c running => ?_, fun _ => rfl⟩
      have idle := scan_eq_none.mp absent c running.1
      exact of_decide_eq_false idle running.2
  · obtain ⟨within, fcfs₁, scanAt⟩ : a < s.taskNum ∧ s₁.eType = .fcfs ∧ s₁.prevIdx = a + 1 := by
      rcases fcfs_select (P := P) fcfs with ⟨b, found, select⟩ | ⟨_, select⟩
      · cases first.symm.trans select
        exact ⟨(scan_some found).1, fcfs, rfl⟩
      · cases first.symm.trans select
    have num : s₁.taskNum = s.taskNum := (select_table first).1.taskNum
    have bound₁ : s₁.prevIdx ≤ s₁.taskNum := by omega
    constructor
    · intro gap s₂ s₃ seen b run silent next
      obtain ⟨fcfs₂, bound₂⟩ := fcfsRun_bound run fcfs₁ bound₁
      have still := fcfsRun_silent run fcfs₁ bound₁ silent
      rcases fcfs_select (P := P) fcfs₂ with ⟨b', found, select⟩ | ⟨_, select⟩
      · cases next.symm.trans select
        obtain ⟨lt, running⟩ := scan_some found
        refine ⟨⟨lt, of_decide_eq_true running⟩, fun c live => ?_⟩
        rw [← scanAt, ← still]
        exact scan_first bound₂ found live.1 (decide_eq_true live.2)
      · cases next.symm.trans select
    · intro mid s₂ s₃ seen run apart again j other throughout
      obtain ⟨fcfs₂, bound₂⟩ := fcfsRun_bound run fcfs₁ bound₁
      rcases fcfs_select (P := P) fcfs₂ with ⟨b, found, select⟩ | ⟨_, select⟩
      · cases again.symm.trans select
        obtain ⟨lt, running⟩ := scan_some found
        have counted := fcfsRun_arc run fcfs₁ bound₁ (num ▸ within) ⟨lt, of_decide_eq_true running⟩
          apart other throughout
        have last := throughout mid s₂ seen List.prefix_rfl run
        have passed := arc_back bound₂ found last.1 (decide_eq_true last.2) other
        have fresh : ¬Arc (a + 1) s₁.prevIdx j := by
          rw [scanAt, Arc, if_pos le_rfl]
          omega
        rw [if_neg fresh, if_pos passed, Nat.zero_add] at counted
        exact counted
      · cases again.symm.trans select

/-- Two running tasks, and where the scan goes on. -/
def twoTasks (prevIdx : Nat) : Sched .host := { zeroed with taskNum := 2, prevIdx := prevIdx }

/-- Two running tasks take turns. -/
theorem fcfs_roundRobin_two :
    ∃ s₂ s₃ seen, fcfsRun smallPlatform [.getTask] (twoTasks 1) = some (s₂, seen) ∧
      fGetTask smallPlatform s₂ = some (s₃, some 0) ∧ seen.count (some 1) = 1 := by
  have throughout : RunningThroughout smallPlatform [.getTask] (twoTasks 1) 1 := by
    intro part s' seen segment run
    rcases List.prefix_cons_iff.mp segment with rfl | ⟨rest, rfl, empty⟩
    · cases run
      exact ⟨by decide, rfl⟩
    · obtain rfl := List.prefix_nil.mp empty
      cases run
      exact ⟨by decide, rfl⟩
  have first : fGetTask smallPlatform (twoTasks 0) = some (twoTasks 1, some 0) := rfl
  have again : fGetTask smallPlatform (twoTasks 2) = some (twoTasks 1, some 0) := rfl
  have run : fcfsRun smallPlatform [.getTask] (twoTasks 1) = some (twoTasks 2, [some 1]) := rfl
  exact ⟨_, _, _, run, again,
    ((fcfs_roundRobin rfl).2 first).2 run (by decide) again 1 (by decide) throughout⟩

end AvaModule.Scheduler
