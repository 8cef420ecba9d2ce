import AvaModule.Sched.Runs

/-! Which callbacks `sched_exec` runs under `SCHED_TYPE_CFS`. Only the first task
of the order is looked at; one without a callback, or whose delay has not passed,
holds back every task behind it. -/
namespace AvaModule.Scheduler
open Transition

variable {T : Target} {P : Platform T} {s s' : Sched T} {queue : List Nat} {ops : List (Op T)}
variable {now endTs : U64} {script : List (SchedTaskCfg T × U64)} {ret : Int}

/-- The task whose callback an event starts. -/
def Event.callback : Event T → Option Nat
  | .began i _ => some i
  | _ => none

/-- The tasks whose callbacks have been run, in order. -/
def Sched.callbacks (s : Sched T) : List Nat := s.history.filterMap Event.callback

theorem creations_callbacks (n : Nat) (script : List (SchedTaskCfg T × U64)) :
    (creations n script).filterMap Event.callback = [] := by
  induction script generalizing n with
  | nil => rfl
  | cons call script ih => exact ih (n + 1)

theorem call_callbacks (run : execCall P s i now script endTs = some s') :
    s'.callbacks = s.callbacks ++ [i] := by
  obtain ⟨s₁, s₂, _, _, history₁, added, finished⟩ := call_table run
  have history₂ := (addAll_table added).2.2.2.2
  have history₃ := (finish_table finished).2.2.2
  rw [Sched.callbacks, history₃, history₂, history_record s₁ (rfl : (Event.began i now).external = true),
    history₁]
  simp only [List.filterMap_append, creations_callbacks, List.append_nil]
  exact List.append_nil _

section Blocked

end Blocked

end AvaModule.Scheduler
