import Mathlib.Algebra.Order.Floor.Semiring
import Mathlib.Algebra.Order.Field.Basic
import Mathlib.Tactic.Linarith
import Mathlib.Tactic.FieldSimp

/-! A ramp that climbs to a limit by equal increments, is held there for a number of
steps and then fires and starts again. -/
namespace RampHold
variable {α : Type*} [Field α] [LinearOrder α] {limit inc : α} {holdMax k : ℕ}

structure State (α : Type*) where
  travel : α
  hold : ℕ

/-- The state after a step, or `none` if the step fires. -/
def step (limit inc : α) (holdMax : ℕ) (s : State α) : Option (State α) :=
  if limit ≤ s.travel then
    if holdMax ≤ s.hold + 1 then none else some ⟨limit, s.hold + 1⟩
  else if s.hold = 0 then some ⟨s.travel + inc, 0⟩ else some s

section Period
variable [FloorSemiring α]

/-- The steps up to the limit. -/
def climb (limit inc : α) : ℕ := ⌈limit / inc⌉₊

/-- The steps from one start to the next. -/
def period (limit inc : α) (holdMax : ℕ) : ℕ := climb limit inc + max 1 holdMax

/-- The state after `k` steps that did not fire. -/
def position (limit inc : α) (k : ℕ) : State α :=
  if k ≤ climb limit inc then ⟨k * inc, 0⟩ else ⟨limit, k - climb limit inc⟩

theorem position_zero : position limit inc 0 = ⟨0, 0⟩ := by
  simp [position]

theorem period_pos : 0 < period limit inc holdMax := Nat.add_pos_right _ (Nat.lt_of_lt_of_le Nat.one_pos (le_max_left 1 _))

theorem position_hold (lt : k < period limit inc holdMax) : (position limit inc k).hold < max 1 holdMax := by
  unfold period at lt
  unfold position
  split
  · exact Nat.lt_of_lt_of_le Nat.one_pos (le_max_left 1 _)
  · exact Nat.sub_lt_left_of_lt_add (by omega) lt

end Period

variable [IsStrictOrderedRing α]

/-- A ramp that does not climb never fires. -/
theorem step_stuck (holdMax : ℕ) (stuck : inc ≤ 0) {s : State α} (below : s.travel < limit) (free : s.hold = 0) :
    ∃ t, step limit inc holdMax s = some t ∧ t.travel < limit ∧ t.hold = 0 := by
  refine ⟨⟨s.travel + inc, 0⟩, ?_, ?_, rfl⟩
  · rw [step, if_neg (not_le.mpr below), if_pos free]
  · exact lt_of_le_of_lt (add_le_of_nonpos_right stuck) below

section Climb
variable [FloorSemiring α]

theorem climb_lt (pos : 0 < inc) (lt : k < climb limit inc) : k * inc < limit :=
  (lt_div_iff₀ pos).mp (Nat.lt_ceil.mp lt)

theorem climb_ge (pos : 0 < inc) : limit ≤ climb limit inc * inc :=
  (div_le_iff₀ pos).mp (Nat.le_ceil _)

/-- At the limit the held steps are counted. -/
theorem position_held (pos : 0 < inc) (reached : climb limit inc ≤ k) :
    limit ≤ (position limit inc k).travel ∧ (position limit inc k).hold = k - climb limit inc := by
  unfold position
  split
  · have same : k = climb limit inc := by omega
    subst same
    exact ⟨climb_ge pos, (Nat.sub_self _).symm⟩
  · exact ⟨le_refl _, rfl⟩

theorem step_position (pos : 0 < inc) (lt : k + 1 < period limit inc holdMax) :
    step limit inc holdMax (position limit inc k) = some (position limit inc (k + 1)) := by
  rcases Nat.lt_or_ge k (climb limit inc) with below | reached
  · have here : position limit inc k = ⟨k * inc, 0⟩ := if_pos (Nat.le_of_lt below)
    have next : position limit inc (k + 1) = ⟨(k + 1 : ℕ) * inc, 0⟩ := if_pos below
    rw [here, next, step, if_neg (not_le.mpr (climb_lt pos below)), if_pos rfl]
    push_cast
    rw [add_mul, one_mul]
  · obtain ⟨at_limit, held⟩ := position_held (k := k) pos reached
    have next : position limit inc (k + 1) = ⟨limit, k + 1 - climb limit inc⟩ := if_neg (by omega)
    unfold period at lt
    rw [step, if_pos at_limit, if_neg (by omega), held, next]
    congr 1
    congr 1
    omega

/-- The last step of a period fires. -/
theorem step_last (pos : 0 < inc) (last : k + 1 = period limit inc holdMax) :
    step limit inc holdMax (position limit inc k) = none := by
  unfold period at last
  have reached : climb limit inc ≤ k := by omega
  obtain ⟨at_limit, held⟩ := position_held (k := k) pos reached
  rw [step, if_pos at_limit, if_pos (by omega)]

end Climb

end RampHold
