import Mathlib.Algebra.Order.Floor.Ring
import Mathlib.Algebra.Order.Field.Basic
import Mathlib.Tactic.Linarith
import Mathlib.Tactic.Ring

/-! A point that moves along a line, seen on a circle: the turns it has made and the place on
the circle, and how a counter of turns follows it from the places alone. -/
namespace Winding
variable {α : Type*} [Field α] [LinearOrder α] [IsStrictOrderedRing α] [FloorRing α] {turn x y : α} {m : ℤ}

/-- The whole turns in `x`. -/
def turns (turn x : α) : ℤ := ⌊x / turn⌋

/-- The place of `x` on the circle. -/
def place (turn x : α) : α := x - turns turn x * turn

/-- What the count changes by between two places that are less than half a turn apart. -/
def wound (turn before now : α) : ℤ :=
  if now - before < -(turn / 2) then 1 else if turn / 2 < now - before then -1 else 0

section
variable (pos : 0 < turn)
include pos

theorem place_nonneg : 0 ≤ place turn x := by
  have lower := (le_div_iff₀ pos).mp (Int.floor_le (x / turn))
  rw [place, turns]
  linarith

theorem place_lt : place turn x < turn := by
  have upper := (div_lt_iff₀ pos).mp (Int.lt_floor_add_one (x / turn))
  rw [place, turns]
  linarith

theorem turns_eq (lower : m * turn ≤ x) (upper : x < (m + 1) * turn) : turns turn x = m :=
  Int.floor_eq_iff.mpr ⟨(le_div_iff₀ pos).mpr lower, (div_lt_iff₀ pos).mpr upper⟩

theorem place_eq (lower : m * turn ≤ x) (upper : x < (m + 1) * turn) : place turn x = x - m * turn := by
  rw [place, turns_eq pos lower upper]

/-- A multiple of a turn that is less than a whole one is none. -/
theorem multiple_lt (lt : m * turn < turn) : m < 1 := by
  have lt' : (m : α) < 1 := by
    by_contra past
    have more := mul_le_mul_of_nonneg_right (not_lt.mp past) pos.le
    linarith
  exact_mod_cast lt'

/-- Two places tell by how many turns the points are apart, if these are less than half a turn
apart. -/
theorem turns_next (near : |y - x| < turn / 2) :
    turns turn y = turns turn x + wound turn (place turn x) (place turn y) := by
  obtain ⟨back, forth⟩ := abs_lt.mp near
  have low : 0 ≤ place turn x := place_nonneg pos
  have low' : 0 ≤ place turn y := place_nonneg pos
  have high : place turn x < turn := place_lt pos
  have high' : place turn y < turn := place_lt pos
  obtain ⟨m, apart⟩ : ∃ m : ℤ, m = turns turn y - turns turn x := ⟨_, rfl⟩
  have moved : place turn y - place turn x = y - x - m * turn := by
    rw [place, place, apart]
    push_cast
    ring
  suffices m = wound turn (place turn x) (place turn y) by omega
  unfold wound
  split
  · next dropped =>
    have some : 0 < m := by
      have neg := multiple_lt (m := -m + 1) pos (by push_cast; linarith)
      omega
    have few := multiple_lt (m := m - 1) pos (by push_cast; linarith)
    omega
  · next rose =>
    split
    · have some := multiple_lt (m := m + 1) pos (by push_cast; linarith)
      have few := multiple_lt (m := -m - 1) pos (by push_cast; linarith)
      omega
    · have some := multiple_lt (m := m) pos (by linarith)
      have few := multiple_lt (m := -m) pos (by push_cast; linarith)
      omega

end

end Winding
