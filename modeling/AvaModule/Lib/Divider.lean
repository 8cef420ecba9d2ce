import Mathlib.Algebra.BigOperators.Intervals
import Mathlib.Tactic.Ring

/-! A counter that starts over at its divisor, and what is added up between two restarts. -/
namespace AvaModule.Divider
open Finset

def tick (div cnt : Nat) : Nat := if cnt + 1 < div then cnt + 1 else 0

variable {div c n : Nat} {cnt : Nat → Nat}

theorem tick_eq (small : c < div) : tick div c = (c + 1) % div := by
  unfold tick
  split
  · next below => exact (Nat.mod_eq_of_lt below).symm
  · next full =>
    have eq : c + 1 = div := by omega
    rw [eq, Nat.mod_self]

theorem tick_lt (pos : 0 < div) (c : Nat) : tick div c < div := by
  unfold tick
  split
  · assumption
  · exact pos

/-- After `n` ticks the counter is the remainder of all the ticks so far. -/
theorem ticks_eq (start : cnt 0 < div) (ticks : ∀ n, cnt (n + 1) = tick div (cnt n)) (n : Nat) :
    cnt n = (cnt 0 + n) % div := by
  induction n with
  | zero => exact (Nat.mod_eq_of_lt start).symm
  | succ n ih =>
    have small : cnt n < div := ih ▸ Nat.mod_lt _ (Nat.zero_lt_of_lt start)
    rw [ticks, tick_eq small, ih, Nat.mod_add_mod, Nat.add_assoc]

section Held
variable {M : Type*} [AddCommMonoid M] {out val x : Nat → M}

/-- A value that is set at every restart, and takes up `x` in every tick, is off by what came since the last restart. -/
theorem held_eq (start : cnt 0 < div) (ticks : ∀ n, cnt (n + 1) = tick div (cnt n))
    (restart : ∀ n, ¬cnt n + 1 < div → out (n + 1) = val (n + 1) + x (n + 1))
    (hold : ∀ n, cnt n + 1 < div → out (n + 1) = out n + x (n + 1) ∧ val (n + 1) = val n)
    (acted : div ≤ cnt 0 + n) : out n = val n + ∑ k ∈ range (cnt n + 1), x (n - k) := by
  induction n with
  | zero => omega
  | succ n ih =>
    by_cases below : cnt n + 1 < div
    · have before : div ≤ cnt 0 + n := by
        by_contra early
        have low := ticks_eq start ticks n
        rw [Nat.mod_eq_of_lt (by omega)] at low
        omega
      have counted : cnt (n + 1) = cnt n + 1 := (ticks n).trans (if_pos below)
      obtain ⟨sum, same⟩ := hold n below
      rw [sum, same, ih before, counted, sum_range_succ' _ (cnt n + 1), add_assoc]
      simp only [Nat.add_sub_add_right, Nat.sub_zero]
    · have counted : cnt (n + 1) = 0 := (ticks n).trans (if_neg below)
      rw [restart n below, counted, zero_add, sum_range_one, Nat.sub_zero]

end Held

end AvaModule.Divider
