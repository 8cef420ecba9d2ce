import Mathlib.Data.List.Basic
import Mathlib.Tactic.SplitIfs

/-! Round-robin choice among `n` places. A scan starts at `p`, goes up and around
once, and stops at the first place that is ready. -/
namespace RoundRobin
variable {n p a b c i j : Nat} {ready : Nat → Bool}

def scan (n p : Nat) (ready : Nat → Bool) : Option Nat :=
  ((List.range n).map fun k => (p + k) % n).find? ready

/-- `c` is met when going up from `p`, around the end if need be, and before `b`. -/
def Arc (p b c : Nat) : Prop := if p ≤ b then p ≤ c ∧ c < b else p ≤ c ∨ c < b

instance : Decidable (Arc p b c) := inferInstanceAs (Decidable (ite _ _ _))

/-- The scan visits every place. -/
theorem exists_offset (p : Nat) (lt : c < n) : ∃ k < n, (p + k) % n = c := by
  have small : p % n < n := Nat.mod_lt _ (Nat.zero_lt_of_lt lt)
  have whole := Nat.div_add_mod p n
  by_cases ahead : p % n ≤ c
  · refine ⟨c - p % n, by omega, ?_⟩
    rw [show p + (c - p % n) = n * (p / n) + c by omega, Nat.mul_add_mod, Nat.mod_eq_of_lt lt]
  · refine ⟨c + n - p % n, by omega, ?_⟩
    rw [show p + (c + n - p % n) = n * (p / n) + (c + n) by omega, Nat.mul_add_mod,
      Nat.add_mod_right, Nat.mod_eq_of_lt lt]

theorem scan_eq_none : scan n p ready = none ↔ ∀ c < n, ready c = false := by
  simp only [scan, List.find?_eq_none, List.mem_map, List.mem_range, Bool.not_eq_true]
  constructor
  · intro idle c lt
    obtain ⟨k, inside, rfl⟩ := exists_offset p lt
    exact idle _ ⟨k, inside, rfl⟩
  · rintro idle _ ⟨k, inside, rfl⟩
    exact idle _ (Nat.mod_lt _ (Nat.zero_lt_of_lt inside))

theorem scan_some (found : scan n p ready = some b) : b < n ∧ ready b = true := by
  obtain ⟨k, inside, rfl⟩ := List.mem_map.mp (List.mem_of_find?_eq_some found)
  have positive := Nat.zero_lt_of_lt (List.mem_range.mp inside)
  exact ⟨Nat.mod_lt _ positive, List.find?_some found⟩

/-- Nothing ready is passed over. -/
theorem scan_first (bound : p ≤ n) (found : scan n p ready = some b) (lt : c < n)
    (isReady : ready c = true) : ¬Arc p b c := by
  obtain ⟨_, k, inside, here, before⟩ := List.find?_eq_some_iff_getElem.mp found
  rw [List.length_map, List.length_range] at inside
  rw [List.getElem_map, List.getElem_range] at here
  have earlier : ∀ m < k, ready ((p + m) % n) = false := by
    intro m lt'
    have := before m lt'
    rw [List.getElem_map, List.getElem_range] at this
    simpa using this
  have wrap : ∀ m < n, (p + m) % n = if p + m < n then p + m else p + m - n := by
    intro m lt'
    split
    · next low => exact Nat.mod_eq_of_lt low
    · next high =>
      rw [Nat.mod_eq_sub_mod (Nat.not_lt.mp high)]
      exact Nat.mod_eq_of_lt (by omega)
  rw [wrap k inside] at here
  intro passed
  -- the distance from `p` to `c` is smaller than the one to `b`
  have sooner : ∃ m < k, (p + m) % n = c := by
    unfold Arc at passed
    by_cases ahead : p ≤ c
    · refine ⟨c - p, ?_, ?_⟩
      · split_ifs at here passed <;> omega
      · rw [show p + (c - p) = c by omega, Nat.mod_eq_of_lt lt]
    · refine ⟨c + n - p, ?_, ?_⟩
      · split_ifs at here passed <;> omega
      · rw [show p + (c + n - p) = c + n by omega, Nat.add_mod_right, Nat.mod_eq_of_lt lt]
  obtain ⟨m, lt', rfl⟩ := sooner
  rw [earlier m lt'] at isReady
  cases isReady

/-- A choice `b ≠ i` moves the scan on: the places between `i` and the scan grow
by `b`, which was not one of them, and by none that is ready. -/
theorem arc_next (bound : p ≤ n) (found : scan n p ready = some b) (ne : b ≠ i)
    (ltI : i < n) (readyI : ready i = true) (ltJ : j < n) (readyJ : ready j = true) (other : j ≠ i) :
    (Arc (i + 1) (b + 1) j ↔ Arc (i + 1) p j ∨ b = j) ∧ ¬(Arc (i + 1) p j ∧ b = j) := by
  have notI := scan_first bound found ltI readyI
  have notJ := scan_first bound found ltJ readyJ
  have inside := (scan_some found).1
  unfold Arc at *
  split_ifs at * <;> omega

/-- When the scan is back at `i`, every other ready place lies between. -/
theorem arc_back (bound : p ≤ n) (found : scan n p ready = some i) (ltJ : j < n)
    (readyJ : ready j = true) (other : j ≠ i) : Arc (i + 1) p j := by
  have notJ := scan_first bound found ltJ readyJ
  have inside := (scan_some found).1
  unfold Arc at *
  split_ifs at * <;> omega

end RoundRobin
