import Mathlib.Data.List.Basic

/-! Block copies in a memory, and the two-piece copies of a ring of `cap` cells:
up to the end of the ring, then from its start. -/
namespace Memory
variable {α : Type*} {m m' : Nat → α} {src : List α} {base off cap n i a : Nat}

/-- Store the values of `src` from `base` on. -/
def write (m : Nat → α) (base : Nat) (src : List α) : Nat → α :=
  fun a => if base ≤ a then src[a - base]?.getD (m a) else m a

/-- Load `n` values from `base` on. -/
def read (m : Nat → α) (base n : Nat) : List α := (List.range n).map fun i => m (base + i)

@[simp] theorem read_length : (read m base n).length = n := by simp [read]

@[simp] theorem write_nil : write m base [] = m := by
  funext a
  simp [write]

theorem write_inside (lt : i < src.length) : write m base src (base + i) = src[i] := by
  simp [write, lt]

theorem write_outside (away : a < base ∨ base + src.length ≤ a) : write m base src a = m a := by
  unfold write
  split
  · have beyond : src.length ≤ a - base := by omega
    simp [beyond]
  · rfl

/-- Stores to different places may be swapped. -/
theorem write_comm {src' : List α} {base' : Nat} (apart : base + src.length ≤ base' ∨ base' + src'.length ≤ base) :
    write (write m base src) base' src' = write (write m base' src') base src := by
  funext a
  by_cases first : base ≤ a ∧ a < base + src.length
  · obtain ⟨i, rfl⟩ := Nat.exists_eq_add_of_le first.1
    rw [write_outside (by omega), write_inside (by omega), write_inside (by omega)]
  · by_cases second : base' ≤ a ∧ a < base' + src'.length
    · obtain ⟨i, rfl⟩ := Nat.exists_eq_add_of_le second.1
      rw [write_inside (by omega), write_outside (by omega), write_inside (by omega)]
    · rw [write_outside (by omega), write_outside (by omega), write_outside (by omega), write_outside (by omega)]

theorem write_append (src src' : List α) :
    write (write m base src) (base + src.length) src' = write m base (src ++ src') := by
  funext a
  unfold write
  by_cases below : base ≤ a
  · by_cases first : a - base < src.length
    · rw [if_neg (by omega), if_pos below, if_pos below, List.getElem?_append_left first]
    · have place : a - base - src.length = a - (base + src.length) := by omega
      have gone : src[a - base]? = none := List.getElem?_eq_none (by omega)
      rw [if_pos (by omega), if_pos below, if_pos below, List.getElem?_append_right (by omega), place, gone]
      rfl
  · rw [if_neg (by omega), if_neg below, if_neg below]

theorem read_congr (same : ∀ i < n, m (base + i) = m' (base + i)) : read m base n = read m' base n := by
  apply List.map_congr_left
  intro i member
  exact same i (List.mem_range.mp member)

theorem read_take {k : Nat} (le : k ≤ n) : (read m base n).take k = read m base k := by
  rw [read, ← List.map_take, List.take_range, Nat.min_eq_left le, read]

theorem read_write : read (write m base src) base src.length = src := by
  apply List.ext_getElem
  · simp
  · intro i _ lt
    simp [read, write_inside lt]

def writeRing (m : Nat → α) (cap off : Nat) (src : List α) : Nat → α :=
  write (write m off (src.take (cap - off))) 0 (src.drop (cap - off))

def readRing (m : Nat → α) (cap off n : Nat) : List α :=
  read m off (min n (cap - off)) ++ read m 0 (n - (cap - off))

/-- The cell `i` places after `off`, for a walk that wraps at most once. -/
theorem ring_cell (inside : off < cap) (lt : i < cap) :
    (off + i) % cap = if i < cap - off then off + i else i - (cap - off) := by
  split
  · exact Nat.mod_eq_of_lt (by omega)
  · rw [Nat.mod_eq_sub_mod (by omega), Nat.mod_eq_of_lt (by omega)]
    omega

theorem writeRing_cell (inside : off < cap) (fits : src.length ≤ cap) (lt : i < src.length) :
    writeRing m cap off src ((off + i) % cap) = src[i] := by
  rw [ring_cell inside (by omega), writeRing]
  by_cases first : i < cap - off
  · have before : i < (src.take (cap - off)).length := by
      rw [List.length_take]
      omega
    rw [if_pos first, write_outside, write_inside before, List.getElem_take]
    rw [List.length_drop]
    omega
  · have after : i - (cap - off) < (src.drop (cap - off)).length := by
      rw [List.length_drop]
      omega
    have cell : write (write m off (src.take (cap - off))) 0 (src.drop (cap - off))
        (i - (cap - off)) = (src.drop (cap - off))[i - (cap - off)] := by
      simpa only [Nat.zero_add] using @write_inside _ _ _ 0 _ after
    rw [if_neg first, cell, List.getElem_drop]
    congr 1
    omega

/-- A longer source keeps its last `cap` values, as long as its second piece ends
within the ring. -/
theorem writeRing_cell_late (inside : off < cap) (fits : off + src.length ≤ 2 * cap)
    (late : src.length ≤ i + cap) (lt : i < src.length) :
    writeRing m cap off src ((off + i) % cap) = src[i] := by
  by_cases first : i < cap - off
  · have before : i < (src.take (cap - off)).length := by
      rw [List.length_take]
      omega
    rw [Nat.mod_eq_of_lt (by omega), writeRing, write_outside, write_inside before, List.getElem_take]
    rw [List.length_drop]
    omega
  · have after : i - (cap - off) < (src.drop (cap - off)).length := by
      rw [List.length_drop]
      omega
    have cell : write (write m off (src.take (cap - off))) 0 (src.drop (cap - off))
        (i - (cap - off)) = (src.drop (cap - off))[i - (cap - off)] := by
      simpa only [Nat.zero_add] using @write_inside _ _ _ 0 _ after
    have place : (off + i) % cap = i - (cap - off) := by
      rw [Nat.mod_eq_sub_mod (by omega), Nat.mod_eq_of_lt (by omega)]
      omega
    rw [place, writeRing, cell, List.getElem_drop]
    congr 1
    omega

theorem writeRing_other (inside : off < cap) (fits : src.length ≤ cap)
    (apart : ∀ i < src.length, a ≠ (off + i) % cap) : writeRing m cap off src a = m a := by
  have second : a < 0 ∨ 0 + (src.drop (cap - off)).length ≤ a := by
    right
    by_contra within
    rw [List.length_drop] at within
    apply apart (a + (cap - off)) (by omega)
    rw [ring_cell inside (by omega), if_neg (by omega)]
    omega
  have first : a < off ∨ off + (src.take (cap - off)).length ≤ a := by
    by_contra within
    rw [List.length_take] at within
    apply apart (a - off) (by omega)
    rw [ring_cell inside (by omega), if_pos (by omega)]
    omega
  rw [writeRing, write_outside second, write_outside first]

theorem readRing_eq (inside : off < cap) (fits : n ≤ cap) :
    readRing m cap off n = (List.range n).map fun i => m ((off + i) % cap) := by
  have split : n = min n (cap - off) + (n - (cap - off)) := by omega
  rw [readRing]
  conv_rhs => rw [split, List.range_add, List.map_append, List.map_map]
  congr 1
  · apply List.map_congr_left
    intro i member
    have lt := List.mem_range.mp member
    rw [ring_cell inside (by omega), if_pos (by omega)]
  · apply List.map_congr_left
    intro i member
    have lt := List.mem_range.mp member
    dsimp only [Function.comp_apply]
    rw [ring_cell inside (by omega), if_neg (by omega)]
    congr 1
    omega

end Memory
