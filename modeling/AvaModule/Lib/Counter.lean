import Mathlib.Data.Nat.ModEq

/-! Free-running counters kept in machine words. A logical position is a natural
number; its word is the position modulo `2 ^ w`, and a ring of power-of-two size
addresses the position modulo that size. -/
namespace Counter
variable {w : Nat}

/-- The word of the logical position `n`. -/
def word (w n : Nat) : BitVec w := BitVec.ofNat w n

theorem word_add (n m : Nat) : word w n + word w m = word w (n + m) :=
  (BitVec.ofNat_add n m).symm

theorem word_add_bits (n : Nat) (b : BitVec w) : word w n + b = word w (n + b.toNat) := by
  apply BitVec.eq_of_toNat_eq
  simp [word, BitVec.toNat_add]

/-- Subtraction of words is subtraction of positions. -/
theorem word_sub {n m : Nat} (le : n ≤ m) : word w m - word w n = word w (m - n) := by
  have split : n + (m - n) = m := by omega
  have sum := word_add (w := w) n (m - n)
  rw [split] at sum
  rw [← sum, BitVec.add_comm, BitVec.add_sub_cancel]

/-- The distance of two positions survives the wrap of their words. -/
theorem toNat_word_sub {n m : Nat} (le : n ≤ m) (near : m - n < 2 ^ w) :
    (word w m - word w n).toNat = m - n := by
  rw [word_sub le, word, BitVec.toNat_ofNat, Nat.mod_eq_of_lt near]

/-- Masking a word with a power of two less one addresses the ring. -/
theorem toNat_word_mask {cap : BitVec w} (pow : cap.toNat = 2 ^ k) (n : Nat) :
    (word w n &&& (cap - 1)).toNat = n % cap.toNat := by
  have small : 2 ^ k < 2 ^ w := pow ▸ cap.isLt
  have positive : 0 < 2 ^ k := Nat.two_pow_pos k
  have width : 0 < w := by
    rcases Nat.eq_zero_or_pos w with rfl | pos
    · omega
    · exact pos
  have one : (1 : BitVec w).toNat = 1 := by
    change (BitVec.ofNat w 1).toNat = 1
    rw [BitVec.toNat_ofNat]
    exact Nat.mod_eq_of_lt (Nat.one_lt_two_pow (by omega))
  have mask : (cap - 1).toNat = 2 ^ k - 1 := by
    rw [BitVec.toNat_sub_of_le, pow, one]
    rw [BitVec.le_def, one, pow]
    exact positive
  have narrow : k ≤ w := by
    by_contra wide
    have := Nat.pow_le_pow_right (n := 2) (by decide) (Nat.le_of_not_le wide)
    omega
  rw [BitVec.toNat_and, mask, Nat.and_two_pow_sub_one_eq_mod, word, BitVec.toNat_ofNat, pow,
    Nat.mod_mod_of_dvd _ (Nat.pow_dvd_pow 2 narrow)]

/-- Positions less than one ring apart have different cells. -/
theorem mod_ne {i j cap : Nat} (lt : i < j) (near : j < i + cap) : i % cap ≠ j % cap := by
  intro same
  have divides := (Nat.modEq_iff_dvd' (Nat.le_of_lt lt)).mp same
  have := Nat.le_of_dvd (by omega) divides
  omega

/-- The cell `i` places after position `n`, when the run wraps at most once. -/
theorem mod_add {n i cap : Nat} (lt : i ≤ cap) (positive : 0 < cap) :
    (n + i) % cap = if i < cap - n % cap then n % cap + i else i - (cap - n % cap) := by
  have bound := Nat.mod_lt n positive
  rw [Nat.add_mod_eq_add_mod_right i (Nat.mod_mod n cap).symm]
  split
  · exact Nat.mod_eq_of_lt (by omega)
  · rw [Nat.mod_eq_sub_mod (by omega), Nat.mod_eq_of_lt (by omega)]
    omega

end Counter
