import Mathlib.Algebra.Order.Floor.Ring
import Mathlib.Data.Finset.Card
import Mathlib.Data.Int.ModEq
import Mathlib.Tactic.FieldSimp
import Mathlib.Tactic.Linarith
import Mathlib.Tactic.Ring

/-! A signal that turns `k` times while `n` samples of it are taken. The samples lie evenly spread over one turn, so a
part of the turn is met as often as its length says, up to one sample. -/
namespace SampledPeriod

section Part
variable {K : Type*} [Field K] [LinearOrder K] [IsStrictOrderedRing K] [FloorRing K] {x y : K}

/-- What is left of an angle without its whole turns, where a whole turn is left as one turn. -/
def part (x : K) : K := x - ⌈x⌉ + 1

theorem part_pos (x : K) : 0 < part x := by
  have upper := Int.ceil_lt_add_one x
  rw [part]
  linarith

theorem part_le (x : K) : part x ≤ 1 := by
  have lower := Int.le_ceil x
  rw [part]
  linarith

theorem part_add_int (x : K) (m : ℤ) : part (x + m) = part x := by
  rw [part, part, Int.ceil_add_intCast]
  push_cast
  ring

omit [IsStrictOrderedRing K] in
theorem part_turns (x : K) : ∃ m : ℤ, part x = x + m := by
  refine ⟨1 - ⌈x⌉, ?_⟩
  rw [part]
  push_cast
  ring

/-- In the first turn there is one angle that differs by whole turns. -/
theorem part_eq {m : ℤ} (pos : 0 < y) (le : y ≤ 1) (turns : y = x + m) : part x = y := by
  have first : ⌈y⌉ = 1 := Int.ceil_eq_iff.mpr ⟨by push_cast; linarith, by push_cast; exact le⟩
  rw [← part_add_int x m, ← turns, part, first]
  push_cast
  ring

/-- Whole turns may be left out before an addition. -/
theorem part_part_add (x y : K) : part (part x + y) = part (x + y) := by
  obtain ⟨m, turns⟩ := part_turns x
  rw [turns, add_right_comm, part_add_int]

end Part

section Residues
variable {k n : ℕ}

/-- The place of the sample `j` among the `n` places of a turn. -/
def place (k n : ℕ) (a : ℤ) (j : ℕ) : ℕ := ((a + j * k) % n).toNat

theorem place_eq (pos : 0 < n) (a : ℤ) (j : ℕ) : (place k n a j : ℤ) = (a + j * k) % n :=
  Int.toNat_of_nonneg (Int.emod_nonneg _ (by exact_mod_cast pos.ne'))

theorem place_lt (pos : 0 < n) (a : ℤ) (j : ℕ) : place k n a j < n := by
  have upper := Int.emod_lt_of_pos (a + j * k) (b := n) (by exact_mod_cast pos)
  rw [← place_eq pos] at upper
  exact_mod_cast upper

/-- Two of `n` samples are never at one place. -/
theorem place_injOn (pos : 0 < n) (coprime : k.Coprime n) (a : ℤ) : Set.InjOn (place k n a) (Finset.range n) := by
  intro i inside j inside' same
  have equal : a + i * k ≡ a + j * k [ZMOD n] := by
    rw [Int.ModEq, ← place_eq pos, ← place_eq pos, same]
  have steps : i * k ≡ j * k [MOD n] := by exact_mod_cast Int.ModEq.add_left_cancel' a equal
  have apart : i ≡ j [MOD n] := Nat.ModEq.cancel_right_of_coprime coprime.symm steps
  exact apart.eq_of_lt_of_lt (Finset.mem_range.mp inside) (Finset.mem_range.mp inside')

/-- They meet every place. -/
theorem image_place (pos : 0 < n) (coprime : k.Coprime n) (a : ℤ) :
    (Finset.range n).image (place k n a) = Finset.range n := by
  apply Finset.eq_of_subset_of_card_le
  · intro e mem
    obtain ⟨j, -, rfl⟩ := Finset.mem_image.mp mem
    exact Finset.mem_range.mpr (place_lt pos a j)
  · rw [Finset.card_image_of_injOn (place_injOn pos coprime a)]

/-- So as many of them are at the first `c` places. -/
theorem card_place_lt (pos : 0 < n) (coprime : k.Coprime n) (a : ℤ) {c : ℕ} (le : c ≤ n) :
    ((Finset.range n).filter fun j => place k n a j < c).card = c := by
  have injective := (place_injOn pos coprime a).mono
    (Finset.coe_subset.mpr (Finset.filter_subset (fun j => place k n a j < c) (Finset.range n)))
  have first : (Finset.range n).filter (· < c) = Finset.range c := by
    ext e
    simp only [Finset.mem_filter, Finset.mem_range]
    omega
  calc ((Finset.range n).filter fun j => place k n a j < c).card
    _ = (((Finset.range n).filter fun j => place k n a j < c).image (place k n a)).card :=
      (Finset.card_image_of_injOn injective).symm
    _ = (((Finset.range n).image (place k n a)).filter (· < c)).card := by rw [Finset.filter_image]
    _ = c := by rw [image_place pos coprime, first, Finset.card_range]

variable {K : Type*} [Field K] [LinearOrder K] [IsStrictOrderedRing K] [FloorRing K]

theorem part_sample (pos : 0 < n) (x : K) (j : ℕ) :
    part (x + j * (k / n)) = (place k n (⌈n * x⌉ - 1) j + part (n * x)) / n := by
  have positive : (0 : K) < n := by exact_mod_cast pos
  have lower := part_pos (n * x)
  have upper := part_le (n * x)
  have before : (place k n (⌈n * x⌉ - 1) j : K) + 1 ≤ n := by exact_mod_cast place_lt pos (⌈n * x⌉ - 1) j
  have whole := Int.emod_add_mul_ediv (⌈n * x⌉ - 1 + j * k) n
  rw [← place_eq pos] at whole
  have wholeK : (place k n (⌈n * x⌉ - 1) j : K) + n * ((⌈n * x⌉ - 1 + j * k) / n : ℤ) = ⌈n * x⌉ - 1 + j * k := by
    exact_mod_cast whole
  apply part_eq (m := -((⌈n * x⌉ - 1 + j * k) / n))
  · exact div_pos (add_pos_of_nonneg_of_pos (Nat.cast_nonneg _) lower) positive
  · rw [div_le_one positive]
    linarith
  · rw [div_eq_iff positive.ne']
    have spread : (x + j * (k / n)) * n = n * x + j * k := by
      field_simp
    rw [add_mul, spread, part]
    push_cast
    linarith

/-- Among the samples of whole turns, those in the first `d` of a turn. -/
theorem card_part_lt (pos : 0 < n) (coprime : k.Coprime n) (x : K) {d : K} (d_pos : 0 < d) (le : d ≤ 1) :
    (((Finset.range n).filter fun j : ℕ => part (x + j * (k / n)) < d).card : ℤ) = ⌈n * d - part (n * x)⌉ := by
  have positive : (0 : K) < n := by exact_mod_cast pos
  have lower := part_pos (n * x)
  have upper := part_le (n * x)
  have least : 0 ≤ ⌈n * d - part (n * x)⌉ := by
    have bound : (-1 : ℤ) < ⌈n * d - part (n * x)⌉ := by
      have share := mul_pos positive d_pos
      rw [Int.lt_ceil]
      push_cast
      linarith
    omega
  have most : ⌈n * d - part (n * x)⌉ ≤ n := by
    rw [Int.ceil_le]
    have share := mul_le_mul_of_nonneg_left le positive.le
    push_cast
    linarith
  obtain ⟨c, count⟩ := Int.eq_ofNat_of_zero_le least
  have inside (j : ℕ) : part (x + j * (k / n)) < d ↔ place k n (⌈n * x⌉ - 1) j < c := by
    rw [part_sample pos, div_lt_iff₀' positive, ← lt_sub_iff_add_lt, ← Int.cast_natCast, ← Int.lt_ceil, count]
    exact Int.ofNat_lt
  simp only [inside]
  rw [count, card_place_lt pos coprime]
  rw [count] at most
  exact_mod_cast most

end Residues

end SampledPeriod
