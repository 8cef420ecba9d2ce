import Mathlib.Algebra.Field.ZMod
import Mathlib.Algebra.Polynomial.Div
import Mathlib.RingTheory.Coprime.Lemmas
import Mathlib.Tactic.LinearCombination

/-! Division of bit strings over GF(2) by a shift register that moves right: the lowest bit of
the register is its highest coefficient, and the first bit of a string the highest of all. -/
namespace ShiftRegister
open Polynomial

variable {w n : Nat} {poly c d : BitVec w} {b : Bool} {bits bits' : List Bool}

def step (poly c : BitVec w) : BitVec w := if c.getLsbD 0 then (c >>> 1) ^^^ poly else c >>> 1

def shifts (poly : BitVec w) : Nat → BitVec w → BitVec w
  | 0, c => c
  | n + 1, c => shifts poly n (step poly c)

/-- A bit in the lowest place. -/
def low (w : Nat) (b : Bool) : BitVec w := if b then 1#w else 0#w

/-- The register takes in one bit. -/
def feed (poly c : BitVec w) (b : Bool) : BitVec w := step poly (c ^^^ low w b)

def feeds (poly c : BitVec w) (bits : List Bool) : BitVec w := bits.foldl (feed poly) c

section Linear

theorem getLsbD_step (i : Nat) :
    (step poly c).getLsbD i = ((c.getLsbD (1 + i)) ^^ (c.getLsbD 0 && poly.getLsbD i)) := by
  unfold step
  cases c.getLsbD 0 <;> simp [BitVec.getLsbD_xor, BitVec.getLsbD_ushiftRight]

theorem step_xor : step poly (c ^^^ d) = step poly c ^^^ step poly d := by
  apply BitVec.eq_of_getLsbD_eq
  intro i _
  simp only [getLsbD_step, BitVec.getLsbD_xor]
  cases c.getLsbD 0 <;> cases d.getLsbD 0 <;> cases c.getLsbD (1 + i) <;> cases d.getLsbD (1 + i) <;>
    cases poly.getLsbD i <;> rfl

theorem shifts_xor (n : Nat) (c d : BitVec w) : shifts poly n (c ^^^ d) = shifts poly n c ^^^ shifts poly n d := by
  induction n generalizing c d with
  | zero => rfl
  | succ n ih => simp only [shifts, step_xor, ih]

/-- A polynomial with a constant coefficient loses nothing in a step: the highest place tells what was shifted out. -/
theorem step_injective (last : poly.getMsbD 0 = true) : Function.Injective (step poly) := by
  have zero : ∀ c : BitVec w, step poly c = 0#w → c = 0#w := by
    intro c eq
    have wide : 0 < w := by
      rcases Nat.eq_zero_or_pos w with rfl | pos
      · simp at last
      · exact pos
    have bit : ∀ i, ((c.getLsbD (1 + i)) ^^ (c.getLsbD 0 && poly.getLsbD i)) = false := by
      intro i
      rw [← getLsbD_step, eq, BitVec.getLsbD_zero]
    have top : poly.getLsbD (w - 1) = true := by
      rw [← last, BitVec.getMsbD_eq_getLsbD]
      simp [wide]
    have lowest : c.getLsbD 0 = false := by
      have here := bit (w - 1)
      rwa [Nat.add_sub_cancel' wide, BitVec.getLsbD_of_ge _ _ le_rfl, top, Bool.and_true, Bool.false_xor] at here
    apply BitVec.eq_of_getLsbD_eq
    intro i _
    rw [BitVec.getLsbD_zero]
    cases i with
    | zero => exact lowest
    | succ i =>
      have here := bit i
      rwa [lowest, Bool.false_and, Bool.xor_false, Nat.add_comm] at here
  intro c d same
  have none := zero (c ^^^ d) (by rw [step_xor, same, BitVec.xor_self])
  rwa [BitVec.xor_eq_zero_iff] at none

theorem shifts_injective (last : poly.getMsbD 0 = true) (n : Nat) : Function.Injective (shifts poly n) := by
  induction n with
  | zero => exact fun _ _ same => same
  | succ n ih => exact fun _ _ same => step_injective last (ih same)

/-- Bits that do not reach the lowest place are only moved. -/
theorem shifts_high (clear : ∀ i < n, c.getLsbD i = false) : shifts poly n c = c >>> n := by
  induction n generalizing c with
  | zero => exact (BitVec.ushiftRight_zero ..).symm
  | succ n ih =>
    have first := clear 0 (Nat.succ_pos n)
    have moved : step poly c = c >>> 1 := by
      rw [step, first]
      rfl
    rw [shifts, moved, ih, Nat.add_comm, BitVec.shiftRight_add]
    intro i lt
    rw [BitVec.getLsbD_ushiftRight]
    exact clear (1 + i) (by omega)

/-- What lies above the lowest places is moved down, and the lowest places go through the register. -/
theorem shifts_split {mask : BitVec w} (places : ∀ i < w, mask.getLsbD i = decide (i < n)) :
    shifts poly n c = (c >>> n) ^^^ shifts poly n (c &&& mask) := by
  have parts : c = (c &&& ~~~mask) ^^^ (c &&& mask) := by
    apply BitVec.eq_of_getLsbD_eq
    intro i lt
    rw [BitVec.getLsbD_xor, BitVec.getLsbD_and, BitVec.getLsbD_and, BitVec.getLsbD_not, decide_eq_true lt]
    cases c.getLsbD i <;> cases mask.getLsbD i <;> rfl
  have clear : ∀ i < n, (c &&& ~~~mask).getLsbD i = false := by
    intro i below
    rw [BitVec.getLsbD_and, BitVec.getLsbD_not]
    by_cases lt : i < w
    · simp [places i lt, below]
    · simp [lt]
  have above : (c &&& ~~~mask) >>> n = c >>> n := by
    apply BitVec.eq_of_getLsbD_eq
    intro i _
    rw [BitVec.getLsbD_ushiftRight, BitVec.getLsbD_ushiftRight, BitVec.getLsbD_and, BitVec.getLsbD_not]
    by_cases lt : n + i < w
    · rw [places _ lt, decide_eq_true lt, decide_eq_false (by omega), Bool.not_false, Bool.and_self, Bool.and_true]
    · rw [BitVec.getLsbD_of_ge _ _ (Nat.le_of_not_lt lt), Bool.false_and]
  have halves : shifts poly n ((c &&& ~~~mask) ^^^ (c &&& mask)) = (c >>> n) ^^^ shifts poly n (c &&& mask) := by
    rw [shifts_xor, shifts_high clear, above]
  rwa [← parts] at halves

/-- Bits taken in one by one are bits laid into the register at once and then shifted. -/
theorem feeds_eq_shifts (length : bits.length ≤ w) (laid : ∀ i, d.getLsbD i = (bits[i]?.getD false)) :
    feeds poly c bits = shifts poly bits.length (c ^^^ d) := by
  induction bits generalizing c d with
  | nil =>
    have none : d = 0#w := BitVec.eq_of_getLsbD_eq fun i _ => by simp [laid]
    simp [feeds, shifts, none]
  | cons b bits ih =>
    have wide : 0 < w := by simp at length; omega
    have rest : ∀ i, (step poly (low w b ^^^ d)).getLsbD i = (bits[i]?.getD false) := by
      intro i
      have lowest : (low w b ^^^ d).getLsbD 0 = false := by
        rw [BitVec.getLsbD_xor, laid]
        cases b <;> simp [low, wide]
      have next : (low w b).getLsbD (1 + i) = false := by cases b <;> simp [low]
      rw [getLsbD_step, lowest, BitVec.getLsbD_xor, next, laid, Nat.add_comm]
      simp
    have split : c ^^^ d = (c ^^^ low w b) ^^^ (low w b ^^^ d) := by
      rw [BitVec.xor_assoc, ← BitVec.xor_assoc (low w b), BitVec.xor_self, BitVec.zero_xor]
    have tail := ih (c := feed poly c b) (by simp at length; omega) rest
    rw [feeds, List.foldl_cons, ← feeds, tail, feed, ← step_xor, ← split]
    rfl

end Linear

section Polynomials

def bit (b : Bool) : ZMod 2 := if b then 1 else 0

/-- A string as a polynomial: its last bit is the constant coefficient. -/
noncomputable def ofBits : List Bool → (ZMod 2)[X]
  | [] => 0
  | b :: bits => monomial bits.length (bit b) + ofBits bits

/-- The contents of a register: the bit in its highest place is the constant coefficient. -/
noncomputable def contents (c : BitVec w) : (ZMod 2)[X] := ∑ i ∈ Finset.range w, monomial i (bit (c.getMsbD i))

noncomputable def generator (poly : BitVec w) : (ZMod 2)[X] := X ^ w + contents poly

theorem bit_xor (a b : Bool) : bit (a ^^ b) = bit a + bit b := by cases a <;> cases b <;> decide

theorem bit_injective : Function.Injective bit := by decide

theorem coeff_ofBits (i : Nat) : (ofBits bits).coeff i = bit (bits.reverse[i]?.getD false) := by
  induction bits with
  | nil => simp [ofBits, bit]
  | cons b bits ih =>
    rw [ofBits, coeff_add, coeff_monomial, ih, List.reverse_cons]
    rcases Nat.lt_trichotomy i bits.length with lt | rfl | gt
    · rw [if_neg (by omega), zero_add, List.getElem?_append_left (by simpa using lt)]
    · simp [bit]
    · have short : bits.reverse.length ≤ i := by simp; omega
      have short' : (bits.reverse ++ [b]).length ≤ i := by simp; omega
      rw [if_neg (by omega), zero_add, List.getElem?_eq_none short, List.getElem?_eq_none short']

theorem ofBits_injective (length : bits.length = bits'.length) (same : ofBits bits = ofBits bits') : bits = bits' := by
  apply List.reverse_injective
  apply List.ext_getElem?
  intro i
  have coefficient := congrArg (fun p => p.coeff i) same
  simp only [coeff_ofBits] at coefficient
  have value := bit_injective coefficient
  rcases Nat.lt_or_ge i bits.length with lt | ge
  · have lt' : i < bits'.reverse.length := by simpa [← length] using lt
    rw [List.getElem?_eq_getElem (by simpa using lt), List.getElem?_eq_getElem lt'] at value ⊢
    exact congrArg some value
  · rw [List.getElem?_eq_none (by simpa using ge), List.getElem?_eq_none (by simpa [← length] using ge)]

theorem coeff_contents (i : Nat) : (contents c).coeff i = bit (c.getMsbD i) := by
  rw [contents, finsetSum_coeff]
  simp only [coeff_monomial]
  rw [Finset.sum_ite_eq']
  split
  case isTrue => rfl
  case isFalse out =>
    have beyond : c.getMsbD i = false := BitVec.getMsbD_of_ge _ _ (by simpa using out)
    simp [beyond, bit]

theorem contents_xor : contents (c ^^^ d) = contents c + contents d := by
  ext i
  rw [coeff_add, coeff_contents, coeff_contents, coeff_contents, BitVec.getMsbD_xor, bit_xor]

theorem degree_contents : (contents c).degree < w := by
  rw [degree_lt_iff_coeff_zero]
  intro i le
  rw [coeff_contents, BitVec.getMsbD_of_ge _ _ le]
  rfl

theorem generator_monic : (generator poly).Monic := monic_X_pow_add degree_contents

theorem degree_generator : (generator poly).degree = w := by
  rw [generator, degree_add_eq_left_of_degree_lt, degree_X_pow]
  rw [degree_X_pow]
  exact degree_contents

theorem contents_shift : contents (c >>> 1) = X * contents c + C (bit (c.getLsbD 0)) * X ^ w := by
  ext i
  rw [coeff_add, coeff_C_mul, coeff_X_pow, coeff_contents, BitVec.getMsbD_ushiftRight]
  cases i with
  | zero =>
    rw [coeff_X_mul_zero]
    cases w with
    | zero => simp [bit]
    | succ w => simp [bit]
  | succ i =>
    rw [coeff_X_mul, coeff_contents]
    rcases Nat.lt_trichotomy (i + 1) w with lt | rfl | gt
    · simp [lt, (Nat.ne_of_lt lt)]
    · have last : c.getMsbD i = c.getLsbD 0 := by simp [BitVec.getMsbD]
      rw [last, decide_eq_false (lt_irrefl _), if_pos rfl, Bool.false_and]
      cases c.getLsbD 0 <;> decide
    · have beyond : c.getMsbD i = false := BitVec.getMsbD_of_ge _ _ (by omega)
      simp [beyond, bit, Nat.not_lt.mpr gt.le, Nat.ne_of_gt gt]

/-- A step multiplies the contents by `X` and reduces them. -/
theorem contents_step : contents (step poly c) = X * contents c + C (bit (c.getLsbD 0)) * generator poly := by
  have reduced : contents (step poly c) = contents (c >>> 1) + C (bit (c.getLsbD 0)) * contents poly := by
    rw [step]
    cases c.getLsbD 0 <;> simp [contents_xor, bit]
  rw [reduced, contents_shift, generator]
  ring

theorem contents_low (wide : 0 < w) : contents (low w b) = C (bit b) * X ^ (w - 1) := by
  ext i
  rw [coeff_C_mul, coeff_X_pow, coeff_contents, BitVec.getMsbD]
  cases b with
  | false => simp [low, bit]
  | true =>
    by_cases top : i = w - 1
    · simp [low, top, wide, bit]
    · have away : ¬ (i < w ∧ w - 1 - i = 0) := by omega
      simp [low, top, bit]
      omega

/-- Up to multiples of the generator the register holds what it held, moved up past the string, and the
string moved up past the register. -/
theorem generator_dvd_feeds (poly c : BitVec w) (bits : List Bool) (wide : 0 < w) : generator poly ∣
    (X ^ bits.length * contents c + X ^ w * ofBits bits) - contents (feeds poly c bits) := by
  induction bits generalizing c with
  | nil => simp [feeds, ofBits]
  | cons b bits ih =>
    obtain ⟨quotient, rest⟩ := ih (feed poly c b)
    have up : (X : (ZMod 2)[X]) ^ w = X * X ^ (w - 1) := by rw [← pow_succ', Nat.sub_add_cancel wide]
    have fed : contents (feed poly c b) = X * contents c + C (bit b) * X ^ w +
        C (bit ((c ^^^ low w b).getLsbD 0)) * generator poly := by
      rw [feed, contents_step, contents_xor, contents_low wide, up]
      ring
    have string : ofBits (b :: bits) = C (bit b) * X ^ bits.length + ofBits bits := by
      rw [ofBits, C_mul_X_pow_eq_monomial]
    refine ⟨quotient - X ^ bits.length * C (bit ((c ^^^ low w b).getLsbD 0)), ?_⟩
    have once : feeds poly c (b :: bits) = feeds poly (feed poly c b) bits := rfl
    rw [mul_sub, ← rest, once, fed, string, List.length_cons, pow_succ]
    ring

theorem contents_feeds (wide : 0 < w) : contents (feeds poly c bits) =
    (X ^ bits.length * contents c + X ^ w * ofBits bits) %ₘ generator poly := by
  have small : contents (feeds poly c bits) %ₘ generator poly = contents (feeds poly c bits) :=
    (modByMonic_eq_self_iff generator_monic).mpr (lt_of_lt_of_eq degree_contents degree_generator.symm)
  rw [← small]
  exact (modByMonic_eq_of_dvd_sub generator_monic (generator_dvd_feeds poly c bits wide)).symm

end Polynomials

section Bursts

theorem generator_coprime_X (last : poly.getMsbD 0 = true) : IsCoprime (generator poly) (X ^ n) := by
  have constant : (generator poly).coeff 0 = 1 := by
    have wide : w ≠ 0 := by
      rintro rfl
      simp at last
    rw [generator, coeff_add, coeff_X_pow, coeff_contents, last, if_neg (Ne.symm wide)]
    rfl
  obtain ⟨q, eq⟩ : (X : (ZMod 2)[X]) ∣ generator poly - 1 := by
    rw [X_dvd_iff, coeff_sub, constant, coeff_one_zero, sub_self]
  have coprime : IsCoprime (generator poly) X := ⟨1, -q, by linear_combination eq⟩
  exact coprime.pow_right

/-- A multiple of the generator whose coefficients other than zero lie in a window of its degree is zero. -/
theorem eq_zero_of_window {p : (ZMod 2)[X]} (last : poly.getMsbD 0 = true) (dvd : generator poly ∣ p)
    (below : ∀ i < n, p.coeff i = 0) (above : ∀ i, n + w ≤ i → p.coeff i = 0) : p = 0 := by
  obtain ⟨q, rfl⟩ := X_pow_dvd_iff.mpr below
  have short : q.degree < (generator poly).degree := by
    rw [degree_generator, degree_lt_iff_coeff_zero]
    intro i le
    rw [← coeff_X_pow_mul q n i]
    exact above _ (by omega)
  have inner : generator poly ∣ q := (generator_coprime_X last).dvd_of_dvd_mul_left dvd
  have zero : q = 0 := by
    rw [← (modByMonic_eq_self_iff generator_monic).mpr short]
    exact (modByMonic_eq_zero_iff_dvd generator_monic).mpr inner
  rw [zero, mul_zero]

/-- Two strings of one length that differ, but only inside a window as long as the register, leave it different. -/
theorem feeds_ne_of_window (last : poly.getMsbD 0 = true) (length : bits.length = bits'.length)
    (outside : ∀ i, i < n ∨ n + w ≤ i → bits[i]? = bits'[i]?) (differ : bits ≠ bits') :
    feeds poly c bits ≠ feeds poly c bits' := by
  intro same
  apply differ
  have wide : 0 < w := by
    rcases Nat.eq_zero_or_pos w with rfl | pos
    · simp at last
    · exact pos
  have multiple : generator poly ∣ X ^ w * (ofBits bits - ofBits bits') := by
    have sub := dvd_sub (generator_dvd_feeds poly c bits wide) (generator_dvd_feeds poly c bits' wide)
    rw [same, length] at sub
    convert sub using 1
    ring
  have coefficient : ∀ i, (i + 1 ≤ bits.length → bits[bits.length - 1 - i]? = bits'[bits.length - 1 - i]?) →
      (ofBits bits - ofBits bits').coeff i = 0 := by
    intro i here
    rw [coeff_sub, coeff_ofBits, coeff_ofBits, sub_eq_zero]
    rcases Nat.lt_or_ge i bits.length with lt | ge
    · rw [List.getElem?_reverse lt, List.getElem?_reverse (length ▸ lt), ← length, here lt]
    · rw [List.getElem?_eq_none (by simpa using ge), List.getElem?_eq_none (by simpa [← length] using ge)]
  have zero : ofBits bits - ofBits bits' = 0 :=
    eq_zero_of_window (n := bits.length - (n + w)) last ((generator_coprime_X last).dvd_of_dvd_mul_left multiple)
      (fun i lt => coefficient i fun _ => outside _ (.inr (by omega)))
      (fun i le => coefficient i fun _ => outside _ (.inl (by omega)))
  exact ofBits_injective length (sub_eq_zero.mp zero)

end Bursts

end ShiftRegister
