import AvaModule.Lib.ShiftRegister
import Mathlib.GroupTheory.OrderOfElement
import Mathlib.RingTheory.AdjoinRoot

/-! The order of a shift register: after how many steps every contents come back. Contents are multiplied by a register
program, so that the power of a step can be computed for exponents far beyond what could be stepped through. -/
namespace ShiftRegister
open Polynomial

variable {w n : Nat} {poly c d : BitVec w} {bits bits' : List Bool}

section Multiply

/-- `f x`, where the contents are worked out before `f` sees them. -/
def forced {α : Type} (x : BitVec w) (f : BitVec w → α) : α :=
  match x.toNat with
  | 0 => f 0#w
  | n + 1 => f (BitVec.ofNat w (n + 1))

/-- The product with the places of `d` that are left: the lowest place is the highest coefficient. -/
def timesFrom (poly c d : BitVec w) : List Nat → BitVec w → BitVec w
  | [], product => product
  | j :: places, product => forced (step poly product ^^^ if d.getLsbD j then c else 0#w) (timesFrom poly c d places)

def times (poly c d : BitVec w) : BitVec w := timesFrom poly c d (List.range w) 0#w

/-- The power of a step, from the binary digits of the exponent, the highest one first. -/
def power (poly : BitVec w) : List Bool → BitVec w → BitVec w
  | [], c => c
  | digit :: digits, c => forced (times poly c c) fun c => power poly digits (if digit then step poly c else c)

/-- The number with these binary digits. -/
def value (digits : List Bool) : Nat := digits.foldl (fun n digit => if digit then 2 * n + 1 else 2 * n) 0

theorem forced_eq {α : Type} (x : BitVec w) (f : BitVec w → α) : forced x f = f x := by
  unfold forced
  split
  · next zero =>
    have eq : 0#w = x := by rw [← BitVec.toNat_inj, BitVec.toNat_ofNat, Nat.zero_mod, zero]
    rw [eq]
  · next n succ =>
    have eq : n + 1 = x.toNat := succ.symm
    rw [eq, BitVec.ofNat_toNat, BitVec.setWidth_eq]

theorem timesFrom_append (poly c d : BitVec w) (places more : List Nat) (product : BitVec w) :
    timesFrom poly c d (places ++ more) product = timesFrom poly c d more (timesFrom poly c d places product) := by
  induction places generalizing product with
  | nil => rfl
  | cons j places ih =>
    rw [List.cons_append, timesFrom, timesFrom, forced_eq, forced_eq]
    exact ih _

/-- The residue class that the contents stand for. -/
noncomputable def residue (poly c : BitVec w) : AdjoinRoot (generator poly) := AdjoinRoot.mk (generator poly) (contents c)

/-- The class of `X`, by which a step multiplies. -/
noncomputable def root (poly : BitVec w) : AdjoinRoot (generator poly) := AdjoinRoot.root (generator poly)

theorem contents_injective (same : contents c = contents d) : c = d := by
  apply BitVec.eq_of_getMsbD_eq
  intro i _
  have coefficient := congrArg (fun p => p.coeff i) same
  simp only [coeff_contents] at coefficient
  exact bit_injective coefficient

theorem residue_injective (same : residue poly c = residue poly d) : c = d := by
  have multiple : generator poly ∣ contents c - contents d := AdjoinRoot.mk_eq_mk.mp same
  have small : ∀ c : BitVec w, contents c %ₘ generator poly = contents c := fun c =>
    (modByMonic_eq_self_iff generator_monic).mpr (lt_of_lt_of_eq degree_contents degree_generator.symm)
  apply contents_injective
  rw [← small c, ← small d]
  exact modByMonic_eq_of_dvd_sub generator_monic multiple

theorem residue_xor : residue poly (c ^^^ d) = residue poly c + residue poly d := by
  rw [residue, contents_xor, map_add]
  rfl

theorem residue_step : residue poly (step poly c) = root poly * residue poly c := by
  rw [residue, contents_step, map_add, map_mul, map_mul, AdjoinRoot.mk_X, AdjoinRoot.mk_self, mul_zero, add_zero]
  rfl

theorem residue_zero : residue poly 0#w = 0 := by
  have none : contents 0#w = 0 := by
    ext i
    rw [coeff_contents, coeff_zero, BitVec.getMsbD_zero]
    rfl
  rw [residue, none, map_zero]

/-- The contents that stand for one. -/
def unit (w : Nat) : BitVec w := BitVec.twoPow w (w - 1)

theorem residue_unit (wide : 0 < w) (poly : BitVec w) : residue poly (unit w) = 1 := by
  have one : contents (unit w) = 1 := by
    ext i
    rw [coeff_contents, unit, BitVec.getMsbD_twoPow, coeff_one, decide_eq_true (by omega : w - 1 < w), Bool.true_and]
    by_cases first : i = 0
    · rw [if_pos first, decide_eq_true (by omega)]
      rfl
    · rw [if_neg first, decide_eq_false (by omega)]
      rfl
  rw [residue, one, map_one]

theorem ofBits_concat (bits : List Bool) (b : Bool) : ofBits (bits ++ [b]) = X * ofBits bits + C (bit b) := by
  induction bits with
  | nil => simp [ofBits]
  | cons first bits ih =>
    rw [List.cons_append, ofBits, ih, ofBits, List.length_append, List.length_singleton, mul_add, X_mul_monomial, add_assoc]

theorem ofBits_places (d : BitVec w) : ofBits ((List.range w).map d.getLsbD) = contents d := by
  ext i
  rw [coeff_ofBits, coeff_contents, BitVec.getMsbD_eq_getLsbD]
  rcases Nat.lt_or_ge i w with lt | ge
  · rw [List.getElem?_reverse (by simpa using lt), List.length_map, List.length_range, List.getElem?_map,
      List.getElem?_range (by omega), decide_eq_true lt, Bool.true_and]
    rfl
  · rw [List.getElem?_eq_none (by simpa using ge), decide_eq_false (Nat.not_lt.mpr ge), Bool.false_and]
    rfl

theorem residue_timesFrom (j : Nat) : residue poly (timesFrom poly c d (List.range j) 0#w) =
    residue poly c * AdjoinRoot.mk (generator poly) (ofBits ((List.range j).map d.getLsbD)) := by
  induction j with
  | zero => simp [timesFrom, residue_zero, ofBits]
  | succ j ih =>
    have last : residue poly (if d.getLsbD j then c else 0#w) =
        residue poly c * AdjoinRoot.mk (generator poly) (C (bit (d.getLsbD j))) := by
      cases d.getLsbD j <;> simp [bit, residue_zero]
    have once : timesFrom poly c d (List.range (j + 1)) 0#w =
        step poly (timesFrom poly c d (List.range j) 0#w) ^^^ if d.getLsbD j then c else 0#w := by
      rw [List.range_succ, timesFrom_append, timesFrom, forced_eq, timesFrom]
    rw [once, residue_xor, residue_step, ih, last, List.range_succ, List.map_append, List.map_singleton,
      ofBits_concat, map_add, map_mul, AdjoinRoot.mk_X]
    unfold root
    ring

theorem residue_times : residue poly (times poly c d) = residue poly c * residue poly d := by
  rw [times, residue_timesFrom, ofBits_places]
  rfl

theorem residue_power (wide : 0 < w) (digits : List Bool) :
    residue poly (power poly digits (unit w)) = root poly ^ value digits := by
  have fold : ∀ c n, residue poly c = root poly ^ n → residue poly (power poly digits c) =
      root poly ^ digits.foldl (fun n digit => if digit then 2 * n + 1 else 2 * n) n := by
    induction digits with
    | nil => exact fun _ _ same => same
    | cons digit digits ih =>
      intro c n same
      have squared : residue poly (times poly c c) = root poly ^ (2 * n) := by rw [residue_times, same, two_mul, pow_add]
      rw [power, forced_eq]
      apply ih
      cases digit with
      | false => exact squared
      | true =>
        have stepped : residue poly (step poly (times poly c c)) = root poly ^ (2 * n + 1) := by
          rw [residue_step, squared, pow_succ']
        exact stepped
  exact fold _ 0 (residue_unit wide poly)

/-- A power of a step is the identity exactly where its register program gives one back. -/
theorem root_pow_eq_one_iff (wide : 0 < w) (digits : List Bool) :
    root poly ^ value digits = 1 ↔ power poly digits (unit w) = unit w := by
  rw [← residue_power wide, ← residue_unit wide poly]
  exact ⟨residue_injective, congrArg _⟩

end Multiply

section Differences

theorem feeds_eq_iff (last : poly.getMsbD 0 = true) (length : bits.length = bits'.length) :
    feeds poly c bits = feeds poly c bits' ↔ generator poly ∣ ofBits bits - ofBits bits' := by
  have wide : 0 < w := by
    rcases Nat.eq_zero_or_pos w with rfl | pos
    · simp at last
    · exact pos
  have moved : X ^ bits.length * contents c + X ^ w * ofBits bits - (X ^ bits'.length * contents c + X ^ w * ofBits bits') =
      X ^ w * (ofBits bits - ofBits bits') := by
    rw [length]
    ring
  constructor
  · intro same
    have sub := dvd_sub (generator_dvd_feeds poly c bits wide) (generator_dvd_feeds poly c bits' wide)
    rw [same, sub_sub_sub_cancel_right, moved] at sub
    exact (generator_coprime_X last).dvd_of_dvd_mul_left sub
  · intro multiple
    apply contents_injective
    rw [contents_feeds wide, contents_feeds wide]
    refine modByMonic_eq_of_dvd_sub generator_monic ?_
    rw [moved]
    exact dvd_mul_of_dvd_right multiple _

/-- Two bits of a string are flipped. -/
def Flipped (bits bits' : List Bool) (i j : Nat) : Prop := ∀ k, bits[k]? ≠ bits'[k]? ↔ k = i ∨ k = j

theorem bit_sub (a b : Bool) : bit a - bit b = if a ≠ b then 1 else 0 := by cases a <;> cases b <;> decide

theorem ofBits_flipped {i j : Nat} (length : bits.length = bits'.length) (lt : i < j) (inside : j < bits.length)
    (flipped : Flipped bits bits' i j) :
    ofBits bits - ofBits bits' = X ^ (bits.length - 1 - i) - X ^ (bits.length - 1 - j) := by
  ext k
  rw [coeff_sub, coeff_sub, coeff_ofBits, coeff_ofBits, bit_sub, coeff_X_pow, coeff_X_pow]
  have apart : (bits.reverse[k]?.getD false ≠ bits'.reverse[k]?.getD false) ↔
      k = bits.length - 1 - i ∨ k = bits.length - 1 - j := by
    rcases Nat.lt_or_ge k bits.length with below | ge
    · have here := flipped (bits.length - 1 - k)
      have value : ∀ a b : Option Bool, a.isSome = true → b.isSome = true → (a.getD false ≠ b.getD false ↔ a ≠ b) := by
        decide
      rw [List.getElem?_reverse below, List.getElem?_reverse (length ▸ below), ← length]
      rw [value _ _ (by simp; omega) (by simp; omega), here]
      omega
    · rw [List.getElem?_eq_none (by simpa using ge), List.getElem?_eq_none (by simpa [← length] using ge)]
      simp only [ne_eq, not_true_eq_false, false_iff]
      omega
  simp only [apart]
  by_cases first : k = bits.length - 1 - i
  · rw [if_pos (.inl first), if_pos first, if_neg (by omega), sub_zero]
  · by_cases second : k = bits.length - 1 - j
    · rw [if_pos (.inr second), if_neg first, if_pos second]
      decide
    · rw [if_neg (by tauto), if_neg first, if_neg second, sub_zero]

/-- Two flipped bits go unnoticed exactly where their distance is a multiple of the register's order. -/
theorem feeds_flipped (last : poly.getMsbD 0 = true) {i j : Nat} (length : bits.length = bits'.length) (lt : i < j)
    (inside : j < bits.length) (flipped : Flipped bits bits' i j) :
    feeds poly c bits = feeds poly c bits' ↔ orderOf (root poly) ∣ j - i := by
  have shifted : X ^ (bits.length - 1 - i) - X ^ (bits.length - 1 - j) =
      X ^ (bits.length - 1 - j) * (X ^ (j - i) - 1 : (ZMod 2)[X]) := by
    rw [mul_sub, ← pow_add, mul_one, show bits.length - 1 - j + (j - i) = bits.length - 1 - i by omega]
  rw [feeds_eq_iff last length, ofBits_flipped length lt inside flipped, shifted, orderOf_dvd_iff_pow_eq_one]
  have power : root poly ^ (j - i) = 1 ↔ generator poly ∣ X ^ (j - i) - 1 := by
    rw [← AdjoinRoot.mk_eq_mk, map_pow, AdjoinRoot.mk_X, map_one]
    rfl
  rw [power]
  exact ⟨(generator_coprime_X last).dvd_of_dvd_mul_left, fun multiple => dvd_mul_of_dvd_right multiple _⟩

end Differences

end ShiftRegister
