import AvaModule.Lib.Loop
import AvaModule.Lib.SineTable
import Mathlib.Tactic.IntervalCases

/-! The sine and the cosine of util/fastmath.h in exact arithmetic, with the tables and constants as they are
written there. A table read out of its bounds and a conversion that does not fit have no result. -/
namespace AvaModule.FastMath

section Model
variable {K : Type} [Field K] [LinearOrder K] [FloorRing K]

/-- `f32_HOLLYST` -/
def hollyst : K := 0.017453292519943295769236907684886

/-- `SIN_TABLE` -/
def sinTable : List K := [
  0.0,
  0.17364817766693034885171662676931,
  0.34202014332566873304409961468226,
  0.5,
  0.64278760968653932632264340990726,
  0.76604444311897803520239265055542,
  0.86602540378443864676372317075294,
  0.93969262078590838405410927732473,
  0.98480775301220805936674302458952,
  1.0]

/-- `COS_TABLE`, in steps of one degree. -/
def cosTable : List K := [
  1.0,
  0.99984769515639123915701155881391,
  0.99939082701909573000624344004393,
  0.99862953475457387378449205843944,
  0.99756405025982424761316268064426,
  0.99619469809174553229501040247389,
  0.99452189536827333692269194498057,
  0.99254615164132203498006158933058,
  0.99026806874157031508377486734485,
  0.98768834059513772619004024769344]

/-- The value cut towards zero, where an `i32` holds it. -/
def toI32 (x : K) : Option ℤ :=
  let n := if 0 ≤ x then ⌊x⌋ else ⌈x⌉
  if -2 ^ 31 ≤ n ∧ n < 2 ^ 31 then some n else none

def entry (table : List K) (i : ℤ) : Option K := if 0 ≤ i then table[i.toNat]? else none

/-- `while (x >= 360.0f)` -/
def turnDown : Loop K K where
  turn x := some (if x ≥ 360 then .next (x - 360) else .done x)

/-- `while (x < 0.0f)` -/
def turnUp : Loop K K where
  turn x := some (if x < 0 then .next (x + 360) else .done x)

/-- An angle in degrees brought into one turn. -/
def reduce (x : K) : Option K := if x > 0 then turnDown.run x else turnUp.run x

/-- `y` of `fast_sinf`, at an angle of the first quarter in degrees. -/
def quarterSine (x : K) : Option K := do
  let a ← toI32 (x * 0.1)
  let b := x - 10 * a
  let s ← entry sinTable a
  let c ← entry cosTable (← toI32 b)
  let s' ← entry sinTable ((9 - a) % 2 ^ 32)
  return s * c + b * hollyst * s'

/-- `fast_sinf` -/
def fastSinf (x : K) : Option K := do
  let x := x * 57.295779513082320876798154814105
  let x ← reduce x
  let sig : ℤ := if x ≥ 180 then 1 else 0
  let x := if x ≥ 180 then x - 180 else x
  let x := if x > 90 then 180 - x else x
  let y ← quarterSine x
  return if sig > 0 then -y else y

/-- `fast_cosf` -/
def fastCosf (x : K) : Option K := fastSinf (x + 1.5707963267948966192313216916398)

variable {x : K}

theorem toI32_of_digit (low : 0 ≤ x) (high : x < 10) : toI32 x = some ⌊x⌋ := by
  have digit : 0 ≤ ⌊x⌋ := Int.floor_nonneg.mpr low
  have digit' : ⌊x⌋ < 10 := Int.floor_lt.mpr (by simpa using high)
  unfold toI32
  rw [if_pos low]
  exact if_pos ⟨by omega, by omega⟩

variable [IsStrictOrderedRing K]

/-- An angle brought into one turn by whole turns. -/
def Reduced (x y : K) : Prop := 0 ≤ y ∧ y < 360 ∧ ∃ m : ℤ, y = x + m * 360

theorem turnDown_run (positive : 0 ≤ x) : ∃ y, turnDown.run x = some y ∧ Reduced x y := by
  obtain ⟨n, bound⟩ := exists_nat_gt (x / 360)
  have below : x < 360 * n := by linarith
  clear bound
  induction n generalizing x with
  | zero => exact absurd positive (not_le.mpr (by simpa using below))
  | succ n ih =>
    rw [Loop.run_eq]
    by_cases turn : x ≥ 360
    · push_cast at below
      obtain ⟨y, run, low, high, m, turns⟩ := ih (x := x - 360) (by linarith) (by linarith)
      refine ⟨y, by simpa [turnDown, turn] using run, low, high, m - 1, ?_⟩
      rw [turns]
      push_cast
      ring
    · exact ⟨x, by simp [turnDown, turn], positive, not_le.mp turn, 0, by simp⟩

theorem turnUp_run (below : x < 360) : ∃ y, turnUp.run x = some y ∧ Reduced x y := by
  obtain ⟨n, bound⟩ := exists_nat_gt (-x / 360)
  have above : -x ≤ 360 * n := by linarith
  clear bound
  induction n generalizing x with
  | zero =>
    have done : ¬x < 0 := not_lt.mpr (by simpa using above)
    rw [Loop.run_eq]
    exact ⟨x, by simp [turnUp, done], not_lt.mp done, below, 0, by simp⟩
  | succ n ih =>
    rw [Loop.run_eq]
    by_cases turn : x < 0
    · push_cast at above
      obtain ⟨y, run, low, high, m, turns⟩ := ih (x := x + 360) (by linarith) (by linarith)
      refine ⟨y, by simpa [turnUp, turn] using run, low, high, m + 1, ?_⟩
      rw [turns]
      push_cast
      ring
    · exact ⟨x, by simp [turnUp, turn], not_lt.mp turn, below, 0, by simp⟩

/-- The loops end, whatever the angle. -/
theorem reduce_run (x : K) : ∃ y, reduce x = some y ∧ Reduced x y := by
  unfold reduce
  split
  · next positive => exact turnDown_run (le_of_lt positive)
  · next negative => exact turnUp_run (by linarith)

end Model

section Tables
open Real SineTable

theorem degree_powers : degree ^ 2 ≤ 0.00030461742 ∧ 0.00030461741 ≤ degree ^ 2 ∧ degree ^ 3 ≤ 0.00000531657694 ∧
    0.0000053165769 ≤ degree ^ 3 ∧ degree ^ 4 ≤ 0.000000092791775 ∧ degree ^ 5 ≤ 0.0000000016195221 := by
  have low : (0.0174532925199 : ℝ) ≤ degree := by linarith [degree_gt]
  have high : degree ≤ 0.01745329252 := by linarith [degree_lt]
  have positive : 0 ≤ degree := by linarith
  refine ⟨?_, ?_, ?_, ?_, ?_, ?_⟩
  · exact (pow_le_pow_left₀ positive high 2).trans (by norm_num)
  · exact le_trans (by norm_num) (pow_le_pow_left₀ (by norm_num) low 2)
  · exact (pow_le_pow_left₀ positive high 3).trans (by norm_num)
  · exact le_trans (by norm_num) (pow_le_pow_left₀ (by norm_num) low 3)
  · exact (pow_le_pow_left₀ positive high 4).trans (by norm_num)
  · exact (pow_le_pow_left₀ positive high 5).trans (by norm_num)

theorem sin_ten : |(0.17364817766693034885171662676931 : ℝ) - sin (degree * 10)| ≤ 0.000003 := by
  obtain ⟨_, _, cube, cube', _, fifth⟩ := degree_powers
  have low := degree_gt
  have high := degree_lt
  exact sin_close (by linarith) (by linarith) (by linarith) (by linarith)

theorem cosTable_close {j : ℤ} (low : 0 ≤ j) (high : j ≤ 9) :
    ∃ c, entry (cosTable (K := ℝ)) j = some c ∧ |c| ≤ 1 ∧ |c - cos (degree * j)| ≤ 0.000027 := by
  obtain ⟨square, square', -, -, fourth, -⟩ := degree_powers
  have small : |degree * j| ≤ 1 := by
    have most : (j : ℝ) ≤ 9 := by exact_mod_cast high
    have least : (0 : ℝ) ≤ j := by exact_mod_cast low
    have product := mul_le_mul degree_lt.le most least (by norm_num)
    rw [abs_of_nonneg (mul_nonneg degree_pos.le least)]
    exact product.trans (by norm_num)
  interval_cases j <;> refine ⟨_, rfl, by norm_num, cos_close small ?_ ?_⟩ <;> norm_num <;>
    linarith only [square, square', fourth]

theorem cos_ten : |(0.98480775301220805936674302458952 : ℝ) - cos (degree * 10)| ≤ 0.000039 := by
  obtain ⟨square, square', _, _, fourth, _⟩ := degree_powers
  have low := degree_gt
  have high := degree_lt
  exact cos_close (abs_le.mpr ⟨by linarith, by linarith⟩) (by linarith) (by linarith)

theorem sin_thirty : sin (degree * 30) = 1 / 2 := by
  rw [← sin_pi_div_six, degree_eq]
  ring_nf

theorem cos_sixty : cos (degree * 60) = 1 / 2 := by
  rw [← cos_pi_div_three, degree_eq]
  ring_nf

theorem sqrt_three : |(0.86602540378443864676372317075294 : ℝ) - √3 / 2| ≤ 0.000001 := by
  have low : 1.732050 ≤ √3 := le_sqrt_of_sq_le (by norm_num)
  have high : √3 ≤ 1.732051 := sqrt_le_iff.mpr ⟨by norm_num, by norm_num⟩
  exact abs_le.mpr ⟨by linarith, by linarith⟩

theorem cos_thirty : |(0.86602540378443864676372317075294 : ℝ) - cos (degree * 30)| ≤ 0.000001 := by
  have angle : degree * 30 = π / 6 := by
    rw [degree_eq]
    ring
  rw [angle, cos_pi_div_six]
  exact sqrt_three

theorem sin_sixty : |(0.86602540378443864676372317075294 : ℝ) - sin (degree * 60)| ≤ 0.000001 := by
  have angle : degree * 60 = π / 3 := by
    rw [degree_eq]
    ring
  rw [angle, sin_pi_div_three]
  exact sqrt_three

section Sums
variable {p v r s z : ℝ}

/-- Ten degrees away from thirty. -/
theorem thirty_close (cosine : |0.98480775301220805936674302458952 - cos v| ≤ 0.000039)
    (sine : |p - sin v| ≤ 0.000003) (low : |p| ≤ 1) :
    |1 / 2 * 0.98480775301220805936674302458952 + p * 0.86602540378443864676372317075294 -
      sin (degree * 30 + v)| ≤ 0.000043 := by
  have exact : |1 / 2 - sin (degree * 30)| ≤ 0 := by rw [sin_thirty, sub_self, abs_zero]
  have close := addition_close exact cosine cos_thirty sine (by norm_num) low
  norm_num at close ⊢
  exact close

/-- Ten degrees away from sixty. -/
theorem sixty_close (cosine : |0.98480775301220805936674302458952 - cos v| ≤ 0.000039)
    (sine : |p - sin v| ≤ 0.000003) (low : |p| ≤ 1) :
    |0.86602540378443864676372317075294 * 0.98480775301220805936674302458952 + p * (1 / 2) -
      sin (degree * 60 + v)| ≤ 0.000043 := by
  have exact : |1 / 2 - cos (degree * 60)| ≤ 0 := by rw [cos_sixty, sub_self, abs_zero]
  have close := addition_close sin_sixty cosine exact sine (by norm_num) low
  norm_num at close ⊢
  exact close

theorem entry_close (close : |r - sin v| ≤ 0.000043) (angle : z = v) (written : |s - r| ≤ 0.000001) :
    |s - sin z| ≤ 0.000045 := by
  rw [angle]
  exact (abs_sub_le s r (sin v)).trans (by linarith)

end Sums

theorem sinTable_close {a : ℤ} (low : 0 ≤ a) (high : a ≤ 9) :
    ∃ s, entry (sinTable (K := ℝ)) a = some s ∧ |s| ≤ 1 ∧ |s - sin (degree * (10 * a))| ≤ 0.000045 := by
  have back : |(0.98480775301220805936674302458952 : ℝ) - cos (-(degree * 10))| ≤ 0.000039 := by
    rw [cos_neg]
    exact cos_ten
  have back' : |(-0.17364817766693034885171662676931 : ℝ) - sin (-(degree * 10))| ≤ 0.000003 := by
    rw [sin_neg, neg_sub_neg, abs_sub_comm]
    exact sin_ten
  have zero : sin (degree * 0) = 0 := by rw [mul_zero, sin_zero]
  have ninety : sin (degree * 90) = 1 := by
    rw [← sin_pi_div_two, degree_eq]
    ring_nf
  interval_cases a
  · exact ⟨_, rfl, by norm_num, entry_close (r := 0) (by rw [zero]; norm_num) (by norm_num) (by norm_num)⟩
  · exact ⟨_, rfl, by norm_num, entry_close (sin_ten.trans (by norm_num)) (by norm_num) (by norm_num)⟩
  · exact ⟨_, rfl, by norm_num,
      entry_close (thirty_close back back' (by norm_num)) (by push_cast; ring) (by norm_num)⟩
  · exact ⟨_, rfl, by norm_num,
      entry_close (r := 1 / 2) (by rw [sin_thirty]; norm_num) (by norm_num) (by norm_num)⟩
  · exact ⟨_, rfl, by norm_num,
      entry_close (thirty_close cos_ten sin_ten (by norm_num)) (by push_cast; ring) (by norm_num)⟩
  · exact ⟨_, rfl, by norm_num,
      entry_close (sixty_close back back' (by norm_num)) (by push_cast; ring) (by norm_num)⟩
  · exact ⟨_, rfl, by norm_num, entry_close (sin_sixty.trans (by norm_num)) (by norm_num) (by norm_num)⟩
  · exact ⟨_, rfl, by norm_num,
      entry_close (sixty_close cos_ten sin_ten (by norm_num)) (by push_cast; ring) (by norm_num)⟩
  · have eighty : sin (degree * 80) = cos (degree * 10) := by
      rw [← sin_pi_div_two_sub, degree_eq]
      ring_nf
    exact ⟨_, rfl, by norm_num,
      entry_close (by rw [eighty]; exact cos_ten.trans (by norm_num)) (by norm_num) (by norm_num)⟩
  · exact ⟨_, rfl, by norm_num,
      entry_close (r := 1) (by rw [ninety]; norm_num) (by norm_num) (by norm_num)⟩

theorem cosTable_lower {j : ℤ} {b : ℝ} (low : 0 ≤ j) (high : j ≤ 9) (lower : j ≤ b) (upper : b < j + 1) :
    |cos (degree * j) - cos (degree * b)| ≤ 0.002894 := by
  have least : (0 : ℝ) ≤ j := by exact_mod_cast low
  have most : (j : ℝ) ≤ 9 := by exact_mod_cast high
  have squares : b ^ 2 - j ^ 2 ≤ 19 := by nlinarith
  have bound := cos_lower (mul_nonneg degree_pos.le least) (mul_le_mul_of_nonneg_left lower degree_pos.le)
  calc |cos (degree * j) - cos (degree * b)| ≤ ((degree * b) ^ 2 - (degree * j) ^ 2) / 2 := bound
    _ = degree ^ 2 * (b ^ 2 - j ^ 2) / 2 := by ring
    _ ≤ degree ^ 2 * 19 / 2 := by gcongr
    _ ≤ 0.002894 := by linarith [degree_powers.1]

theorem hollyst_close {b : ℝ} (low : 0 ≤ b) (high : b ≤ 10) : |b * hollyst - sin (degree * b)| ≤ 0.00089 := by
  obtain ⟨_, _, cube, _, _, fifth⟩ := degree_powers
  have positive := mul_nonneg degree_pos.le low
  have angle : degree * b ≤ degree * 10 := mul_le_mul_of_nonneg_left high degree_pos.le
  have cube' := pow_le_pow_left₀ positive angle 3
  have fifth' := pow_le_pow_left₀ positive angle 5
  have series := angle_close positive (by linarith [degree_lt])
  have factor : |hollyst - degree| ≤ 0.00000001 := by
    unfold hollyst
    exact abs_le.mpr ⟨by linarith [degree_lt], by linarith [degree_gt]⟩
  have moved : |b * hollyst - degree * b| ≤ 10 * 0.00000001 := by
    rw [mul_comm degree, ← mul_sub, abs_mul, abs_of_nonneg low]
    exact mul_le_mul high factor (abs_nonneg _) (by norm_num)
  exact (abs_sub_le _ (degree * b) _).trans (by linarith)

/-- The tables are read inside of their bounds, and the sum is close to the sine. -/
theorem quarterSine_close {x : ℝ} (low : 0 ≤ x) (high : x ≤ 90) :
    ∃ y, quarterSine x = some y ∧ |y - sin (degree * x)| ≤ 0.00391 := by
  have tens : toI32 (x * 0.1) = some ⌊x * 0.1⌋ := toI32_of_digit (by linarith) (by linarith)
  have a_low : 0 ≤ ⌊x * 0.1⌋ := Int.floor_nonneg.mpr (by linarith)
  have a_high : ⌊x * 0.1⌋ ≤ 9 := Int.floor_le_iff.mpr (by norm_num; linarith)
  have floor := Int.floor_le (x * 0.1)
  have floor' := Int.lt_floor_add_one (x * 0.1)
  unfold quarterSine
  rw [tens]
  generalize ⌊x * 0.1⌋ = a at *
  have b_low : 0 ≤ x - 10 * a := by linarith
  have b_high : x - 10 * a < 10 := by linarith
  have ones := toI32_of_digit b_low b_high
  have sum : degree * x = degree * (10 * a) + degree * (x - 10 * a) := by ring
  generalize b_eq : x - 10 * (a : ℝ) = b at *
  obtain ⟨s, s_eq, _, sine⟩ := sinTable_close a_low a_high
  have j_low : 0 ≤ ⌊b⌋ := Int.floor_nonneg.mpr b_low
  have j_high : ⌊b⌋ ≤ 9 := Int.floor_le_iff.mpr (by norm_num; linarith)
  obtain ⟨c, c_eq, c_low, cosine⟩ := cosTable_close j_low j_high
  obtain ⟨r, r_eq, r_low, sine'⟩ := sinTable_close (a := 9 - a) (by omega) (by omega)
  have index : (9 - a) % 2 ^ 32 = 9 - a := Int.emod_eq_of_lt (by omega) (by omega)
  have across : sin (degree * (10 * (9 - a : ℤ))) = cos (degree * (10 * a)) := by
    rw [← sin_pi_div_two_sub, degree_eq]
    push_cast
    ring_nf
  have lower := cosTable_lower j_low j_high (Int.floor_le b) (Int.lt_floor_add_one b)
  have cosine' := (abs_sub_le c _ (cos (degree * b))).trans (add_le_add cosine lower)
  have angle := hollyst_close b_low b_high.le
  have angle_low : |b * hollyst| ≤ 1 := by
    unfold hollyst
    exact abs_le.mpr ⟨by linarith, by linarith⟩
  rw [across] at sine'
  have close := addition_close sine cosine' sine' angle c_low angle_low
  refine ⟨s * c + b * hollyst * r, ?_, ?_⟩
  · simp only [b_eq, ones, s_eq, c_eq, index, r_eq, Option.pure_def, Option.bind_eq_bind, Option.bind_some]
  · rw [sum]
    exact close.trans (by norm_num)

theorem degree_half : degree * 180 = π := by
  rw [degree_eq]
  ring

/-- The second quarter is folded onto the first. -/
theorem folded_close {x : ℝ} (low : 0 ≤ x) (high : x ≤ 180) :
    ∃ y, quarterSine (if x > 90 then 180 - x else x) = some y ∧ |y - sin (degree * x)| ≤ 0.00391 := by
  split
  · next above =>
    have folded : sin (degree * (180 - x)) = sin (degree * x) := by rw [mul_sub, degree_half, sin_pi_sub]
    rw [← folded]
    exact quarterSine_close (by linarith) (by linarith)
  · next below => exact quarterSine_close low (not_lt.mp below)

theorem sin_reduced {x z : ℝ} (reduced : Reduced x z) : sin (degree * z) = sin (degree * x) := by
  obtain ⟨_, _, m, turns⟩ := reduced
  have whole : degree * z = degree * x + m * (2 * π) := by
    rw [turns, ← degree_half]
    ring
  rw [whole, sin_add_int_mul_two_pi]

theorem scaled_close {x : ℝ} (range : |x| ≤ 1002) :
    |sin (degree * (x * 57.295779513082320876798154814105)) - sin x| ≤ 0.00001 := by
  have factor : |degree * 57.295779513082320876798154814105 - 1| ≤ 0.000000001 :=
    abs_le.mpr ⟨by linarith [degree_gt], by linarith [degree_lt]⟩
  have moved : degree * (x * 57.295779513082320876798154814105) - x =
      x * (degree * 57.295779513082320876798154814105 - 1) := by ring
  refine (abs_sin_sub_sin_le _ _).trans ?_
  rw [moved, abs_mul]
  exact (mul_le_mul range factor (abs_nonneg _) (by norm_num)).trans (by norm_num)

theorem fastSinf_close {x : ℝ} (range : |x| ≤ 1002) : ∃ y, fastSinf x = some y ∧ |y - sin x| ≤ 0.00393 := by
  have scaled := scaled_close range
  unfold fastSinf
  generalize x * 57.295779513082320876798154814105 = d at *
  obtain ⟨z, run, reduced⟩ := reduce_run d
  have same := sin_reduced reduced
  obtain ⟨z_low, z_high, _⟩ := reduced
  rw [← same] at scaled
  by_cases second : z ≥ 180
  · have half : sin (degree * (z - 180)) = -sin (degree * z) := by rw [mul_sub, degree_half, sin_sub_pi]
    obtain ⟨y, y_eq, close⟩ := folded_close (x := z - 180) (by linarith) (by linarith)
    rw [half, sub_neg_eq_add] at close
    refine ⟨-y, by simp [run, second, y_eq], ?_⟩
    have flipped : |-y - sin (degree * z)| ≤ 0.00391 := by
      rw [← neg_add', abs_neg]
      exact close
    exact (abs_sub_le _ (sin (degree * z)) _).trans (by linarith)
  · obtain ⟨y, y_eq, close⟩ := folded_close z_low (by linarith)
    refine ⟨y, by simp [run, second, y_eq], ?_⟩
    exact (abs_sub_le _ (sin (degree * z)) _).trans (by linarith)

theorem quarter_turn_close (x : ℝ) : |sin (x + 1.5707963267948966192313216916398) - cos x| ≤ 0.00001 := by
  rw [← sin_add_pi_div_two]
  refine (abs_sin_sub_sin_le _ _).trans ?_
  rw [add_sub_add_left_eq_sub]
  exact abs_le.mpr ⟨by linarith [pi_lt_d20], by linarith [pi_gt_d20]⟩

/-- Both functions return, and are within 0.004 of the sine and the cosine. -/
theorem fast_sin_cos_close {x : ℝ} (range : |x| ≤ 1000) :
    (∃ y, fastSinf x = some y ∧ |y - sin x| ≤ 0.004) ∧ ∃ y, fastCosf x = some y ∧ |y - cos x| ≤ 0.004 := by
  obtain ⟨low, high⟩ := abs_le.mp range
  obtain ⟨y, y_eq, close⟩ := fastSinf_close (x := x) (by linarith)
  obtain ⟨z, z_eq, close'⟩ := fastSinf_close (x := x + 1.5707963267948966192313216916398)
    (abs_le.mpr ⟨by linarith, by linarith⟩)
  refine ⟨⟨y, y_eq, close.trans (by norm_num)⟩, z, z_eq, ?_⟩
  exact (abs_sub_le _ _ _).trans ((add_le_add close' (quarter_turn_close x)).trans (by norm_num))

theorem fast_sin_cos_one :
    (∃ y, fastSinf (1 : ℝ) = some y ∧ |y - sin 1| ≤ 0.004) ∧ ∃ y, fastCosf (1 : ℝ) = some y ∧ |y - cos 1| ≤ 0.004 :=
  fast_sin_cos_close (by norm_num)

end Tables

end AvaModule.FastMath
