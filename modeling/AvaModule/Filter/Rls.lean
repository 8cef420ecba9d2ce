import Mathlib.Algebra.BigOperators.Fin
import Mathlib.Data.Matrix.Mul
import Mathlib.Tactic.FieldSimp
import Mathlib.Tactic.LinearCombination

/-! filter/rls.h with exact arithmetic. The arrays of `MAX_ORDER` cells are functions, of which an order from one to
`MAX_ORDER` uses the first cells; `delta` is never read. -/
namespace AvaModule.RlsFilter
open Matrix

variable {K : Type} [Field K]

/-- `cfg`, `in`, `out` and `lo` of `rls_filter_t`; `inX` is the `x` of `in`. -/
structure Rls (K : Type) where
  order : Nat
  lambda : K
  inX : K
  ref : K
  yHat : K
  err : K
  denom : K
  w : Nat → K
  x : Nat → K
  p : Nat → Nat → K
  px : Nat → K
  k : Nat → K
  temp : Nat → Nat → K
  xtp : Nat → K

def rlsInit (rls : Rls K) (order : Nat) (lambda : K) : Rls K := { rls with order, lambda }

/-- `x[i] = x[i - 1]` from a last cell down to the first. -/
def shift (x : Nat → K) : Nat → Nat → K
  | 0 => x
  | i + 1 => shift (Function.update x (i + 1) (x i)) i

/-- `acc += f[i]` in a loop. -/
def addUp (acc : K) (order : Nat) (f : Nat → K) : K := (List.range order).foldl (fun acc i => acc + f i) acc

/-- A loop that stores one cell in each turn. -/
def each (order : Nat) (old new : Nat → K) (i : Nat) : K := if i < order then new i else old i

def eachCell (order : Nat) (old new : Nat → Nat → K) (i j : Nat) : K :=
  if i < order ∧ j < order then new i j else old i j

def rlsExec (rls : Rls K) : Rls K :=
  let order := rls.order
  let x := Function.update (shift rls.x (order - 1)) 0 rls.inX
  let yHat := addUp rls.yHat order fun i => rls.w i * x i
  let err := rls.ref - yHat
  let px := each order rls.px fun i => addUp (rls.px i) order fun j => rls.p i j * x j
  let denom := addUp rls.denom order fun i => x i * px i
  let k := each order rls.k fun i => px i / denom
  let w := each order rls.w fun i => rls.w i + k i * err
  let xtp := each order rls.xtp fun j => addUp (rls.xtp j) order fun i => x i * rls.p i j
  let temp := eachCell order rls.temp fun i j => k i * xtp j
  let p := eachCell order rls.p fun i j => (rls.p i j - temp i j) / rls.lambda
  { rls with yHat, err, denom, w, x, p, px, k, temp, xtp }

/-- The state in which a call starts: `in` is stored to first. -/
def feed (rls : Rls K) (input : K × K) : Rls K := { rls with inX := input.1, ref := input.2 }

def rlsRun (rls : Rls K) (input : Nat → K × K) : Nat → Rls K
  | 0 => rls
  | n + 1 => rlsExec (feed (rlsRun rls input n) (input n))

/-- The cells of an array that are in use, as a vector. -/
def vec (n : Nat) (a : Nat → K) : Fin n → K := fun i => a i

def mat (n : Nat) (a : Nat → Nat → K) : Matrix (Fin n) (Fin n) K := fun i j => a i j

/-- The last inputs, the newest one first. -/
def regressor (rls : Rls K) : Fin rls.order → K := fun i => if i.val = 0 then rls.inX else rls.x (i - 1)

def divisor (lambda : K) (P : Matrix (Fin n) (Fin n) K) (x : Fin n → K) : K := lambda + x ⬝ᵥ P *ᵥ x

def gain (lambda : K) (P : Matrix (Fin n) (Fin n) K) (x : Fin n → K) : Fin n → K :=
  fun i => (P *ᵥ x) i / divisor lambda P x

/-- The divisor of the update is not zero. -/
def Regular (rls : Rls K) : Prop := divisor rls.lambda (mat rls.order rls.p) (regressor rls) ≠ 0

/-- A call makes the recursive least squares update, and divides by no zero. -/
structure RlsUpdate (before after : Rls K) : Prop where
  regressor : vec before.order after.x = regressor before
  prediction : after.yHat = vec before.order before.w ⬝ᵥ RlsFilter.regressor before
  divides : after.denom ≠ 0 ∧ before.lambda ≠ 0
  gain : vec before.order after.k = gain before.lambda (mat before.order before.p) (RlsFilter.regressor before)
  weights : vec before.order after.w = vec before.order before.w + (before.ref - after.yHat) • vec before.order after.k
  inverse : mat before.order after.p = before.lambda⁻¹ • (mat before.order before.p -
    vecMulVec (vec before.order after.k) (RlsFilter.regressor before ᵥ* mat before.order before.p))

/-- `lambda` is not zero, and what earlier calls have left in the sums does no harm: `yHat` and `xtp` start from zero,
`denom` from `lambda` and `px` from zero, but for a common factor of the last two. -/
structure Cleared (rls : Rls K) : Prop where
  lambda : rls.lambda ≠ 0
  yHat : rls.yHat = 0
  factor : ∃ c : K, 1 + c ≠ 0 ∧ vec rls.order rls.px = c • (mat rls.order rls.p *ᵥ regressor rls) ∧
    rls.denom = (1 + c) * rls.lambda
  xtp : mat rls.order rls.p *ᵥ regressor rls = 0 ∨ vec rls.order rls.xtp = 0

section Loops
variable {n : Nat} {i : Fin n}

omit [Field K] in
@[simp] theorem vec_apply (a : Nat → K) (i : Fin n) : vec n a i = a i := rfl

omit [Field K] in
@[simp] theorem mat_apply (a : Nat → Nat → K) (i j : Fin n) : mat n a i j = a i j := rfl

omit [Field K] in
@[simp] theorem vec_each (old new : Nat → K) : vec n (each n old new) = vec n new := by
  funext i
  exact if_pos i.isLt

omit [Field K] in
@[simp] theorem mat_eachCell (old new : Nat → Nat → K) : mat n (eachCell n old new) = mat n new := by
  funext i j
  exact if_pos ⟨i.isLt, j.isLt⟩

theorem addUp_eq (acc : K) (f : Nat → K) : addUp acc n f = acc + ∑ i : Fin n, f i := by
  rw [← Finset.sum_range]
  induction n with
  | zero => exact (add_zero acc).symm
  | succ n ih =>
    rw [Finset.sum_range_succ, ← add_assoc, ← ih, addUp, List.range_succ, List.foldl_append]
    rfl

/-- A scalar product as a loop. -/
theorem addUp_dot (acc : K) (a b : Nat → K) : addUp acc n (fun i => a i * b i) = acc + vec n a ⬝ᵥ vec n b :=
  addUp_eq acc fun i => a i * b i

omit [Field K] in
/-- The cells are moved before they are stored to. -/
theorem shift_eq (x : Nat → K) (last i : Nat) : shift x last i = if i = 0 ∨ last < i then x i else x (i - 1) := by
  induction last generalizing x with
  | zero =>
    rw [shift, if_pos]
    omega
  | succ last ih =>
    rw [shift, ih]
    by_cases moved : i = last + 1
    · subst moved
      rw [if_pos (by omega), if_neg (by omega), Function.update_self, Nat.add_sub_cancel]
    · by_cases kept : i = 0 ∨ last < i
      · rw [if_pos kept, if_pos (by omega), Function.update_of_ne moved]
      · rw [if_neg kept, if_neg (by omega), Function.update_of_ne (by omega)]

end Loops

section Exec
variable (rls : Rls K)

/-- The products of a call, from the cells in use. -/
theorem rlsExec_x : vec rls.order (rlsExec rls).x = regressor rls := by
  funext i
  have inside := i.isLt
  simp only [vec_apply, rlsExec, regressor]
  by_cases first : i.val = 0
  · rw [first, Function.update_self, if_pos rfl]
  · rw [Function.update_of_ne first, shift_eq, if_neg (by omega), if_neg first]

theorem rlsExec_yHat : (rlsExec rls).yHat = rls.yHat + vec rls.order rls.w ⬝ᵥ regressor rls := by
  rw [← rlsExec_x, ← addUp_dot]
  rfl

theorem rlsExec_px :
    vec rls.order (rlsExec rls).px = vec rls.order rls.px + mat rls.order rls.p *ᵥ regressor rls := by
  rw [← rlsExec_x]
  funext i
  exact (congrFun (vec_each rls.px _) i).trans (addUp_dot (rls.px i) (rls.p i) _)

theorem rlsExec_denom : (rlsExec rls).denom = rls.denom + regressor rls ⬝ᵥ vec rls.order (rlsExec rls).px := by
  rw [← rlsExec_x, ← addUp_dot]
  rfl

theorem rlsExec_k : vec rls.order (rlsExec rls).k = fun i => vec rls.order (rlsExec rls).px i / (rlsExec rls).denom :=
  vec_each rls.k _

theorem rlsExec_w : vec rls.order (rlsExec rls).w =
    vec rls.order rls.w + (rls.ref - (rlsExec rls).yHat) • vec rls.order (rlsExec rls).k := by
  refine (vec_each rls.w _).trans ?_
  funext i
  exact congrArg (rls.w i + ·) (mul_comm _ _)

theorem rlsExec_xtp :
    vec rls.order (rlsExec rls).xtp = vec rls.order rls.xtp + regressor rls ᵥ* mat rls.order rls.p := by
  rw [← rlsExec_x]
  funext j
  exact (congrFun (vec_each rls.xtp _) j).trans (addUp_dot (rls.xtp j) _ fun i => rls.p i j)

theorem rlsExec_p : mat rls.order (rlsExec rls).p = rls.lambda⁻¹ • (mat rls.order rls.p -
    vecMulVec (vec rls.order (rlsExec rls).k) (vec rls.order (rlsExec rls).xtp)) := by
  have temp : mat rls.order (rlsExec rls).temp =
      vecMulVec (vec rls.order (rlsExec rls).k) (vec rls.order (rlsExec rls).xtp) := mat_eachCell rls.temp _
  rw [← temp]
  refine (mat_eachCell rls.p _).trans ?_
  ext i j
  exact div_eq_inv_mul _ _

end Exec

section Law
variable {rls : Rls K}

/-- The leftovers that are a multiple of what is added to them change the gain by nothing. -/
theorem gain_iff {n : Nat} {lambda denom : K} {px Px x : Fin n → K} (regular : lambda + x ⬝ᵥ Px ≠ 0) :
    (denom + x ⬝ᵥ (px + Px) ≠ 0 ∧ ∀ i, (px + Px) i / (denom + x ⬝ᵥ (px + Px)) = Px i / (lambda + x ⬝ᵥ Px)) ↔
      ∃ c : K, 1 + c ≠ 0 ∧ px = c • Px ∧ denom = (1 + c) * lambda := by
  constructor
  · rintro ⟨divides, same⟩
    let r := (denom + x ⬝ᵥ (px + Px)) / (lambda + x ⬝ᵥ Px)
    have scaled : px + Px = r • Px := by
      funext i
      have quotient := same i
      rw [div_eq_div_iff divides regular] at quotient
      rw [Pi.smul_apply, smul_eq_mul, div_mul_eq_mul_div, eq_div_iff regular, quotient, mul_comm]
    have total : denom + r * (x ⬝ᵥ Px) = r * (lambda + x ⬝ᵥ Px) := by
      rw [← smul_eq_mul, ← dotProduct_smul, ← scaled, div_mul_cancel₀ _ regular]
    refine ⟨r - 1, ?_, ?_, ?_⟩
    · rw [add_sub_cancel]
      exact div_ne_zero divides regular
    · rw [sub_smul, one_smul, ← scaled, add_sub_cancel_right]
    · rw [add_sub_cancel]
      linear_combination total
  · rintro ⟨c, nonzero, rfl, rfl⟩
    have scaled : c • Px + Px = (1 + c) • Px := by rw [add_smul, one_smul, add_comm]
    have total : (1 + c) * lambda + x ⬝ᵥ (c • Px + Px) = (1 + c) * (lambda + x ⬝ᵥ Px) := by
      rw [scaled, dotProduct_smul, smul_eq_mul, mul_add]
    rw [total]
    refine ⟨mul_ne_zero nonzero regular, fun i => ?_⟩
    rw [scaled, Pi.smul_apply, smul_eq_mul, mul_div_mul_left _ _ nonzero]

theorem inverse_iff {n : Nat} {lambda : K} {P : Matrix (Fin n) (Fin n) K} {k xtp xP : Fin n → K} (nonzero : lambda ≠ 0) :
    lambda⁻¹ • (P - vecMulVec k (xtp + xP)) = lambda⁻¹ • (P - vecMulVec k xP) ↔ k = 0 ∨ xtp = 0 := by
  rw [(IsUnit.mk0 _ (inv_ne_zero nonzero)).smul_left_cancel, sub_right_inj, vecMulVec_add, add_eq_right, vecMulVec_eq_zero]

theorem gain_eq_zero {n : Nat} {lambda : K} {P : Matrix (Fin n) (Fin n) K} {x : Fin n → K}
    (regular : divisor lambda P x ≠ 0) : gain lambda P x = 0 ↔ P *ᵥ x = 0 := by
  simp only [funext_iff, gain, Pi.zero_apply, div_eq_zero_iff, regular, or_false]

/-- One call, from any state: the update is made exactly where the leftovers do no harm. -/
theorem rlsUpdate_iff (regular : Regular rls) :
    RlsUpdate rls (rlsExec rls) ↔ Cleared rls := by
  have divided : (rlsExec rls).denom ≠ 0 ∧
      vec rls.order (rlsExec rls).k = gain rls.lambda (mat rls.order rls.p) (regressor rls) ↔
        ∃ c : K, 1 + c ≠ 0 ∧ vec rls.order rls.px = c • (mat rls.order rls.p *ᵥ regressor rls) ∧
          rls.denom = (1 + c) * rls.lambda := by
    rw [rlsExec_k, rlsExec_denom, rlsExec_px, funext_iff]
    exact gain_iff regular
  constructor
  · intro law
    refine ⟨law.divides.2, ?_, divided.mp ⟨law.divides.1, law.gain⟩, ?_⟩
    · have prediction := law.prediction
      rwa [rlsExec_yHat, add_eq_right] at prediction
    · have inverse := law.inverse
      rwa [rlsExec_p, rlsExec_xtp, inverse_iff law.divides.2, law.gain, gain_eq_zero regular] at inverse
  · intro cleared
    obtain ⟨divides, same⟩ := divided.mpr cleared.factor
    refine ⟨rlsExec_x rls, ?_, ⟨divides, cleared.lambda⟩, same, rlsExec_w rls, ?_⟩
    · rw [rlsExec_yHat, cleared.yHat, zero_add]
    · rw [rlsExec_p, rlsExec_xtp, inverse_iff cleared.lambda, same, gain_eq_zero regular]
      exact cleared.xtp

/-- A filter that starts from zeroed sums is wrong in its first call. -/
theorem not_update_of_zeroed (regular : Regular rls) (zeroed : rls.denom = 0) : ¬ RlsUpdate rls (rlsExec rls) := by
  intro law
  obtain ⟨lambda, -, ⟨c, nonzero, -, denom⟩, -⟩ := (rlsUpdate_iff regular).mp law
  rw [zeroed] at denom
  exact mul_ne_zero nonzero lambda denom.symm

/-- A call that follows one with a prediction other than zero is wrong. -/
theorem RlsUpdate.yHat_eq (law : RlsUpdate rls (rlsExec rls)) : rls.yHat = 0 := by
  have prediction := law.prediction
  rwa [rlsExec_yHat, add_eq_right] at prediction

theorem Cleared.of_zero (lambda : rls.lambda ≠ 0) (yHat : rls.yHat = 0) (px : vec rls.order rls.px = 0)
    (denom : rls.denom = rls.lambda) (xtp : vec rls.order rls.xtp = 0) : Cleared rls where
  lambda := lambda
  yHat := yHat
  factor := ⟨0, by simp, by rw [px, zero_smul], by rw [denom, add_zero, one_mul]⟩
  xtp := Or.inr xtp

/-- Every call of a run makes the update exactly where no call starts from leftovers that do harm. -/
theorem rls_run_iff (rls : Rls K) (input : Nat → K × K) (count : Nat)
    (regular : ∀ n < count, Regular (feed (rlsRun rls input n) (input n))) :
    (∀ n < count, RlsUpdate (feed (rlsRun rls input n) (input n)) (rlsRun rls input (n + 1))) ↔
      ∀ n < count, Cleared (feed (rlsRun rls input n) (input n)) := by
  constructor
  · intro law n lt
    exact (rlsUpdate_iff (regular n lt)).mp (law n lt)
  · intro cleared n lt
    exact (rlsUpdate_iff (regular n lt)).mpr (cleared n lt)

def zeroed : Rls ℚ :=
  ⟨0, 0, 0, 0, 0, 0, 0, fun _ => 0, fun _ => 0, fun _ _ => 0, fun _ => 0, fun _ => 0, fun _ _ => 0, fun _ => 0⟩

/-- A filter of order one whose sums start as they should, with one weight. -/
def first : Rls ℚ := { rlsInit zeroed 1 1 with denom := 1, w := fun _ => 1, p := fun _ _ => 1 }

/-- One is predicted and met, and in the next call two is predicted. -/
theorem second_call_off : ¬ ∀ n < 2, RlsUpdate (feed (rlsRun first (fun _ => (1, 1)) n) (1, 1))
    (rlsRun first (fun _ => (1, 1)) (n + 1)) := by
  intro law
  have zero := (law 1 (by decide)).yHat_eq
  exact absurd zero (by decide +kernel)

theorem rls_run_iff_one : RlsUpdate (feed first (1, 3)) (rlsRun first (fun _ => (1, 3)) 1) := by
  refine (rls_run_iff first (fun _ => (1, 3)) 1 ?_).mpr ?_ 0 Nat.zero_lt_one
  · intro n lt
    obtain rfl : n = 0 := by omega
    unfold Regular
    decide +kernel
  · intro n lt
    obtain rfl : n = 0 := by omega
    exact Cleared.of_zero one_ne_zero rfl rfl rfl rfl

end Law

end AvaModule.RlsFilter
