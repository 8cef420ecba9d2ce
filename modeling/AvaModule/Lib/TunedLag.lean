import Mathlib.Algebra.Order.Field.Basic
import Mathlib.Algebra.Ring.GeomSum
import Mathlib.Tactic.FieldSimp
import Mathlib.Tactic.Linarith
import Mathlib.Tactic.Positivity
import Mathlib.Tactic.Ring

/-! A first-order lag, sampled backwards, under a proportional and integral controller whose zero lies on the pole of the
lag. What the integral is ahead of the lag decays at the lag's own rate, and the error at the rate of the controller. -/
namespace TunedLag

/-- The resistance and the inductance of the lag, and the bandwidth and the sampling time of its controller. -/
structure Plan (K : Type*) where
  r : K
  l : K
  w : K
  t : K

/-- The value of the lag at a sample, and the integral before it. -/
structure Loop (K : Type*) where
  i : K
  sum : K

variable {K : Type*} [Field K]

namespace Plan
variable (p : Plan K) (ref : K)

/-- The impedance of the lag over a sample. -/
def z : K := p.l + p.r * p.t

/-- The integral, and the whole output of the controller, at a sample. -/
def sum (s : Loop K) : K := s.sum + p.w * p.r * (ref - s.i) * p.t

def volt (s : Loop K) : K := p.w * p.l * (ref - s.i) + p.sum ref s

def next (s : Loop K) : Loop K := ⟨(p.l * s.i + p.t * p.volt ref s) / p.z, p.sum ref s⟩

/-- What the integral is ahead of the lag. -/
def ahead (s : Loop K) : K := s.sum - p.r * s.i

variable {p} {s : Loop K}

/-- The zero of the controller takes the pole of the lag away. -/
theorem ahead_next (z : p.z ≠ 0) : p.ahead (p.next ref s) = p.l / p.z * p.ahead s := by
  simp only [ahead, next, volt, sum]
  field_simp
  rw [Plan.z]
  ring

theorem err_next (z : p.z ≠ 0) :
    ref - (p.next ref s).i = (1 - p.w * p.t) * (ref - s.i) - p.t / p.z * p.ahead s := by
  simp only [ahead, next, volt, sum]
  field_simp
  rw [Plan.z]
  ring

theorem ahead_run (z : p.z ≠ 0) (n : Nat) : p.ahead ((p.next ref)^[n] s) = (p.l / p.z) ^ n * p.ahead s := by
  induction n with
  | zero => rw [Function.iterate_zero_apply, pow_zero, one_mul]
  | succ n ih => rw [Function.iterate_succ_apply', ahead_next ref z, ih, pow_succ', mul_assoc]

/-- The error of a run: that of the start dies out at the rate of the controller, and what the integral was ahead by is
worked off at both rates. -/
theorem err_run (z : p.z ≠ 0) (n : Nat) :
    ref - ((p.next ref)^[n] s).i = (1 - p.w * p.t) ^ n * (ref - s.i) -
      p.t / p.z * p.ahead s * ∑ k ∈ Finset.range n, (p.l / p.z) ^ k * (1 - p.w * p.t) ^ (n - 1 - k) := by
  induction n with
  | zero => simp
  | succ n ih =>
    have shift : ∑ k ∈ Finset.range n, (p.l / p.z) ^ k * (1 - p.w * p.t) ^ (n + 1 - 1 - k) =
        (1 - p.w * p.t) * ∑ k ∈ Finset.range n, (p.l / p.z) ^ k * (1 - p.w * p.t) ^ (n - 1 - k) := by
      rw [Finset.mul_sum]
      refine Finset.sum_congr rfl fun k mem => ?_
      have below := Finset.mem_range.mp mem
      rw [show n + 1 - 1 - k = n - 1 - k + 1 by omega, pow_succ]
      ring
    rw [Function.iterate_succ_apply', err_next ref z, ih, ahead_run ref z, Finset.sum_range_succ, shift, Nat.add_sub_cancel,
      Nat.sub_self, pow_zero, pow_succ']
    ring

end Plan

section Ordered
variable [LinearOrder K] [IsStrictOrderedRing K]

/-- A lag with losses, and a controller no faster than its samples. -/
structure Plan.Sound (p : Plan K) : Prop where
  r : 0 < p.r
  l : 0 < p.l
  t : 0 < p.t
  w : 0 ≤ p.w
  slow : p.w * p.t ≤ 1

variable {p : Plan K} {s : Loop K}

/-- The most that the error can become. -/
def Plan.reach (p : Plan K) (ref : K) (s : Loop K) : K := |ref - s.i| + |p.ahead s| / p.r

/-- The most that the controller can ask for. -/
def Plan.demand (p : Plan K) (ref : K) (s : Loop K) : K :=
  p.r * |ref| + (p.w * p.z + p.r) * p.reach ref s + |p.ahead s|

namespace Plan.Sound
variable (sound : p.Sound) (ref : K)
include sound

theorem z_pos : 0 < p.z := add_pos sound.l (mul_pos sound.r sound.t)

theorem rate_nonneg : 0 ≤ 1 - p.w * p.t := sub_nonneg.mpr sound.slow

theorem rate_le : 1 - p.w * p.t ≤ 1 := sub_le_self _ (mul_nonneg sound.w sound.t.le)

/-- The error and what the integral is ahead by never exceed their start together. -/
theorem reach_next : p.reach ref (p.next ref s) ≤ p.reach ref s := by
  have z := sound.z_pos
  have r := sound.r
  have share : |p.ahead (p.next ref s)| = p.l / p.z * |p.ahead s| := by
    rw [ahead_next ref z.ne', abs_mul, abs_of_pos (div_pos sound.l z)]
  have err : |ref - (p.next ref s).i| ≤ |ref - s.i| + p.t / p.z * |p.ahead s| := by
    rw [err_next ref z.ne']
    calc |(1 - p.w * p.t) * (ref - s.i) - p.t / p.z * p.ahead s|
        ≤ |(1 - p.w * p.t) * (ref - s.i)| + |p.t / p.z * p.ahead s| := abs_sub _ _
      _ = (1 - p.w * p.t) * |ref - s.i| + p.t / p.z * |p.ahead s| := by
        rw [abs_mul, abs_mul, abs_of_nonneg sound.rate_nonneg, abs_of_pos (div_pos sound.t z)]
      _ ≤ |ref - s.i| + p.t / p.z * |p.ahead s| :=
        add_le_add_left (mul_le_of_le_one_left (abs_nonneg _) sound.rate_le) _
  have balance : p.t / p.z * |p.ahead s| + p.l / p.z * |p.ahead s| / p.r = |p.ahead s| / p.r := by
    have ne := z.ne'
    have r_ne := r.ne'
    field_simp
    rw [Plan.z]
    ring
  rw [reach, reach, share]
  linarith

theorem reach_run (n : Nat) : p.reach ref ((p.next ref)^[n] s) ≤ p.reach ref s := by
  induction n with
  | zero => exact le_rfl
  | succ n ih =>
    rw [Function.iterate_succ_apply']
    exact (sound.reach_next ref).trans ih

theorem ahead_le (n : Nat) : |p.ahead ((p.next ref)^[n] s)| ≤ |p.ahead s| := by
  have share : p.l / p.z ≤ 1 := (div_le_one sound.z_pos).mpr (le_add_of_nonneg_right (mul_pos sound.r sound.t).le)
  have nonneg : 0 ≤ p.l / p.z := (div_pos sound.l sound.z_pos).le
  rw [ahead_run ref sound.z_pos.ne', abs_mul, abs_of_nonneg (pow_nonneg nonneg n)]
  exact mul_le_of_le_one_left (abs_nonneg _) (pow_le_one₀ nonneg share)

/-- Neither the integral nor the output of the controller ever exceeds the demand. -/
theorem demand_run (n : Nat) : |p.sum ref ((p.next ref)^[n] s)| ≤ p.demand ref s ∧
    |p.volt ref ((p.next ref)^[n] s)| ≤ p.demand ref s := by
  have kept := sound.reach_run ref (s := s) n
  have lead := sound.ahead_le ref (s := s) n
  generalize (p.next ref)^[n] s = s' at kept lead
  have err : |ref - s'.i| ≤ p.reach ref s := (le_add_of_nonneg_right (div_nonneg (abs_nonneg _) sound.r.le)).trans kept
  have sum : p.sum ref s' = p.r * ref - p.r * (1 - p.w * p.t) * (ref - s'.i) + p.ahead s' := by
    simp only [sum, ahead]
    ring
  have volt : p.volt ref s' = p.r * ref + (p.w * p.z - p.r) * (ref - s'.i) + p.ahead s' := by
    simp only [Plan.volt, sum, z]
    ring
  have gain : 0 ≤ p.w * p.z := mul_nonneg sound.w sound.z_pos.le
  have least : |p.r * (1 - p.w * p.t)| ≤ p.w * p.z + p.r := by
    rw [abs_of_nonneg (mul_nonneg sound.r.le sound.rate_nonneg)]
    exact (mul_le_of_le_one_right sound.r.le sound.rate_le).trans (le_add_of_nonneg_left gain)
  have most : |p.w * p.z - p.r| ≤ p.w * p.z + p.r :=
    abs_le.mpr ⟨by linarith, sub_le_self _ sound.r.le |>.trans (le_add_of_nonneg_right sound.r.le)⟩
  have bound {g : K} (le : |g| ≤ p.w * p.z + p.r) : |p.r * ref + g * (ref - s'.i) + p.ahead s'| ≤ p.demand ref s := by
    calc |p.r * ref + g * (ref - s'.i) + p.ahead s'|
        ≤ |p.r * ref + g * (ref - s'.i)| + |p.ahead s'| := abs_add_le _ _
      _ ≤ |p.r * ref| + |g * (ref - s'.i)| + |p.ahead s'| := add_le_add_left (abs_add_le _ _) _
      _ = p.r * |ref| + |g| * |ref - s'.i| + |p.ahead s'| := by rw [abs_mul, abs_mul, abs_of_pos sound.r]
      _ ≤ p.demand ref s := by
        rw [demand]
        have product := mul_le_mul le err (abs_nonneg _) ((abs_nonneg g).trans le)
        linarith
  constructor
  · rw [sum, sub_eq_add_neg, ← neg_mul]
    exact bound ((abs_neg _).trans_le least)
  · rw [volt]
    exact bound most

end Plan.Sound

end Ordered

end TunedLag
