import Mathlib.Algebra.Field.Basic
import Mathlib.Tactic.LinearCombination
import Mathlib.Tactic.NormNum
import Mathlib.Tactic.Ring

/-! trans/clarkepark.h over any field. `DIV_SQRT_3_BY_2` and the trigonometric functions are parameters. -/
namespace AvaModule

variable {K : Type}

/-- `f32_uvw_t` -/
structure Uvw (K : Type) where
  u : K
  v : K
  w : K
  deriving DecidableEq

/-- `f32_ab_t` -/
structure Ab (K : Type) where
  a : K
  b : K
  deriving DecidableEq

/-- `f32_dq_t` -/
structure Dq (K : Type) where
  d : K
  q : K
  deriving DecidableEq

def Uvw.map {L : Type} (f : K → L) (x : Uvw K) : Uvw L := ⟨f x.u, f x.v, f x.w⟩

/-- Of every phase. -/
def Uvw.All (p : K → Prop) (x : Uvw K) : Prop := p x.u ∧ p x.v ∧ p x.w

theorem Uvw.map_congr {L : Type} {f g : K → L} {x : Uvw K} (same : x.All fun k => f k = g k) : x.map f = x.map g := by
  obtain ⟨u, v, w⟩ := same
  rw [Uvw.map, Uvw.map, u, v, w]

section Transforms
variable [Field K]

def clarke (divSqrt3By2 : K) (abc : Uvw K) (mi : K) : Ab K where
  a := mi * (abc.u - 0.5 * (abc.v + abc.w))
  b := mi * (abc.v - abc.w) * divSqrt3By2

def invClarke (divSqrt3By2 : K) (ab : Ab K) : Uvw K :=
  let a := -(ab.a * 0.5)
  let b := ab.b * divSqrt3By2
  ⟨ab.a, a + b, a - b⟩

def park (sin cos : K → K) (ab : Ab K) (theta : K) : Dq K where
  d := cos theta * ab.a + sin theta * ab.b
  q := cos theta * ab.b - sin theta * ab.a

def invPark (sin cos : K → K) (dq : Dq K) (theta : K) : Ab K where
  a := cos theta * dq.d - sin theta * dq.q
  b := sin theta * dq.d + cos theta * dq.q

/-- The same amount added to all phases is not seen, and the inverse is undone. -/
theorem clarke_invClarke [CharZero K] {divSqrt3By2 : K} (square : divSqrt3By2 ^ 2 = 3 / 4) (ab : Ab K) (shift : K) :
    clarke divSqrt3By2 ((invClarke divSqrt3By2 ab).map (· + shift)) (2 / 3) = ab := by
  obtain ⟨a, b⟩ := ab
  have half : (0.5 : K) = 1 / 2 := by norm_num
  simp only [clarke, invClarke, Uvw.map, Ab.mk.injEq, half]
  constructor
  · ring
  · linear_combination (4 / 3 * b) * square

end Transforms

end AvaModule
