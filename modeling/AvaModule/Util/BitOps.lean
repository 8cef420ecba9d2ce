import Mathlib.Data.Nat.Size
import Mathlib.Order.Bounds.Defs
import AvaModule.Util.Typedef

/-! The leading zeros of util/bitops.h, counted by its portable loop, and ROUNDUP_POW_OF_2 of
util/mathdef.h for both widths of its argument. -/
namespace AvaModule

inductive IntType where
  | u32
  | u64
  deriving DecidableEq, Repr

/-- `sizeof` -/
def IntType.sizeof : IntType → Nat
  | u32 => 4
  | u64 => 8

abbrev IntType.Value (type : IntType) := BitVec (8 * type.sizeof)

/-- The loop of `clz64`, with the bits below `i` still to be looked at. -/
def clz64Loop (x : BitVec 64) : Nat → BitVec 32 → BitVec 32
  | 0, n => n
  | i + 1, n => if (x >>> i) &&& 1 ≠ 0 then n else clz64Loop x i (n + 1)

def clz64 (x : BitVec 64) : BitVec 32 := if x = 0 then 64 else clz64Loop x 64 0

/-- The shift count of `ROUNDUP_POW_OF_2`. `sizeof` has the type `size_t`, so that the difference
is unsigned and as wide as an address. -/
def roundupShift (T : Target) {type : IntType} (n : type.Value) : Usz T :=
  BitVec.ofNat _ (type.sizeof * 8) - (clz64 ((n - 1).setWidth 64)).setWidth T.bits

/-- `ROUNDUP_POW_OF_2`. A shift of `1ULL` by its width or more has no result. -/
def roundupPowOf2 (T : Target) {type : IntType} (n : type.Value) : Option (BitVec 64) :=
  if n = 0 then some 1
  else if (roundupShift T n).toNat < 64 then some ((1 : BitVec 64) <<< (roundupShift T n).toNat)
  else none

variable {T : Target} {type : IntType} {x : BitVec 64} {c : BitVec 32} {n : type.Value} {a i : Nat}

/-- While the bits from `i` on are zero, bit `i - 1` tells whether the number reaches `2 ^ (i - 1)`. -/
theorem bit_ne_zero_iff (below : x.toNat < 2 ^ (i + 1)) : (x >>> i) &&& 1 ≠ 0 ↔ 2 ^ i ≤ x.toNat := by
  have quotient : x.toNat / 2 ^ i < 2 := by
    rw [Nat.div_lt_iff_lt_mul (Nat.two_pow_pos i), Nat.mul_comm]
    exact below
  have bit : ((x >>> i) &&& 1).toNat = x.toNat / 2 ^ i := by
    rw [BitVec.toNat_and, BitVec.toNat_ushiftRight, Nat.shiftRight_eq_div_pow]
    exact (Nat.and_one_is_mod _).trans (Nat.mod_eq_of_lt quotient)
  rw [ne_eq, ← BitVec.toNat_inj, bit]
  exact Nat.div_ne_zero_iff.trans (by simp)

theorem clz64Loop_toNat (below : x.toNat < 2 ^ i) (room : c.toNat + i ≤ 64) :
    (clz64Loop x i c).toNat = c.toNat + (i - x.toNat.size) := by
  induction i generalizing c with
  | zero => simp [clz64Loop]
  | succ i ih =>
    rw [clz64Loop]
    by_cases set : 2 ^ i ≤ x.toNat
    · have size : x.toNat.size = i + 1 := Nat.le_antisymm (Nat.size_le.mpr below) (Nat.lt_size.mpr set)
      rw [if_pos ((bit_ne_zero_iff below).mpr set), size, Nat.sub_self, Nat.add_zero]
    · have size : x.toNat.size ≤ i := Nat.size_le.mpr (Nat.not_le.mp set)
      have next : (c + 1).toNat = c.toNat + 1 := by
        rw [BitVec.toNat_add]
        exact Nat.mod_eq_of_lt (by simp; omega)
      rw [if_neg (fun bit => set ((bit_ne_zero_iff below).mp bit)), ih (Nat.not_le.mp set) (by omega), next]
      omega

/-- The loop counts the zeros above the binary length. -/
theorem clz64_toNat (x : BitVec 64) : (clz64 x).toNat = 64 - x.toNat.size := by
  rw [clz64]
  split
  · next zero => simp [zero]
  · exact (clz64Loop_toNat x.isLt (by simp)).trans (by simp)

/-- The binary length of `n - 1` gives the least power of two from `n` on. -/
theorem isLeast_two_pow_size (positive : 1 ≤ a) :
    IsLeast {p | a ≤ p ∧ p.isPowerOfTwo} (2 ^ (a - 1).size) := by
  refine ⟨⟨?_, (a - 1).size, rfl⟩, ?_⟩
  · have below := Nat.lt_size_self (a - 1)
    omega
  · rintro _ ⟨above, k, rfl⟩
    exact Nat.pow_le_pow_right (by decide) (Nat.size_le.mpr (by omega))

theorem size_pred_lt_iff (positive : 1 ≤ a) (width : 0 < i) : (a - 1).size < i ↔ a ≤ 2 ^ (i - 1) := by
  rw [← Nat.le_sub_one_iff_lt width, Nat.size_le]
  omega

theorem pred_toNat (positive : 1 ≤ n.toNat) : ((n - 1).setWidth 64).toNat = n.toNat - 1 := by
  have one : (1 : type.Value).toNat = 1 := by cases type <;> rfl
  have width : 8 * type.sizeof ≤ 64 := by cases type <;> decide
  rw [BitVec.toNat_setWidth_of_le width, BitVec.toNat_sub_of_le, one]
  rwa [BitVec.le_def, one]

/-- The leading zeros are counted on 64 bits for either type. -/
theorem zeros_toNat (positive : 1 ≤ n.toNat) :
    ((clz64 ((n - 1).setWidth 64)).setWidth T.bits).toNat = 64 - (n.toNat - 1).size := by
  have width : 32 ≤ T.bits := by cases T <;> decide
  rw [BitVec.toNat_setWidth_of_le width, clz64_toNat, pred_toNat positive]

theorem roundupShift_toNat (positive : 1 ≤ n.toNat) :
    (roundupShift T n).toNat =
      (2 ^ T.bits - (64 - (n.toNat - 1).size) + type.sizeof * 8) % 2 ^ T.bits := by
  rw [roundupShift, BitVec.toNat_sub, zeros_toNat positive, BitVec.toNat_ofNat, Nat.add_mod_mod]

/-- For the wide type the shift count is the binary length of `n - 1`. -/
theorem roundupShift_u64 {n : IntType.u64.Value} (positive : 1 ≤ n.toNat) :
    (roundupShift T n).toNat = (n.toNat - 1).size := by
  have size : (n.toNat - 1).size ≤ 64 := Nat.size_le.mpr (Nat.lt_of_le_of_lt (Nat.sub_le ..) n.isLt)
  rw [roundupShift_toNat positive]
  generalize (n.toNat - 1).size = length at size ⊢
  cases T <;> simp only [IntType.sizeof, Target.bits] <;> omega

/-- For the narrow type the count wraps below zero. -/
theorem roundupShift_u32 {n : IntType.u32.Value} (positive : 1 ≤ n.toNat) (half : n.toNat ≤ 2 ^ 31) :
    64 ≤ (roundupShift T n).toNat := by
  have size : (n.toNat - 1).size ≤ 31 := Nat.size_le.mpr (by omega)
  rw [roundupShift_toNat positive]
  generalize (n.toNat - 1).size = length at size ⊢
  cases T <;> simp only [IntType.sizeof, Target.bits] <;> omega

theorem roundupPowOf2_u64 {n : IntType.u64.Value} (positive : 1 ≤ n.toNat) (half : n.toNat ≤ 2 ^ 63) :
    ∃ v, roundupPowOf2 T n = some v ∧ v.toNat = 2 ^ (n.toNat - 1).size := by
  have size : (n.toNat - 1).size ≤ 63 := Nat.size_le.mpr (by omega)
  have nonzero : n ≠ 0 := fun zero => by simp [zero] at positive
  refine ⟨(1 : BitVec 64) <<< (n.toNat - 1).size, ?_, ?_⟩
  · rw [roundupPowOf2, if_neg nonzero, roundupShift_u64 positive, if_pos (by omega)]
  · have fits : 2 ^ (n.toNat - 1).size < 2 ^ 64 := Nat.pow_lt_pow_right (by decide) (Nat.lt_succ_of_le size)
    have one : (1 : BitVec 64).toNat = 1 := rfl
    rw [BitVec.toNat_shiftLeft, Nat.shiftLeft_eq, one, Nat.one_mul, Nat.mod_eq_of_lt fits]

theorem roundupPowOf2_u32 {n : IntType.u32.Value} (positive : 1 ≤ n.toNat) (half : n.toNat ≤ 2 ^ 31) :
    roundupPowOf2 T n = none := by
  have nonzero : n ≠ 0 := fun zero => by simp [zero] at positive
  rw [roundupPowOf2, if_neg nonzero, if_neg (Nat.not_lt.mpr (roundupShift_u32 positive half))]

end AvaModule
