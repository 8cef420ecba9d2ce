import Mathlib.Algebra.Group.Nat.Defs

/-! The two builds of the library. `usz` is 64 bits wide on a host and 32 bits
wide on a microcontroller; every width-dependent definition takes the target. -/
namespace AvaModule

inductive Target where
  | host
  | mcu
  deriving DecidableEq, Repr

namespace Target

/-- The width of `usz`. -/
def bits : Target → Nat
  | host => 64
  | mcu => 32

/-- The number of `usz` values; machine arithmetic is reduced modulo it. -/
def modulus (T : Target) : Nat := 2 ^ T.bits

end Target

/-- `u8` -/
abbrev Byte := BitVec 8

/-- A machine word used as an address or as a packed pointer. -/
abbrev Usz (T : Target) := BitVec T.bits

/-- `sizeof(usz)` -/
def wordBytes (T : Target) : Nat := T.bits / 8

theorem wordBytes_bits {T : Target} : T.bits = 8 * wordBytes T := by cases T <;> rfl

theorem zero_toNat {T : Target} : (0 : Usz T).toNat = 0 := by cases T <;> rfl

theorem one_toNat {T : Target} : (1 : Usz T).toNat = 1 := by cases T <;> rfl

theorem four_toNat {T : Target} : (4 : Usz T).toNat = 4 := by cases T <;> rfl

/-- A length that is a machine word is its own word. -/
theorem toNat_length {T : Target} (short : n < T.modulus) : (BitVec.ofNat T.bits n).toNat = n :=
  (BitVec.toNat_ofNat ..).trans (Nat.mod_eq_of_lt short)

end AvaModule
