import Mathlib.Algebra.Group.Nat.Defs

/-! Machine words as bytes in memory, least significant byte first. -/
namespace LittleEndian

/-- The low `n` bytes of a number. -/
def encode : Nat → Nat → List (BitVec 8)
  | 0, _ => []
  | n + 1, x => BitVec.ofNat 8 x :: encode n (x / 256)

def decode : List (BitVec 8) → Nat
  | [] => 0
  | b :: bs => b.toNat + 256 * decode bs

@[simp] theorem encode_length (n x : Nat) : (encode n x).length = n := by
  induction n generalizing x with
  | zero => rfl
  | succ n ih => simp [encode, ih]

theorem decode_encode (n x : Nat) : decode (encode n x) = x % 256 ^ n := by
  induction n generalizing x with
  | zero => simp [encode, decode, Nat.mod_one]
  | succ n ih =>
    have low : (BitVec.ofNat 8 x).toNat = x % 256 := BitVec.toNat_ofNat ..
    rw [encode, decode, ih, low, Nat.pow_succ', Nat.mod_mul]

theorem encode_decode (bytes : List (BitVec 8)) : encode bytes.length (decode bytes) = bytes := by
  induction bytes with
  | nil => rfl
  | cons b bytes ih =>
    have low : BitVec.ofNat 8 (b.toNat + 256 * decode bytes) = b := by
      apply BitVec.eq_of_toNat_eq
      rw [BitVec.toNat_ofNat, Nat.add_mul_mod_self_left, Nat.mod_eq_of_lt b.isLt]
    have high : (b.toNat + 256 * decode bytes) / 256 = decode bytes := by
      rw [Nat.add_mul_div_left _ _ (by decide), Nat.div_eq_of_lt b.isLt, Nat.zero_add]
    rw [List.length_cons, decode, encode, low, high, ih]

theorem decode_lt (bytes : List (BitVec 8)) : decode bytes < 256 ^ bytes.length := by
  induction bytes with
  | nil => exact Nat.one_pos
  | cons b bytes ih =>
    have small := b.isLt
    rw [decode, List.length_cons, Nat.pow_succ]
    omega

/-- A word of `n` bytes is read back as it was stored. -/
theorem ofNat_decode_encode {w n : Nat} (width : w = 8 * n) (x : BitVec w) :
    BitVec.ofNat w (decode (encode n x.toNat)) = x := by
  have bytes : 256 ^ n = 2 ^ w := by
    rw [width, Nat.pow_mul]
  rw [decode_encode, bytes, Nat.mod_eq_of_lt x.isLt, BitVec.ofNat_toNat, BitVec.setWidth_eq]

/-- Words of `n` bytes with the same bytes are the same. -/
theorem encode_inj {w n : Nat} (width : w = 8 * n) {x y : BitVec w} (same : encode n x.toNat = encode n y.toNat) : x = y := by
  rw [← ofNat_decode_encode width x, same, ofNat_decode_encode width]

end LittleEndian
