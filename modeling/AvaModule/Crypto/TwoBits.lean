import AvaModule.Crypto.Crc
import AvaModule.Lib.RegisterOrder
import Mathlib.Tactic.NormNum.Prime

/-! Two flipped bits in a message of crypto/crc.h: the generator is primitive. -/
namespace Crc32
open ShiftRegister

variable {data data' : List (BitVec 8)}

/-- The binary digits of an exponent, the highest one first. -/
def digits (n : Nat) : List Bool := (List.range 32).reverse.map n.testBit

theorem period : 2 ^ 32 - 1 = 3 * 5 * 17 * 257 * 65537 := by norm_num

theorem prime_of_dvd_period {p : Nat} (prime : p.Prime) (dvd : p ∣ 2 ^ 32 - 1) : p ∈ [3, 5, 17, 257, 65537] := by
  have factor : ∀ q : Nat, q.Prime → p ∣ q → p = q := fun q prime' => (Nat.prime_dvd_prime_iff_eq prime prime').mp
  rw [period, prime.dvd_mul, prime.dvd_mul, prime.dvd_mul, prime.dvd_mul] at dvd
  rcases dvd with (((dvd | dvd) | dvd) | dvd) | dvd
  · simp [factor 3 (by norm_num) dvd]
  · simp [factor 5 (by norm_num) dvd]
  · simp [factor 17 (by norm_num) dvd]
  · simp [factor 257 (by norm_num) dvd]
  · simp [factor 65537 (by norm_num) dvd]

/-- The register runs through all contents but zero. -/
theorem orderOf_root : orderOf (root poly) = 2 ^ 32 - 1 := by
  have back : value (digits (2 ^ 32 - 1)) = 2 ^ 32 - 1 ∧ power poly (digits (2 ^ 32 - 1)) (unit 32) = unit 32 := by
    decide +kernel
  have early : ∀ p ∈ [3, 5, 17, 257, 65537], value (digits ((2 ^ 32 - 1) / p)) = (2 ^ 32 - 1) / p ∧
      power poly (digits ((2 ^ 32 - 1) / p)) (unit 32) ≠ unit 32 := by
    decide +kernel
  refine orderOf_eq_of_pow_and_pow_div_prime (by norm_num) ?_ fun p prime dvd => ?_
  · rw [← back.1]
    exact (root_pow_eq_one_iff (by decide) _).mpr back.2
  · obtain ⟨exponent, other⟩ := early p (prime_of_dvd_period prime dvd)
    rw [← exponent]
    exact fun one => other ((root_pow_eq_one_iff (by decide) _).mp one)

/-- Two flipped bits of a message are missed exactly where their distance is a multiple of 2^32 - 1 bits: in no message
of less than half a gigabyte. -/
theorem crc32_two_bits (length : data.length = data'.length) {i j : Nat} (lt : i < j) (inside : j < 8 * data.length)
    (flipped : Flipped (messageBits data) (messageBits data') i j) :
    crc32 data = crc32 data' ↔ 2 ^ 32 - 1 ∣ j - i := by
  have last : poly.getMsbD 0 = true := by decide
  have bits : (messageBits data).length = (messageBits data').length := by
    rw [length_messageBits, length_messageBits, length]
  rw [crc32, crc32, BitVec.xor_left_inj, steps_feeds, steps_feeds, ← orderOf_root]
  exact feeds_flipped last bits lt (by rwa [length_messageBits]) flipped

theorem crc32_two_bits_apart : crc32 [0x00, 0x5A, 0x00] ≠ crc32 [0x80, 0x5A, 0x01] := by
  have flipped : Flipped (messageBits [0x00, 0x5A, 0x00]) (messageBits [0x80, 0x5A, 0x01]) 7 16 := by
    intro k
    rcases Nat.lt_or_ge k 24 with lt | ge
    · revert k
      decide
    · have none : ∀ data : List (BitVec 8), data.length = 3 → (messageBits data)[k]? = none := by
        intro data length
        rw [List.getElem?_eq_none_iff, length_messageBits, length]
        omega
      rw [none _ rfl, none _ rfl]
      simp only [ne_eq, not_true_eq_false, false_iff]
      omega
  have missed := @crc32_two_bits [0x00, 0x5A, 0x00] [0x80, 0x5A, 0x01] rfl 7 16 (by decide) (by decide) flipped
  exact fun same => absurd (missed.mp same) (by decide)

end Crc32
