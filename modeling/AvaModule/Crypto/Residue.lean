import AvaModule.Crypto.Crc
import AvaModule.Lib.LittleEndian

/-! What a message leaves in the register of crypto/crc.h when its checksum follows it. -/
namespace Crc32
open ShiftRegister LittleEndian

variable {data suffix : List (BitVec 8)}

/-- The bits of a message are those of its bytes read as one number. -/
theorem testBit_decode (data : List (BitVec 8)) (i : Nat) : (decode data).testBit i = (messageBits data)[i]?.getD false := by
  induction data generalizing i with
  | nil => simp [decode, messageBits]
  | cons byte data ih =>
    have split : decode (byte :: data) = 2 ^ 8 * decode data + byte.toNat := Nat.add_comm ..
    rw [split, Nat.testBit_two_pow_mul_add _ byte.isLt, messageBits_cons]
    rcases Nat.lt_or_ge i 8 with lt | ge
    · rw [if_pos lt, List.getElem?_append_left (by simpa using lt)]
      simp [byteBits, lt, BitVec.getLsbD]
    · rw [if_neg (Nat.not_lt.mpr ge), List.getElem?_append_right (by simpa using ge), length_byteBits, ih]

/-- Four bytes taken in are the word that they make, shifted through. -/
theorem steps_four (four : suffix.length = 4) (crc : BitVec 32) :
    suffix.foldl crc32Step crc = shifts poly 32 (crc ^^^ BitVec.ofNat 32 (decode suffix)) := by
  have laid : ∀ i, (BitVec.ofNat 32 (decode suffix)).getLsbD i = ((messageBits suffix)[i]?.getD false) := by
    intro i
    have small := decode_lt suffix
    rw [four] at small
    rw [BitVec.getLsbD_ofNat, testBit_decode]
    rcases Nat.lt_or_ge i 32 with lt | ge
    · rw [decide_eq_true lt, Bool.true_and]
    · rw [List.getElem?_eq_none (by rw [length_messageBits, four]; exact ge), Option.getD_none, Bool.and_false]
  have length : (messageBits suffix).length = 32 := by rw [length_messageBits, four]
  rw [steps_feeds, feeds_eq_shifts length.le laid, length]

/-- The four bytes that make a word. -/
theorem word_eq_iff (four : suffix.length = 4) (x : BitVec 32) :
    BitVec.ofNat 32 (decode suffix) = x ↔ suffix = encode 4 x.toNat := by
  constructor
  · rintro rfl
    have small := decode_lt suffix
    have whole := encode_decode suffix
    rw [four] at small whole
    rw [BitVec.toNat_ofNat, Nat.mod_eq_of_lt (show decode suffix < 2 ^ 32 from small), whole]
  · rintro rfl
    exact @ofNat_decode_encode 32 4 rfl x

theorem crc32_append (data suffix : List (BitVec 8)) :
    crc32 (data ++ suffix) = suffix.foldl crc32Step (crc32 data ^^^ 0xFFFFFFFF) ^^^ 0xFFFFFFFF := by
  rw [crc32, List.foldl_append, crc32, BitVec.xor_assoc, BitVec.xor_self, BitVec.xor_zero]

/-- The checksum of a message with four more bytes. -/
theorem crc32_append_four (four : suffix.length = 4) (data : List (BitVec 8)) : crc32 (data ++ suffix) =
    shifts poly 32 (BitVec.ofNat 32 (decode suffix) ^^^ (crc32 data ^^^ 0xFFFFFFFF)) ^^^ 0xFFFFFFFF := by
  rw [crc32_append, steps_four four, BitVec.xor_comm (crc32 data ^^^ _)]

theorem residue_eq : shifts poly 32 0xFFFFFFFF ^^^ 0xFFFFFFFF = 0x2144DF1C := by decide +kernel

theorem poly_last : poly.getMsbD 0 = true := by decide

/-- Whatever the register holds, one word takes it to any other contents. -/
theorem shifts_bijective (n : Nat) : Function.Bijective (shifts poly n) := by
  have finite : Finite (BitVec 32) := .of_injective BitVec.toFin fun _ _ same => BitVec.toFin_inj.mp same
  exact Finite.injective_iff_bijective.mp (shifts_injective poly_last n)

theorem xor_eq_iff {x y z : BitVec 32} : x ^^^ y = z ↔ x = z ^^^ y := by
  constructor
  · rintro rfl
    rw [BitVec.xor_assoc, BitVec.xor_self, BitVec.xor_zero]
  · rintro rfl
    rw [BitVec.xor_assoc, BitVec.xor_self, BitVec.xor_zero]

/-- A message is followed by its checksum, lowest byte first, exactly where the whole has the residue of CRC-32; and for
every checksum that the whole is to have there is exactly one way to end it. -/
theorem crc32_residue (data : List (BitVec 8)) :
    (∀ suffix, suffix.length = 4 → (crc32 (data ++ suffix) = 0x2144DF1C ↔ suffix = encode 4 (crc32 data).toNat)) ∧
      ∀ sum, ∃! suffix, suffix.length = 4 ∧ crc32 (data ++ suffix) = sum := by
  constructor
  · intro suffix four
    rw [crc32_append_four four, ← residue_eq, BitVec.xor_left_inj, (shifts_injective poly_last 32).eq_iff, xor_eq_iff,
      BitVec.xor_comm (crc32 data), ← BitVec.xor_assoc, BitVec.xor_self, BitVec.zero_xor, word_eq_iff four]
  · intro sum
    obtain ⟨before, reached⟩ := (shifts_bijective 32).2 (sum ^^^ 0xFFFFFFFF)
    have ends : ∀ suffix, suffix.length = 4 → (crc32 (data ++ suffix) = sum ↔
        suffix = encode 4 (before ^^^ (crc32 data ^^^ 0xFFFFFFFF)).toNat) := by
      intro suffix four
      rw [crc32_append_four four, xor_eq_iff, ← reached, (shifts_injective poly_last 32).eq_iff, xor_eq_iff, word_eq_iff four]
    refine ⟨_, ⟨encode_length 4 _, (ends _ (encode_length 4 _)).mpr rfl⟩, fun suffix other => ?_⟩
    exact (ends suffix other.1).mp other.2

end Crc32
