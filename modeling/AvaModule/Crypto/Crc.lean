import AvaModule.Lib.ShiftRegister

/-! `crypto/crc.h`: the table is eight steps of a shift register, and the checksum a division of the
message over GF(2). -/
namespace Crc32
open Polynomial ShiftRegister

variable {crc : BitVec 32} {byte : BitVec 8} {data data' : List (BitVec 8)}

set_option maxRecDepth 4000 in
def crc32Table : Vector (BitVec 32) 256 := #v[
  0x00000000, 0x77073096, 0xEE0E612C, 0x990951BA, 0x076DC419, 0x706AF48F, 0xE963A535, 0x9E6495A3,
  0x0EDB8832, 0x79DCB8A4, 0xE0D5E91E, 0x97D2D988, 0x09B64C2B, 0x7EB17CBD, 0xE7B82D07, 0x90BF1D91,
  0x1DB71064, 0x6AB020F2, 0xF3B97148, 0x84BE41DE, 0x1ADAD47D, 0x6DDDE4EB, 0xF4D4B551, 0x83D385C7,
  0x136C9856, 0x646BA8C0, 0xFD62F97A, 0x8A65C9EC, 0x14015C4F, 0x63066CD9, 0xFA0F3D63, 0x8D080DF5,
  0x3B6E20C8, 0x4C69105E, 0xD56041E4, 0xA2677172, 0x3C03E4D1, 0x4B04D447, 0xD20D85FD, 0xA50AB56B,
  0x35B5A8FA, 0x42B2986C, 0xDBBBC9D6, 0xACBCF940, 0x32D86CE3, 0x45DF5C75, 0xDCD60DCF, 0xABD13D59,
  0x26D930AC, 0x51DE003A, 0xC8D75180, 0xBFD06116, 0x21B4F4B5, 0x56B3C423, 0xCFBA9599, 0xB8BDA50F,
  0x2802B89E, 0x5F058808, 0xC60CD9B2, 0xB10BE924, 0x2F6F7C87, 0x58684C11, 0xC1611DAB, 0xB6662D3D,
  0x76DC4190, 0x01DB7106, 0x98D220BC, 0xEFD5102A, 0x71B18589, 0x06B6B51F, 0x9FBFE4A5, 0xE8B8D433,
  0x7807C9A2, 0x0F00F934, 0x9609A88E, 0xE10E9818, 0x7F6A0DBB, 0x086D3D2D, 0x91646C97, 0xE6635C01,
  0x6B6B51F4, 0x1C6C6162, 0x856530D8, 0xF262004E, 0x6C0695ED, 0x1B01A57B, 0x8208F4C1, 0xF50FC457,
  0x65B0D9C6, 0x12B7E950, 0x8BBEB8EA, 0xFCB9887C, 0x62DD1DDF, 0x15DA2D49, 0x8CD37CF3, 0xFBD44C65,
  0x4DB26158, 0x3AB551CE, 0xA3BC0074, 0xD4BB30E2, 0x4ADFA541, 0x3DD895D7, 0xA4D1C46D, 0xD3D6F4FB,
  0x4369E96A, 0x346ED9FC, 0xAD678846, 0xDA60B8D0, 0x44042D73, 0x33031DE5, 0xAA0A4C5F, 0xDD0D7CC9,
  0x5005713C, 0x270241AA, 0xBE0B1010, 0xC90C2086, 0x5768B525, 0x206F85B3, 0xB966D409, 0xCE61E49F,
  0x5EDEF90E, 0x29D9C998, 0xB0D09822, 0xC7D7A8B4, 0x59B33D17, 0x2EB40D81, 0xB7BD5C3B, 0xC0BA6CAD,
  0xEDB88320, 0x9ABFB3B6, 0x03B6E20C, 0x74B1D29A, 0xEAD54739, 0x9DD277AF, 0x04DB2615, 0x73DC1683,
  0xE3630B12, 0x94643B84, 0x0D6D6A3E, 0x7A6A5AA8, 0xE40ECF0B, 0x9309FF9D, 0x0A00AE27, 0x7D079EB1,
  0xF00F9344, 0x8708A3D2, 0x1E01F268, 0x6906C2FE, 0xF762575D, 0x806567CB, 0x196C3671, 0x6E6B06E7,
  0xFED41B76, 0x89D32BE0, 0x10DA7A5A, 0x67DD4ACC, 0xF9B9DF6F, 0x8EBEEFF9, 0x17B7BE43, 0x60B08ED5,
  0xD6D6A3E8, 0xA1D1937E, 0x38D8C2C4, 0x4FDFF252, 0xD1BB67F1, 0xA6BC5767, 0x3FB506DD, 0x48B2364B,
  0xD80D2BDA, 0xAF0A1B4C, 0x36034AF6, 0x41047A60, 0xDF60EFC3, 0xA867DF55, 0x316E8EEF, 0x4669BE79,
  0xCB61B38C, 0xBC66831A, 0x256FD2A0, 0x5268E236, 0xCC0C7795, 0xBB0B4703, 0x220216B9, 0x5505262F,
  0xC5BA3BBE, 0xB2BD0B28, 0x2BB45A92, 0x5CB36A04, 0xC2D7FFA7, 0xB5D0CF31, 0x2CD99E8B, 0x5BDEAE1D,
  0x9B64C2B0, 0xEC63F226, 0x756AA39C, 0x026D930A, 0x9C0906A9, 0xEB0E363F, 0x72076785, 0x05005713,
  0x95BF4A82, 0xE2B87A14, 0x7BB12BAE, 0x0CB61B38, 0x92D28E9B, 0xE5D5BE0D, 0x7CDCEFB7, 0x0BDBDF21,
  0x86D3D2D4, 0xF1D4E242, 0x68DDB3F8, 0x1FDA836E, 0x81BE16CD, 0xF6B9265B, 0x6FB077E1, 0x18B74777,
  0x88085AE6, 0xFF0F6A70, 0x66063BCA, 0x11010B5C, 0x8F659EFF, 0xF862AE69, 0x616BFFD3, 0x166CCF45,
  0xA00AE278, 0xD70DD2EE, 0x4E048354, 0x3903B3C2, 0xA7672661, 0xD06016F7, 0x4969474D, 0x3E6E77DB,
  0xAED16A4A, 0xD9D65ADC, 0x40DF0B66, 0x37D83BF0, 0xA9BCAE53, 0xDEBB9EC5, 0x47B2CF7F, 0x30B5FFE9,
  0xBDBDF21C, 0xCABAC28A, 0x53B39330, 0x24B4A3A6, 0xBAD03605, 0xCDD70693, 0x54DE5729, 0x23D967BF,
  0xB3667A2E, 0xC4614AB8, 0x5D681B02, 0x2A6F2B94, 0xB40BBE37, 0xC30C8EA1, 0x5A05DF1B, 0x2D02EF8D]

theorem index_lt (x : BitVec 32) : (x &&& 0xFF).toNat < 256 := by
  rw [BitVec.toNat_and]
  exact Nat.lt_succ_of_le Nat.and_le_right

/-- The body of the loop. -/
def crc32Step (crc : BitVec 32) (byte : BitVec 8) : BitVec 32 :=
  (crc >>> 8) ^^^ crc32Table.get ⟨((crc ^^^ byte.setWidth 32) &&& 0xFF).toNat, index_lt _⟩

def crc32 (data : List (BitVec 8)) : BitVec 32 := data.foldl crc32Step 0xFFFFFFFF ^^^ 0xFFFFFFFF

/-- The polynomial of the reflected register. -/
def poly : BitVec 32 := 0xEDB88320

/-- The checksum computed bit by bit, with no table. -/
def crc32Bitwise (data : List (BitVec 8)) : BitVec 32 :=
  data.foldl (fun crc byte => shifts poly 8 (crc ^^^ byte.setWidth 32)) 0xFFFFFFFF ^^^ 0xFFFFFFFF

def byteBits (byte : BitVec 8) : List Bool := (List.range 8).map byte.getLsbD

/-- The message in the order in which the register takes it in, least significant bit first. -/
def messageBits (data : List (BitVec 8)) : List Bool := data.flatMap byteBits

section Table

theorem crc32Table_eq : ∀ i : Fin 256, crc32Table.get i = shifts poly 8 (BitVec.ofNat 32 i) := by
  decide +kernel

theorem crc32Step_eq : crc32Step crc byte = shifts poly 8 (crc ^^^ byte.setWidth 32) := by
  have mask : ∀ i < 32, (0xFF : BitVec 32).getLsbD i = decide (i < 8) := by decide
  have entry : ∀ x : BitVec 32, crc32Table.get ⟨(x &&& 0xFF).toNat, index_lt x⟩ = shifts poly 8 (x &&& 0xFF) := by
    intro x
    rw [crc32Table_eq, BitVec.ofNat_toNat, BitVec.setWidth_eq]
  have above : (crc ^^^ byte.setWidth 32) >>> 8 = crc >>> 8 := by
    apply BitVec.eq_of_getLsbD_eq
    intro i _
    simp
  rw [crc32Step, entry, ← above, ← shifts_split mask]

theorem crc32_eq_bitwise : crc32 data = crc32Bitwise data := by
  have steps : crc32Step = fun crc byte => shifts poly 8 (crc ^^^ byte.setWidth 32) := by
    funext crc byte
    exact crc32Step_eq
  rw [crc32, crc32Bitwise, steps]

end Table

section Division

@[simp] theorem length_byteBits : (byteBits byte).length = 8 := by simp [byteBits]

theorem messageBits_cons : messageBits (byte :: data) = byteBits byte ++ messageBits data := List.flatMap_cons ..

theorem length_messageBits : (messageBits data).length = 8 * data.length := by
  induction data with
  | nil => rfl
  | cons byte data ih =>
    rw [messageBits_cons, List.length_append, ih, length_byteBits, List.length_cons]
    omega

theorem crc32Step_feeds : crc32Step crc byte = feeds poly crc (byteBits byte) := by
  have laid : ∀ i, (byte.setWidth 32).getLsbD i = ((byteBits byte)[i]?.getD false) := by
    intro i
    rcases Nat.lt_or_ge i 8 with lt | ge
    · simp [byteBits, lt, BitVec.getLsbD_setWidth]
      omega
    · simp [byteBits, ge, BitVec.getLsbD_setWidth]
  rw [crc32Step_eq, feeds_eq_shifts (by simp) laid, length_byteBits]

theorem steps_feeds : data.foldl crc32Step crc = feeds poly crc (messageBits data) := by
  induction data generalizing crc with
  | nil => rfl
  | cons byte data ih =>
    rw [List.foldl_cons, ih, crc32Step_feeds, messageBits_cons]
    exact (List.foldl_append ..).symm

/-- The generator of CRC-32. -/
noncomputable def crcGenerator : (ZMod 2)[X] :=
  X ^ 32 + X ^ 26 + X ^ 23 + X ^ 22 + X ^ 16 + X ^ 12 + X ^ 11 + X ^ 10 + X ^ 8 + X ^ 7 + X ^ 5 + X ^ 4 + X ^ 2 + X + 1

/-- The remainder of the message, moved up by 32 places and with its first 32 bits complemented. -/
noncomputable def crcRemainder (data : List (BitVec 8)) : (ZMod 2)[X] :=
  (X ^ (8 * data.length) * ∑ i ∈ Finset.range 32, X ^ i + X ^ 32 * ofBits (messageBits data)) %ₘ crcGenerator

theorem generator_poly : generator poly = crcGenerator := by
  have places : ∀ i ∈ Finset.range 32, (monomial i (bit (poly.getMsbD i)) : (ZMod 2)[X]) =
      if i ∈ [0, 1, 2, 4, 5, 7, 8, 10, 11, 12, 16, 22, 23, 26] then X ^ i else 0 := by
    intro i range
    have bits : ∀ i < 32, poly.getMsbD i = decide (i ∈ [0, 1, 2, 4, 5, 7, 8, 10, 11, 12, 16, 22, 23, 26]) := by decide
    rw [bits i (Finset.mem_range.mp range)]
    split
    case isTrue member => rw [decide_eq_true member, bit, if_pos rfl, monomial_one_right_eq_X_pow]
    case isFalse absent => rw [decide_eq_false absent]; exact monomial_zero_right i
  rw [generator, contents, Finset.sum_congr rfl places, crcGenerator]
  simp only [Finset.sum_range_succ, Finset.sum_range_zero]
  simp only [List.mem_cons, List.not_mem_nil, or_false]
  norm_num
  ring

theorem contents_init : contents (0xFFFFFFFF : BitVec 32) = ∑ i ∈ Finset.range 32, X ^ i := by
  refine Finset.sum_congr rfl fun i range => ?_
  have ones : ∀ i < 32, (0xFFFFFFFF : BitVec 32).getMsbD i = true := by decide
  rw [ones i (Finset.mem_range.mp range)]
  exact monomial_one_right_eq_X_pow i

/-- The checksum is the one computed bit by bit, and its bits are the complement of those of the remainder,
the constant coefficient highest. -/
theorem crc32_correct (data : List (BitVec 8)) : crc32 data = crc32Bitwise data ∧
    ∀ i < 32, (crc32 data).getMsbD i = decide ((crcRemainder data).coeff i = 0) := by
  refine ⟨crc32_eq_bitwise, ?_⟩
  have register : contents (data.foldl crc32Step 0xFFFFFFFF) = crcRemainder data := by
    rw [steps_feeds, contents_feeds (by decide), contents_init, generator_poly, length_messageBits, crcRemainder]
  intro i lt
  rw [crc32, BitVec.getMsbD_xor, ← register, coeff_contents]
  have flipped : (0xFFFFFFFF : BitVec 32).getMsbD i = true := by
    revert i
    decide
  rw [flipped]
  cases (data.foldl crc32Step 0xFFFFFFFF).getMsbD i <;> decide

/-- The digits from 1 to 9. -/
example : crc32 [0x31, 0x32, 0x33, 0x34, 0x35, 0x36, 0x37, 0x38, 0x39] = 0xCBF43926 := by decide +kernel

end Division

section Bursts

theorem byteBits_injective : Function.Injective byteBits := by
  intro byte byte' same
  apply BitVec.eq_of_getLsbD_eq
  intro i lt
  have at_i := congrArg (fun bits => bits[i]?) same
  simpa [byteBits, lt] using at_i

theorem messageBits_injective (length : data.length = data'.length) (same : messageBits data = messageBits data') :
    data = data' := by
  induction data generalizing data' with
  | nil => exact (List.length_eq_zero_iff.mp length.symm).symm
  | cons byte data ih =>
    cases data' with
    | nil => simp at length
    | cons byte' data' =>
      rw [messageBits_cons, messageBits_cons] at same
      obtain ⟨first, rest⟩ := List.append_inj same (by simp)
      rw [byteBits_injective first, ih (by simpa using length) rest]

/-- Two messages of one length that differ, but only within 32 consecutive bits, have different checksums. -/
theorem crc32_burst (data data' : List (BitVec 8)) (first : Nat) (length : data.length = data'.length)
    (differ : data ≠ data')
    (window : ∀ i, i < first ∨ first + 32 ≤ i → (messageBits data)[i]? = (messageBits data')[i]?) :
    crc32 data ≠ crc32 data' := by
  have strings : messageBits data ≠ messageBits data' := fun same => differ (messageBits_injective length same)
  have last : poly.getMsbD 0 = true := by decide
  have registers := feeds_ne_of_window (c := 0xFFFFFFFF) last
    (by rw [length_messageBits, length_messageBits, length]) window strings
  intro same
  rw [crc32, crc32, BitVec.xor_left_inj, steps_feeds, steps_feeds] at same
  exact registers same

/-- Two bits on either side of a byte boundary. -/
theorem crc32_burst_boundary : crc32 [0x80, 0x00] ≠ crc32 [0x00, 0x01] := by
  refine crc32_burst [0x80, 0x00] [0x00, 0x01] 7 rfl (by decide) fun i outside => ?_
  rcases outside with lt | ge
  · revert i
    decide
  · have beyond : ∀ data : List (BitVec 8), data.length = 2 → (messageBits data)[i]? = none := by
      intro data length
      rw [List.getElem?_eq_none_iff, length_messageBits, length]
      omega
    rw [beyond _ rfl, beyond _ rfl]

end Bursts

end Crc32
