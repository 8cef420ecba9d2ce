import AvaModule.Ds.Mpsc.Model
import AvaModule.Lib.WrapRing
import Mathlib.Tactic.Ring

/-! The packed words of the ring: a lock bit, the wrap counter and an offset in
`wp`, a lock bit and an offset in `reserve_pos`. -/
namespace AvaModule.MpscRing
open WrapRing

variable {T : Target} {off off' x y : Usz T} {n m : Nat}

/-- The number of values the wrap counter takes. -/
def wraps (T : Target) : Nat :=
  match T with
  | .host => 2 ^ 31
  | .mcu => 2 ^ 15

section Masks

theorem mask_counter : (wrapCounter T &&& offsetMask T) = 0 := by cases T <;> decide

theorem mask_lock : (wrapLockBit T &&& offsetMask T) = 0 := by cases T <;> decide

theorem counter_lock : (wrapCounter T &&& wrapLockBit T) = 0 := by cases T <;> decide

theorem lock_ne_zero : wrapLockBit T ≠ 0 := by cases T <;> decide

theorem offsetMax_unlocked : ¬Locked (offsetMax T) := by cases T <;> decide

theorem mask_lt_offsetMax : (offsetMask T).toNat < (offsetMax T).toNat := by cases T <;> decide

theorem unit_pos : 0 < (wrapUnit T).toNat := by cases T <;> decide

theorem counter_add_unit : (wrapCounter T).toNat + (wrapUnit T).toNat = wraps T * (wrapUnit T).toNat := by
  cases T <;> decide

theorem bits_split : 2 ^ T.bits = 2 * (wraps T * (wrapUnit T).toNat) := by cases T <;> decide

theorem mask_add_one : (offsetMask T).toNat + 1 = (wrapUnit T).toNat := by cases T <;> decide

end Masks

theorem toNat_and_offset (x : Usz T) : (x &&& offsetMask T).toNat = x.toNat % (wrapUnit T).toNat := by
  rw [BitVec.toNat_and]
  cases T with
  | host => exact Nat.and_two_pow_sub_one_eq_mod _ 32
  | mcu => exact Nat.and_two_pow_sub_one_eq_mod _ 16

/-- An offset fills no bit above the mask. -/
theorem offset_self (small : off.toNat ≤ (offsetMask T).toNat) : off &&& offsetMask T = off := by
  apply BitVec.eq_of_toNat_eq
  have bound := mask_add_one (T := T)
  rw [toNat_and_offset, Nat.mod_eq_of_lt (by omega)]

/-- The counter field after `n` wraps. -/
def lapWord (T : Target) (n : Nat) : Usz T := BitVec.ofNat _ (n * (wrapUnit T).toNat) &&& wrapCounter T

/-- An unlocked `wp`. -/
def pack (n : Nat) (off : Usz T) : Usz T := off ||| lapWord T n

section Fields

theorem offset_lock (small : off.toNat ≤ (offsetMask T).toNat) : off &&& wrapLockBit T = 0 := by
  rw [← offset_self small, BitVec.and_assoc, BitVec.and_comm (offsetMask T), mask_lock]
  exact BitVec.and_zero

theorem offset_counter (small : off.toNat ≤ (offsetMask T).toNat) : off &&& wrapCounter T = 0 := by
  rw [← offset_self small, BitVec.and_assoc, BitVec.and_comm (offsetMask T), mask_counter]
  exact BitVec.and_zero

theorem lapWord_offset (n : Nat) : lapWord T n &&& offsetMask T = 0 := by
  rw [lapWord, BitVec.and_assoc, mask_counter]
  exact BitVec.and_zero

theorem lapWord_lock (n : Nat) : lapWord T n &&& wrapLockBit T = 0 := by
  rw [lapWord, BitVec.and_assoc, counter_lock]
  exact BitVec.and_zero

theorem lapWord_counter (n : Nat) : lapWord T n &&& wrapCounter T = lapWord T n := by
  rw [lapWord, BitVec.and_assoc, BitVec.and_self]

theorem pack_offset (small : off.toNat ≤ (offsetMask T).toNat) (n : Nat) : pack n off &&& offsetMask T = off := by
  rw [pack, BitVec.and_or_distrib_right, offset_self small, lapWord_offset]
  exact BitVec.or_zero

theorem pack_counter (small : off.toNat ≤ (offsetMask T).toNat) (n : Nat) :
    pack n off &&& wrapCounter T = lapWord T n := by
  rw [pack, BitVec.and_or_distrib_right, offset_counter small, lapWord_counter]
  exact BitVec.zero_or

theorem pack_unlocked (small : off.toNat ≤ (offsetMask T).toNat) (n : Nat) : ¬Locked (pack n off) := by
  rw [Locked, pack, BitVec.and_or_distrib_right, offset_lock small, lapWord_lock]
  exact not_not.mpr BitVec.or_zero

theorem and_not_lock (unlocked : ¬Locked x) : x &&& ~~~wrapLockBit T = x := by
  have all := BitVec.or_not_self (wrapLockBit T)
  have split := congrArg (x &&& ·) all
  rw [BitVec.and_or_distrib_left, not_not.mp unlocked, BitVec.and_allOnes] at split
  exact BitVec.zero_or.symm.trans split

/-- Taking the lock bit away gives the unlocked word back. -/
theorem clear_lock (unlocked : ¬Locked x) : (wrapLockBit T ||| x) &&& ~~~wrapLockBit T = x := by
  rw [BitVec.and_or_distrib_right, BitVec.and_not_self, and_not_lock unlocked]
  exact BitVec.zero_or

theorem offset_unlocked (small : off.toNat ≤ (offsetMask T).toNat) : ¬Locked off :=
  not_not.mpr (offset_lock small)

theorem lock_locked (x : Usz T) : Locked (wrapLockBit T ||| x) := by
  rw [Locked, BitVec.and_or_distrib_right, BitVec.and_self]
  intro none
  exact lock_ne_zero (BitVec.or_eq_zero_iff.mp none).1

theorem not_lock_offset (x : Usz T) : (x &&& ~~~wrapLockBit T) &&& offsetMask T = x &&& offsetMask T := by
  have apart : ~~~wrapLockBit T &&& offsetMask T = offsetMask T := by cases T <;> decide
  rw [BitVec.and_assoc, apart]

theorem not_lock_unlocked (x : Usz T) : ¬Locked (x &&& ~~~wrapLockBit T) := by
  rw [Locked, BitVec.and_assoc, BitVec.and_comm (~~~wrapLockBit T), BitVec.and_not_self]
  exact not_not.mpr BitVec.and_zero

/-- The lock bit is the topmost one. -/
theorem locked_iff (x : Usz T) : Locked x ↔ (offsetMax T).toNat < x.toNat := by
  have bit : wrapLockBit T = BitVec.twoPow T.bits (T.bits - 1) := by cases T <;> decide
  have half : (offsetMax T).toNat + 1 = 2 ^ (T.bits - 1) := by cases T <;> decide
  have set : BitVec.twoPow T.bits (T.bits - 1) ≠ 0 := by cases T <;> decide
  rw [Locked, bit, BitVec.and_twoPow, BitVec.getLsbD_last]
  by_cases high : 2 ^ (T.bits - 1) ≤ x.toNat
  · rw [if_pos (decide_eq_true high)]
    exact iff_of_true set (by omega)
  · rw [if_neg (by simpa using high)]
    exact iff_of_false (not_not.mpr rfl) (by omega)

/-- A counter sets neither the lock bit nor a bit of the offset. -/
theorem or_counter_locked (x y : Usz T) : Locked (x ||| (y &&& wrapCounter T)) ↔ Locked x := by
  have none : (y &&& wrapCounter T) &&& wrapLockBit T = 0#T.bits := by
    rw [BitVec.and_assoc, counter_lock]
    exact BitVec.and_zero
  rw [Locked, BitVec.and_or_distrib_right, none, BitVec.or_zero]
  rfl

theorem or_counter_offset (x y : Usz T) : (x ||| (y &&& wrapCounter T)) &&& offsetMask T = x &&& offsetMask T := by
  have none : (y &&& wrapCounter T) &&& offsetMask T = 0#T.bits := by
    rw [BitVec.and_assoc, mask_counter]
    exact BitVec.and_zero
  rw [BitVec.and_or_distrib_right, none, BitVec.or_zero]

theorem lock_offset (x : Usz T) : (wrapLockBit T ||| x) &&& offsetMask T = x &&& offsetMask T := by
  rw [BitVec.and_or_distrib_right, mask_lock]
  exact BitVec.zero_or

end Fields

section Laps

theorem toNat_and_low (x : Usz T) :
    (x &&& (wrapCounter T ||| offsetMask T)).toNat = x.toNat % (wraps T * (wrapUnit T).toNat) := by
  rw [BitVec.toNat_and]
  cases T with
  | host => exact Nat.and_two_pow_sub_one_eq_mod _ 63
  | mcu => exact Nat.and_two_pow_sub_one_eq_mod _ 31

/-- The counter field of a word, as a number. -/
theorem toNat_and_counter (x : Usz T) :
    (x &&& wrapCounter T).toNat + x.toNat % (wrapUnit T).toNat =
      x.toNat % (wraps T * (wrapUnit T).toNat) := by
  have disjoint : (x &&& wrapCounter T) &&& (x &&& offsetMask T) = 0#T.bits := by
    rw [BitVec.and_assoc, BitVec.and_comm (wrapCounter T), BitVec.and_assoc, BitVec.and_comm (offsetMask T),
      mask_counter]
    simp
  have parts : (x &&& wrapCounter T) + (x &&& offsetMask T) = x &&& (wrapCounter T ||| offsetMask T) := by
    rw [BitVec.add_eq_or_of_and_eq_zero _ _ disjoint, BitVec.and_or_distrib_left]
  have upper : (x &&& wrapCounter T).toNat ≤ (wrapCounter T).toNat := by
    rw [BitVec.toNat_and]
    exact Nat.and_le_right
  have lower := Nat.mod_lt x.toNat (unit_pos (T := T))
  have sum := congrArg BitVec.toNat parts
  rw [BitVec.toNat_add, toNat_and_offset, toNat_and_low, bits_split, Nat.mod_eq_of_lt] at sum
  · exact sum
  · have field := counter_add_unit (T := T)
    omega

theorem toNat_lapWord (n : Nat) : (lapWord T n).toNat = n % wraps T * (wrapUnit T).toNat := by
  have field := toNat_and_counter (BitVec.ofNat T.bits (n * (wrapUnit T).toNat))
  rw [BitVec.toNat_ofNat, bits_split, Nat.mod_mod_of_dvd _ (Nat.dvd_mul_left _ _),
    Nat.mod_mod_of_dvd _ ⟨2 * wraps T, by ring⟩, Nat.mul_mod_left, Nat.mul_mod_mul_right] at field
  exact field

theorem wrapIncr_lapWord (n : Nat) : wrapIncr (lapWord T n) = lapWord T (n + 1) := by
  have field := toNat_and_counter (lapWord T n + wrapUnit T)
  have sum : n % wraps T * (wrapUnit T).toNat + (wrapUnit T).toNat = (n % wraps T + 1) * (wrapUnit T).toNat := by
    ring
  rw [BitVec.toNat_add, toNat_lapWord, sum, bits_split, Nat.mod_mod_of_dvd _ (Nat.dvd_mul_left _ _),
    Nat.mod_mod_of_dvd _ ⟨2 * wraps T, by ring⟩, Nat.mul_mod_left, Nat.mul_mod_mul_right, Nat.mod_add_mod] at field
  apply BitVec.eq_of_toNat_eq
  rw [toNat_lapWord, wrapIncr]
  exact field

theorem lapWord_inj (same : lapWord T n = lapWord T m) : n % wraps T = m % wraps T := by
  have fields := congrArg BitVec.toNat same
  rw [toNat_lapWord, toNat_lapWord] at fields
  exact Nat.eq_of_mul_eq_mul_right unit_pos fields

/-- Two unlocked words are equal only if the ring has wrapped a multiple of
`wraps` times between them. -/
theorem pack_inj (small : off.toNat ≤ (offsetMask T).toNat) (small' : off'.toNat ≤ (offsetMask T).toNat)
    (same : pack n off = pack m off') : off = off' ∧ n % wraps T = m % wraps T := by
  constructor
  · have offsets := congrArg (· &&& offsetMask T) same
    simpa only [pack_offset small, pack_offset small'] using offsets
  · have counters := congrArg (· &&& wrapCounter T) same
    simp only [pack_counter small, pack_counter small'] at counters
    exact lapWord_inj counters

end Laps

section Target

/-- The word a request of `size` bytes at `off` puts into `wp` if it is accepted
after `n` wraps. -/
def targetWord (T : Target) (n cap off size : Nat) : Usz T :=
  let word := pack (if off + size < cap then n else n + 1) (BitVec.ofNat _ (advance cap off size))
  if cap < off + size then wrapLockBit T ||| word else word

variable {cap rp size : Usz T} {v : Span}

theorem toNat_add_small (small : off.toNat ≤ (offsetMask T).toNat) (small' : size.toNat ≤ (offsetMask T).toNat) :
    (off + size).toNat = off.toNat + size.toNat := by
  have bound := mask_add_one (T := T)
  have bits := bits_split (T := T)
  have many : 1 < wraps T := by cases T <;> decide
  have enough := Nat.mul_le_mul_right (wrapUnit T).toNat (Nat.le_of_lt many)
  rw [BitVec.toNat_add, Nat.mod_eq_of_lt (by omega)]

section Written
variable {c o k : Nat} (cap_le : c ≤ (offsetMask T).toNat) (size_le : k ≤ c) (n : Nat)
include cap_le size_le

theorem toNat_advance : (BitVec.ofNat T.bits (advance c o k)).toNat = advance c o k := by
  have bound := BitVec.isLt (offsetMask T)
  have small : advance c o k ≤ c := advance_le size_le
  rw [BitVec.toNat_ofNat, Nat.mod_eq_of_lt (by omega)]

theorem advance_small : (BitVec.ofNat T.bits (advance c o k)).toNat ≤ (offsetMask T).toNat := by
  rw [toNat_advance cap_le size_le]
  exact Nat.le_trans (advance_le size_le) cap_le

theorem targetWord_locked : Locked (targetWord T n c o k) ↔ c < o + k := by
  have unlocked := pack_unlocked (advance_small (o := o) cap_le size_le)
  unfold targetWord
  dsimp only
  split
  · next past => exact iff_of_true (lock_locked _) past
  · next inside => exact iff_of_false (unlocked _) inside

/-- The word without its lock bit is the packed word after the request. -/
theorem targetWord_unlock : targetWord T n c o k &&& ~~~wrapLockBit T =
    pack (if o + k < c then n else n + 1) (BitVec.ofNat _ (advance c o k)) := by
  have unlocked := pack_unlocked (advance_small (o := o) cap_le size_le) (if o + k < c then n else n + 1)
  unfold targetWord
  dsimp only
  split
  · exact clear_lock unlocked
  · exact and_not_lock unlocked

end Written

theorem ofNat_toNat_eq {k : Nat} (eq : x.toNat = k) : BitVec.ofNat T.bits k = x := by
  rw [← eq, BitVec.ofNat_toNat, BitVec.setWidth_eq]

section Acquire
variable (cap_eq : cap.toNat = v.cap) (rp_eq : rp.toNat = v.rp) (off_eq : off.toNat = v.off)
  (rp_lt : v.rp < v.cap) (off_lt : v.off < v.cap) (cap_le : v.cap ≤ (offsetMask T).toNat)
  (size_le : size.toNat ≤ v.cap) (n : Nat)
include cap_eq rp_eq off_eq rp_lt off_lt cap_le size_le

/-- `mpsc_acquire` accepts the requests that fit. -/
theorem acquireTarget_fits (fits : v.Fits size.toNat) :
    acquireTarget cap (pack n off) rp size = some (targetWord T n v.cap v.off size.toNat) := by
  have small : off.toNat ≤ (offsetMask T).toNat := by omega
  have small' : size.toNat ≤ (offsetMask T).toNat := by omega
  have sum := toNat_add_small small small'
  have below := fits.below
  have around := fits.around
  have clear : ¬(off < rp ∧ off + size ≥ rp) := by
    rw [BitVec.lt_def, ge_iff_le, BitVec.le_def]
    omega
  simp only [acquireTarget, pack_offset small, pack_counter small, wrapIncr_lapWord, if_neg clear]
  rcases v.next_cases size.toNat with ⟨inside, _, next, _⟩ | ⟨ends, _, next, _⟩ | ⟨past, _, next, _⟩
  · have short : ¬off + size ≥ cap := by
      rw [ge_iff_le, BitVec.le_def]
      omega
    rw [if_neg short, targetWord, show advance v.cap v.off size.toNat = _ from next, if_neg (by omega), if_pos inside,
      ofNat_toNat_eq (x := off + size) (by omega)]
    rfl
  · have reaches : off + size ≥ cap := by
      rw [ge_iff_le, BitVec.le_def]
      omega
    have exact : ¬off + size > cap := by
      rw [gt_iff_lt, BitVec.lt_def]
      omega
    have room : ¬(0 : Usz T) &&& offsetMask T ≥ rp := by
      rw [ge_iff_le, BitVec.le_def, BitVec.toNat_and]
      have zero : (0 : Usz T).toNat = 0 := BitVec.toNat_zero
      rw [zero, Nat.zero_and]
      omega
    rw [if_pos reaches, if_neg exact, if_neg room, targetWord, show advance v.cap v.off size.toNat = _ from next,
      if_neg (by omega), if_neg (by omega)]
    rfl
  · have reaches : off + size ≥ cap := by
      rw [ge_iff_le, BitVec.le_def]
      omega
    have beyond : off + size > cap := by
      rw [gt_iff_lt, BitVec.lt_def]
      omega
    have room : ¬(wrapLockBit T ||| size) &&& offsetMask T ≥ rp := by
      rw [lock_offset, offset_self small', ge_iff_le, BitVec.le_def]
      omega
    rw [if_pos reaches, if_pos beyond, if_neg room, targetWord, show advance v.cap v.off size.toNat = _ from next,
      if_pos past, if_neg (by omega), ofNat_toNat_eq rfl, BitVec.or_assoc]
    rfl

omit rp_lt in
/-- It refuses the others. -/
theorem acquireTarget_refuses (full : ¬v.Fits size.toNat) : acquireTarget cap (pack n off) rp size = none := by
  have small : off.toNat ≤ (offsetMask T).toNat := by omega
  have small' : size.toNat ≤ (offsetMask T).toNat := by omega
  have sum := toNat_add_small small small'
  simp only [acquireTarget, pack_offset small, pack_counter small, wrapIncr_lapWord]
  rcases Nat.lt_or_ge v.off v.rp with wrap | straight
  · have reaches : off < rp ∧ off + size ≥ rp := by
      rw [BitVec.lt_def, ge_iff_le, BitVec.le_def]
      refine ⟨by omega, ?_⟩
      by_contra below
      exact full ⟨fun _ => by omega, fun straight => by omega⟩
    exact if_pos reaches
  · have clear : ¬(off < rp ∧ off + size ≥ rp) := by
      rw [BitVec.lt_def]
      omega
    have blocked : v.cap ≤ v.off + size.toNat ∧ v.rp ≤ v.nextOff size.toNat := by
      by_contra free
      exact full ⟨fun wrap => by omega, fun _ _ => by omega⟩
    have reaches : off + size ≥ cap := by
      rw [ge_iff_le, BitVec.le_def]
      omega
    rw [if_neg clear, if_pos reaches]
    rcases v.next_cases size.toNat with ⟨inside, _, next, _⟩ | ⟨ends, _, next, _⟩ | ⟨past, _, next, _⟩
    · omega
    · have exact : ¬off + size > cap := by
        rw [gt_iff_lt, BitVec.lt_def]
        omega
      have empty : rp = 0 := by
        apply BitVec.eq_of_toNat_eq
        rw [rp_eq]
        exact Nat.le_zero.mp (by omega)
      rw [if_neg exact, empty]
      exact if_pos (Nat.zero_le _)
    · have beyond : off + size > cap := by
        rw [gt_iff_lt, BitVec.lt_def]
        omega
      have meets : (wrapLockBit T ||| size) &&& offsetMask T ≥ rp := by
        rw [lock_offset, offset_self small', ge_iff_le, BitVec.le_def]
        omega
      rw [if_pos beyond, if_pos meets]

end Acquire

end Target

end AvaModule.MpscRing
