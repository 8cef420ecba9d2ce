import Mathlib.Data.BitVec
import Mathlib.Tactic.Ring
import AvaModule.Ds.Spsc.Sequential

/-! Writes of any size under `SPSC_POLICY_OVERWRITE`. A size above the capacity is
not cut: the first copy ends at the end of the buffer and the second one takes
all that is left, which may run past the buffer. -/
namespace AvaModule.SpscRing
open Counter Memory Transition BoundedQueue

variable {T : Target} {spsc : Spsc T} {items src : List Byte} {R : Nat} {cap : Usz T}

/-- What a read of everything would return. -/
def readable (spsc : Spsc T) : List Byte := (spscReadBuf spsc (spscAvail spsc)).1

/-- The write stores below `cap` only, and leaves the last `cap` bytes of the old
content followed by the new data, or all of them if they are fewer. -/
structure WriteExact (spsc : Spsc T) (src : List Byte) : Prop where
  stores : ∀ i < (spscWriteBuf spsc src).1.toNat,
    copyCell spsc.cap spsc.wp (spscWriteBuf spsc src).1 i < spsc.cap.toNat
  content : readable (spscWriteBuf spsc src).2 =
    (readable spsc ++ src).drop ((readable spsc).length + src.length - spsc.cap.toNat)

section Cells

theorem Holds.readable (h : Holds spsc R items) : readable spsc = items := by
  obtain ⟨_, run, _⟩ := h.readBuf (spscAvail spsc)
  rw [SpscRing.readable, run, h.avail, List.take_length]

/-- The cells of the two copies of a write of any size. -/
theorem copyCell_ring (pow : ∃ k, cap.toNat = 2 ^ k) (n : Nat) {size : Usz T} (lt : i < size.toNat) :
    copyCell cap (word _ n) size i =
      if i < cap.toNat - n % cap.toNat then n % cap.toNat + i else i - (cap.toNat - n % cap.toNat) := by
  have first := firstPart_toNat pow n size
  obtain ⟨k, pow⟩ := pow
  have mask := toNat_word_mask pow n
  change (if i < (firstPart cap (word _ n &&& (cap - 1)) size).toNat then
    (word _ n &&& (cap - 1)).toNat + i else i - (firstPart cap (word _ n &&& (cap - 1)) size).toNat) = _
  rw [first, mask]
  split_ifs <;> omega

/-- The copies stay in the buffer exactly if the second one ends there. -/
theorem copyCell_inside (pow : ∃ k, cap.toNat = 2 ^ k) (n : Nat) (size : Usz T) :
    (∀ i < size.toNat, copyCell cap (word _ n) size i < cap.toNat) ↔
      n % cap.toNat + size.toNat ≤ 2 * cap.toNat := by
  have inside : n % cap.toNat < cap.toNat := by
    obtain ⟨k, pow⟩ := pow
    exact Nat.mod_lt n (by rw [pow]; exact Nat.two_pow_pos k)
  constructor
  · intro stores
    by_contra past
    have last := stores (size.toNat - 1) (by omega)
    rw [copyCell_ring pow n (by omega)] at last
    split_ifs at last <;> omega
  · intro fits i lt
    rw [copyCell_ring pow n lt]
    split_ifs <;> omega

end Cells

section States

/-- Counters no further apart than the capacity hold some content. -/
theorem exists_holds (pow : isPowerOf2 spsc.cap) (bound : (spscAvail spsc).toNat ≤ spsc.cap.toNat) :
    ∃ R items, Holds spsc R items := by
  let R := spsc.rp.toNat
  let items := (List.range (spscAvail spsc).toNat).map fun i => spsc.buf ((R + i) % spsc.cap.toNat)
  have length : items.length = (spscAvail spsc).toNat := by simp [items]
  refine ⟨R, items, isPowerOf2_toNat pow, by simp [R, word], ?_, by rw [length]; exact bound, ?_⟩
  · rw [length, ← word_add_bits, spscAvail, show word T.bits R = spsc.rp by simp [R, word]]
    ring
  · intro i lt
    simp [items]

/-- What every call of any size keeps. -/
structure Ready (spsc : Spsc T) : Prop where
  pow : isPowerOf2 spsc.cap
  overwrite : spsc.ePolicy = .overwrite
  bound : (spscAvail spsc).toNat ≤ spsc.cap.toNat

theorem Ready.holds (ready : Ready spsc) : ∃ R items, Holds spsc R items :=
  exists_holds ready.pow ready.bound

theorem Holds.ready (h : Holds spsc R items) (pow : isPowerOf2 spsc.cap) (overwrite : spsc.ePolicy = .overwrite) :
    Ready spsc :=
  ⟨pow, overwrite, by rw [h.avail]; exact h.bound⟩

/-- A write for which there is no room takes its whole size and moves `rp` so that
the ring is full. -/
theorem write_short (h : Holds spsc R items) (overwrite : spsc.ePolicy = .overwrite)
    (short : src.length < T.modulus) (past : spsc.cap.toNat - items.length < src.length) :
    spscWriteBuf spsc src = (BitVec.ofNat _ src.length, { spsc with
      buf := copyIn spsc.buf spsc.cap spsc.wp src (BitVec.ofNat _ src.length)
      rp := spsc.rp + (BitVec.ofNat _ src.length - spscFree spsc)
      wp := spsc.wp + BitVec.ofNat _ src.length }) := by
  have policy := (spscPolicy_holds h short).2 past
  rw [overwrite, shortPolicy] at policy
  have size := toNat_length short
  have positive : BitVec.ofNat T.bits src.length ≠ 0 := by
    intro zero
    rw [zero] at size
    have : src.length = 0 := size.symm
    omega
  simp only [spscWriteBuf, overwrite, policy, droppedRp]
  exact if_neg positive

/-- Under this policy every write takes its whole size. -/
theorem write_size (h : Holds spsc R items) (overwrite : spsc.ePolicy = .overwrite)
    (short : src.length < T.modulus) : (spscWriteBuf spsc src).1 = BitVec.ofNat _ src.length := by
  by_cases enough : src.length ≤ spsc.cap.toNat - items.length
  · have policy := (spscPolicy_holds h short).1 enough
    simp only [spscWriteBuf, policy]
    split
    · next zero => exact zero.symm
    · rfl
  · rw [write_short h overwrite short (by omega)]

/-- A write within the capacity leaves what it leaves on a bounded queue. -/
theorem write_within (h : Holds spsc R items) (overwrite : spsc.ePolicy = .overwrite)
    (short : src.length < T.modulus) (small : src.length ≤ spsc.cap.toNat) :
    ∃ R', Holds (spscWriteBuf spsc src).2 R'
        ((items ++ src).drop (items.length + src.length - spsc.cap.toNat)) ∧
      (spscWriteBuf spsc src).2.cap = spsc.cap ∧ (spscWriteBuf spsc src).2.ePolicy = .overwrite := by
  let q : Queue Byte spsc.cap.toNat := ⟨items, h.bound⟩
  have refines : Refines .overwrite spsc q := ⟨rfl, overwrite, R, h⟩
  obtain ⟨_, cap, policy, R', kept⟩ := write_refines (T := T) ⟨short, fun _ => small⟩ refines
  exact ⟨R', kept, BitVec.eq_of_toNat_eq cap, policy⟩

/-- A longer write that stays in the buffer leaves the last bytes of its data. -/
theorem write_beyond (h : Holds spsc R items) (overwrite : spsc.ePolicy = .overwrite)
    (short : src.length < T.modulus) (large : spsc.cap.toNat < src.length)
    (fits : (R + items.length) % spsc.cap.toNat + src.length ≤ 2 * spsc.cap.toNat) :
    ∃ R', Holds (spscWriteBuf spsc src).2 R'
      ((items ++ src).drop (items.length + src.length - spsc.cap.toNat)) := by
  have free := h.free
  have size := toNat_length (T := T) short
  have bound := h.bound
  have inside := h.off_lt (R + items.length)
  have drop : (BitVec.ofNat T.bits src.length - spscFree spsc).toNat =
      items.length + src.length - spsc.cap.toNat := by
    rw [BitVec.toNat_sub_of_le, size, free]
    · omega
    · rw [BitVec.le_def, size, free]
      omega
  rw [write_short h overwrite short (by omega)]
  have left : ((items ++ src).drop (items.length + src.length - spsc.cap.toNat)).length = spsc.cap.toNat := by
    rw [List.length_drop, List.length_append]
    omega
  refine ⟨R + (items.length + src.length - spsc.cap.toNat), h.pow, ?_, ?_, left.le, ?_⟩
  · dsimp only
    rw [h.at_rp, word_add_bits, drop]
  · dsimp only
    rw [h.at_wp, word_add_bits, size, left]
    congr 1
    omega
  · intro i lt
    rw [left] at lt
    dsimp only
    rw [h.at_wp, copyIn_eq h.pow, size, List.take_length]
    -- byte `i` of what is left is byte `j` of the new data
    obtain ⟨j, place⟩ : ∃ j, j + spsc.cap.toNat = src.length + i := ⟨src.length + i - spsc.cap.toNat, by omega⟩
    have cell : writeRing spsc.buf spsc.cap.toNat ((R + items.length) % spsc.cap.toNat) src
        (((R + items.length) % spsc.cap.toNat + j) % spsc.cap.toNat) = src[j] :=
      writeRing_cell_late inside fits (by omega) (by omega)
    rw [Nat.mod_add_mod] at cell
    rw [show R + (items.length + src.length - spsc.cap.toNat) + i = R + items.length + j by omega, cell,
      List.getElem_drop, List.getElem_append_right (by omega)]
    congr 1
    omega

theorem write_ready (ready : Ready spsc) (short : src.length < T.modulus) :
    Ready (spscWriteBuf spsc src).2 ∧ (spscWriteBuf spsc src).2.cap = spsc.cap := by
  obtain ⟨R, items, h⟩ := ready.holds
  by_cases small : src.length ≤ spsc.cap.toNat
  · obtain ⟨R', kept, cap, policy⟩ := write_within h ready.overwrite short small
    exact ⟨kept.ready (by rw [cap]; exact ready.pow) policy, cap⟩
  · rw [write_short h ready.overwrite short (by omega)]
    refine ⟨⟨ready.pow, ready.overwrite, ?_⟩, rfl⟩
    have full : spsc.wp + BitVec.ofNat T.bits src.length -
        (spsc.rp + (BitVec.ofNat T.bits src.length - spscFree spsc)) = spsc.cap := by
      rw [spscFree, spscAvail]
      ring
    exact (congrArg BitVec.toNat full).le

theorem read_ready (ready : Ready spsc) (size : Usz T) :
    Ready (spscReadBuf spsc size).2 ∧ (spscReadBuf spsc size).2.cap = spsc.cap := by
  obtain ⟨R, items, h⟩ := ready.holds
  obtain ⟨t, run, kept, cap, policy⟩ := h.readBuf size
  rw [run]
  exact ⟨kept.ready (by rw [cap]; exact ready.pow) (policy.trans ready.overwrite), cap⟩

/-- A write of any size is exact exactly if its copies stay in the buffer. -/
theorem writeExact_iff (ready : Ready spsc) (short : src.length < T.modulus) :
    WriteExact spsc src ↔ spsc.wp.toNat % spsc.cap.toNat + src.length ≤ 2 * spsc.cap.toNat := by
  obtain ⟨R, items, h⟩ := ready.holds
  have size := toNat_length (T := T) short
  have off : spsc.wp.toNat % spsc.cap.toNat = (R + items.length) % spsc.cap.toNat := by
    obtain ⟨k, pow⟩ := h.pow
    have mask := toNat_word_mask pow (R + items.length)
    have same := toNat_word_mask pow spsc.wp.toNat
    rw [← h.at_wp] at mask
    rw [← mask, ← same]
    simp [word]
  have stores := copyCell_inside h.pow (R + items.length) (BitVec.ofNat T.bits src.length)
  rw [← h.at_wp, size, ← off] at stores
  have inside := h.off_lt (R + items.length)
  have taken := write_size h ready.overwrite short
  constructor
  · intro exact
    have inBuffer := exact.stores
    rw [taken, size] at inBuffer
    exact stores.mp inBuffer
  · intro fits
    have kept : ∃ R', Holds (spscWriteBuf spsc src).2 R'
        ((items ++ src).drop (items.length + src.length - spsc.cap.toNat)) := by
      by_cases small : src.length ≤ spsc.cap.toNat
      · obtain ⟨R', kept, _⟩ := write_within h ready.overwrite short small
        exact ⟨R', kept⟩
      · exact write_beyond h ready.overwrite short (by omega) (off ▸ fits)
    obtain ⟨R', kept⟩ := kept
    refine ⟨?_, ?_⟩
    · rw [taken, size]
      exact stores.mpr fits
    · rw [kept.readable, h.readable]

theorem calls_ready {calls : List (Call T)} (ready : Ready spsc)
    (words : ∀ data, Call.write data ∈ calls → data.length < T.modulus) :
    Ready (trace spscCall calls spsc).2 ∧ (trace spscCall calls spsc).2.cap = spsc.cap := by
  induction calls generalizing spsc with
  | nil => exact ⟨ready, rfl⟩
  | cons call calls ih =>
    have next : Ready (spscCall call spsc).2 ∧ (spscCall call spsc).2.cap = spsc.cap := by
      cases call with
      | write data => exact write_ready ready (words data List.mem_cons_self)
      | read size => exact read_ready ready size
    obtain ⟨last, cap⟩ := ih next.1 fun data member => words data (List.mem_cons_of_mem _ member)
    exact ⟨last, cap.trans next.2⟩

end States

/-- After any calls on a freshly initialised ring, of any sizes, a write stores
below `cap` and leaves the last bytes of the content exactly if the write offset
and the size do not exceed twice the capacity together. -/
theorem calls_writeExact_iff {start : Spsc T} (init : spscInitBuf spsc cap .overwrite = some start)
    {calls : List (Call T)} (words : ∀ data, Call.write data ∈ calls → data.length < T.modulus)
    (short : src.length < T.modulus) :
    WriteExact (trace spscCall calls start).2 src ↔
      (trace spscCall calls start).2.wp.toNat % cap.toNat + src.length ≤ 2 * cap.toNat := by
  rw [spscInitBuf] at init
  split at init
  · next pow =>
    cases init
    have fresh : Ready { spsc with ePolicy := .overwrite, cap := cap, rp := 0, wp := 0 } :=
      ⟨pow, rfl, by simp [spscAvail]⟩
    obtain ⟨ready, same⟩ := calls_ready fresh words
    rw [writeExact_iff ready short, same]
  · cases init

/-- A ring of four bytes after three of them have been written. -/
def threeOfFour : Spsc .host := (trace spscCall [.write [1, 2, 3]] ⟨.overwrite, fun _ => 0, 4, 0, 0⟩).2

/-- One byte more than the capacity still ends in the buffer. -/
theorem calls_writeExact_iff_four :
    WriteExact threeOfFour [4, 5, 6, 7, 8] ↔ threeOfFour.wp.toNat % 4 + 5 ≤ 2 * 4 := by
  have init : spscInitBuf ⟨.reject, fun _ => 0, 8, 1, 1⟩ 4 .overwrite =
      some (⟨.overwrite, fun _ => 0, 4, 0, 0⟩ : Spsc .host) := rfl
  refine calls_writeExact_iff init ?_ (by decide)
  intro data member
  obtain rfl : data = [1, 2, 3] := by simpa using member
  decide

/-- With the write offset at three, six bytes are stored up to offset four. -/
theorem overwrite_past_buffer : ¬WriteExact threeOfFour [4, 5, 6, 7, 8, 9] := by
  intro exact
  have last := exact.stores 5 (by decide)
  exact absurd last (by decide)

end AvaModule.SpscRing
