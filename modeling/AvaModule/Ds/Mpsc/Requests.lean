import AvaModule.Ds.Mpsc.Exact

/-! What `mpsc_acquire`, called alone on an unlocked ring, does with a request of any
size. -/
namespace AvaModule.MpscRing

variable {T : Target} {mpsc mpsc' : Mpsc T} {size : Usz T} {p : Nat}

/-- The offset of `wp`. -/
def Mpsc.off (mpsc : Mpsc T) : Nat := (mpsc.wp &&& offsetMask T).toNat

theorem Mpsc.off_le (mpsc : Mpsc T) : mpsc.off ≤ (offsetMask T).toNat := by
  rw [Mpsc.off, BitVec.toNat_and]
  exact Nat.and_le_right

/-- The end of a request, as the call computes it. -/
def Mpsc.sum (mpsc : Mpsc T) (size : Nat) : Nat := (mpsc.off + size) % T.modulus

/-- The end of the request meets the reader ahead of it, ends the ring with the reader at
its start, or passes the end and meets the reader at the start of the ring. -/
def Refuses (mpsc : Mpsc T) (size : Nat) : Prop :=
  (mpsc.off < mpsc.rp.toNat ∧ mpsc.rp.toNat ≤ mpsc.sum size) ∨
  (mpsc.sum size = mpsc.cap.toNat ∧ mpsc.rp.toNat = 0) ∨
  (mpsc.cap.toNat < mpsc.sum size ∧ mpsc.rp.toNat ≤ size % ((offsetMask T).toNat + 1))

/-- What a call leaves alone besides the buffer and the words. -/
structure Slots (mpsc mpsc' : Mpsc T) (p : Nat) : Prop where
  cap : mpsc'.cap = mpsc.cap
  nproducers : mpsc'.nproducers = mpsc.nproducers
  others : ∀ i ≠ p, mpsc'.producers i = mpsc.producers i

/-- A granted request is placed at the write position, or at the start of the ring; there
it passes the end, or its end has the lock bit set. -/
structure Placed (mpsc : Mpsc T) (p size : Nat) (off : Usz T) (mpsc' : Mpsc T) : Prop where
  place : (off.toNat = mpsc.off ∧ mpsc.sum size ≤ mpsc.cap.toNat) ∨
    (off.toNat = 0 ∧ (mpsc.cap.toNat < mpsc.sum size ∨ (offsetMax T).toNat < mpsc.sum size))
  unlocked : ¬Locked mpsc'.wp
  buf : mpsc'.buf = mpsc.buf
  slots : Slots mpsc mpsc' p

theorem setReserve_slots (mpsc : Mpsc T) (p : Nat) (reservePos : Usz T) :
    Slots mpsc (mpsc.setReserve p reservePos) p := by
  refine ⟨rfl, rfl, fun i other => ?_⟩
  simp [Mpsc.setReserve, other]

/-- An end with the lock bit set has not left the word. -/
theorem sum_high {size : Nat} (size_lt : size < T.modulus) (high : (offsetMax T).toNat < mpsc.sum size) :
    mpsc.off + size < T.modulus := by
  by_contra leaves
  have off_le := mpsc.off_le
  have mask := mask_lt_offsetMax (T := T)
  have wrapped : mpsc.sum size = mpsc.off + size - T.modulus := by
    have field : (offsetMask T).toNat < T.modulus := (offsetMask T).isLt
    rw [Mpsc.sum, Nat.mod_eq_sub_mod (by omega), Nat.mod_eq_of_lt (by omega)]
  omega

/-- An unlocked call is refused without effect on the ring, or granted. -/
theorem mpscAcquire_cases {mpsc : Mpsc T} (unlocked : ¬Locked mpsc.wp) (p : Nat) (size : Usz T) :
    (Refuses mpsc size.toNat ∧ mpscAcquire mpsc p size = some (none, mpsc.setReserve p (offsetMax T))) ∨
    (¬Refuses mpsc size.toNat ∧
      ∃ off m, mpscAcquire mpsc p size = some (some off, m) ∧ Placed mpsc p size.toNat off m) := by
  have small := mpsc.off_le
  have sum : ((mpsc.wp &&& offsetMask T) + size).toNat = mpsc.sum size.toNat := by
    rw [BitVec.toNat_add]
    rfl
  rw [mpscAcquire_eq (pack_of_unlocked unlocked) small]
  have slots := setReserve_slots mpsc p (mpsc.wp &&& offsetMask T)
  unfold Refuses
  by_cases meets : mpsc.off < mpsc.rp.toNat ∧ mpsc.rp.toNat ≤ mpsc.sum size.toNat
  · rw [acquireTarget_meets small meets.1 (by rw [sum]; exact meets.2)]
    exact .inl ⟨.inl meets, rfl⟩
  · have clear : ¬((mpsc.wp &&& offsetMask T).toNat < mpsc.rp.toNat ∧
        mpsc.rp.toNat ≤ ((mpsc.wp &&& offsetMask T) + size).toNat) := by rwa [sum]
    rcases Nat.lt_trichotomy (mpsc.sum size.toNat) mpsc.cap.toNat with inside | ends | past
    · rw [acquireTarget_inside small clear (by rw [sum]; exact inside)]
      refine .inr ⟨by omega, ?_⟩
      by_cases locked : Locked (((mpsc.wp &&& offsetMask T) + size) ||| lapWord T (counterOf mpsc.wp))
      · have high : (offsetMax T).toNat < mpsc.sum size.toNat := by
          rw [← sum]
          exact (locked_iff _).mp ((or_counter_locked _ _).mp locked)
        exact ⟨_, _, congrArg some (if_pos locked), .inr ⟨BitVec.toNat_zero, .inr high⟩, not_lock_unlocked _, rfl,
          ⟨rfl, rfl, slots.others⟩⟩
      · exact ⟨_, _, congrArg some (if_neg locked), .inl ⟨rfl, by omega⟩, locked, rfl, ⟨rfl, rfl, slots.others⟩⟩
    · rw [acquireTarget_ends small clear (by rw [sum]; exact ends)]
      by_cases start : mpsc.rp.toNat = 0
      · rw [if_pos start]
        exact .inl ⟨.inr (.inl ⟨ends, start⟩), rfl⟩
      · have free : ¬Locked (pack (counterOf mpsc.wp + 1) (0 : Usz T)) := pack_unlocked (by simp) _
        rw [if_neg start]
        exact .inr ⟨by omega, _, _, congrArg some (if_neg free), .inl ⟨rfl, by omega⟩, free, rfl,
          ⟨rfl, rfl, slots.others⟩⟩
    · rw [acquireTarget_over small clear (by rw [sum]; exact past)]
      by_cases reader : mpsc.rp.toNat ≤ size.toNat % ((offsetMask T).toNat + 1)
      · rw [if_pos reader]
        exact .inl ⟨.inr (.inr ⟨past, reader⟩), rfl⟩
      · rw [if_neg reader]
        refine .inr ⟨by omega, _, _, congrArg some (if_pos (lock_locked _)), .inr ⟨BitVec.toNat_zero, .inl past⟩,
          not_lock_unlocked _, rfl, ⟨rfl, rfl, slots.others⟩⟩

/-- A read leaves all but `rp` and `warp_end` alone. -/
theorem mpscRead_keeps {bytes : List Byte} (run : mpscRead mpsc size = some (bytes, mpsc')) :
    mpsc' = { mpsc with warpEnd := mpsc'.warpEnd, rp := mpsc'.rp } := by
  simp only [mpscRead, Option.bind_eq_bind, Option.bind_eq_some_iff] at run
  obtain ⟨⟨⟨avail, off⟩, m⟩, pop, run⟩ := run
  have kept := popLoop_keeps pop
  dsimp only at run
  split at run
  · cases run
    exact kept
  · cases run
    rw [kept]
    rfl

end AvaModule.MpscRing
