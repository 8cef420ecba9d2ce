import AvaModule.Ds.Mpsc.Frame

/-! The steps of a producer that leave the used part of the ring alone: one lemma
for each control state. -/
namespace AvaModule.MpscRing
open WrapRing

variable {T : Target} {s s' : St T} {v : Span} {L : Nat → Nat} {i j : Nat}
variable {msg : List Byte} {off wp target reservePos : Usz T}

/-- An unlocked `wp` is the packed word of the span. -/
theorem LockOk.unlocked (ok : LockOk s v) (unlocked : ¬Locked s.wp) :
    s.wp = pack s.laps (BitVec.ofNat _ v.off) := by
  apply ok.free
  intro j
  cases wrapping : (s.pc j).wrapping with
  | none => rfl
  | some w =>
    have locked := (ok.busy j w wrapping).2.1
    rw [locked] at unlocked
    exact absurd (lock_locked _) unlocked

/-- The published offset before and after the lock bit is cleared. -/
theorem pub_clear (slot : MpscP T) (reservePos : Usz T) (same : reservePos = slot.reservePos) :
    ({ slot with reservePos := reservePos &&& ~~~wrapLockBit T } : MpscP T).pub = slot.pub := by
  simp only [MpscP.pub, same, BitVec.and_assoc, BitVec.and_self]

theorem Inv.toNat_off (inv : Inv s v L) : (BitVec.ofNat T.bits v.off).toNat = v.off := by
  have off_lt := inv.valid.off_lt
  have cap_le := inv.cap_le
  have bound := (offsetMask T).isLt
  rw [BitVec.toNat_ofNat, Nat.mod_eq_of_lt (by omega)]

theorem Inv.off_small (inv : Inv s v L) : (BitVec.ofNat T.bits v.off).toNat ≤ (offsetMask T).toNat := by
  have off_lt := inv.valid.off_lt
  have cap_le := inv.cap_le
  rw [inv.toNat_off]
  omega

namespace Inv

theorem reg (inv : Inv s v L) (present : i < s.nproducers) (away : s.pc i = .out ∨ s.pc i = .idle) :
    Inv ((s.setReserve i (offsetMax T)).setPc i .setFlag) v L := by
  apply inv.local_free (setReserve_local s i _ _) present
  · rw [setPc_pc, setPc_producers, setReserve_self]
    rfl
  · rw [setPc_pc]
    rfl
  · rw [setPc_pc]
    rcases away with out | idle
    · rw [out]
      rfl
    · rw [idle]
      rfl

theorem setFlag (inv : Inv s v L) (pc : s.pc i = .setFlag) : Inv ((s.setFlag i true).setPc i .idle) v L := by
  have ok := inv.producer i
  rw [pc] at ok
  apply inv.local_free (setFlag_local s i _ _) (inv.present (by simp [pc]))
  · rw [setPc_pc, setPc_producers, setFlag_self]
    exact ⟨rfl, ok⟩
  · rw [setPc_pc]
    rfl
  · rw [setPc_pc, pc]
    rfl

theorem unreg (inv : Inv s v L) (pc : s.pc i = .idle) : Inv ((s.setFlag i false).setPc i .out) v L := by
  apply inv.local_free (setFlag_local s i _ _) (inv.present (by simp [pc]))
  · rw [setPc_pc, setPc_producers, setFlag_self]
    rfl
  · rw [setPc_pc]
    rfl
  · rw [setPc_pc, pc]
    rfl

theorem acquire (inv : Inv s v L) (pc : s.pc i = .idle) (size : msg.length ≤ s.cap.toNat) :
    Inv (s.setPc i (.loadWp msg)) v L := by
  have ok := inv.producer i
  rw [pc] at ok
  apply inv.local_free (setPc_local s i _) (inv.present (by simp [pc]))
  · rw [setPc_pc, setPc_producers]
    exact ⟨ok.1, inv.cap_eq ▸ size⟩
  · rw [setPc_pc]
    rfl
  · rw [setPc_pc, pc]
    rfl

/-- The load of an unlocked `wp`. -/
theorem loadWp (inv : Inv s v L) (pc : s.pc i = .loadWp msg) (unlocked : ¬Locked s.wp) :
    Inv { s.setPc i (.storeReserve msg s.wp) with seen := Function.update s.seen i s.laps } v L := by
  have ok := inv.producer i
  rw [pc] at ok
  have only : Local s { s.setPc i (.storeReserve msg s.wp) with seen := Function.update s.seen i s.laps } i :=
    ⟨⟨rfl, rfl, rfl, rfl, rfl, rfl, fun _ ne => Function.update_of_ne ne _ _, fun _ _ => rfl,
      fun _ ne => Function.update_of_ne ne _ _⟩, rfl, rfl, rfl⟩
  have word := inv.lock.unlocked unlocked
  have offset : s.wp &&& offsetMask T = BitVec.ofNat _ v.off := by
    rw [word, pack_offset inv.off_small]
  apply inv.local_free only (inv.present (by simp [pc]))
  · simp only [setPc_pc, setPc_producers, Function.update_self]
    refine ⟨ok.1, ok.2, Nat.le_refl _, ?_, ?_, ?_⟩
    · rw [offset]
      exact word
    · rw [offsetOf, offset, inv.toNat_off]
      exact inv.valid.off_lt
    · intro _
      rw [offsetOf, offset, inv.toNat_off]
  · simp only [setPc_pc]
    rfl
  · simp only [setPc_pc, pc]
    rfl

theorem storeReserve (inv : Inv s v L) (pc : s.pc i = .storeReserve msg wp) :
    Inv ((s.setReserve i ((wp &&& offsetMask T) ||| wrapLockBit T)).setPc i (.loadRp msg wp)) v L := by
  have ok := inv.producer i
  rw [pc] at ok
  apply inv.local_free (setReserve_local s i _ _) (inv.present (by simp [pc]))
  · rw [setPc_pc, setPc_producers, setReserve_self]
    exact ⟨ok.1, ok.2.1, ok.2.2, rfl⟩
  · rw [setPc_pc]
    rfl
  · rw [setPc_pc, pc]
    rfl

theorem loadRp_refuse (inv : Inv s v L) (pc : s.pc i = .loadRp msg wp) : Inv (s.setPc i .refuse) v L := by
  have ok := inv.producer i
  rw [pc] at ok
  apply inv.local_free (setPc_local s i _) (inv.present (by simp [pc]))
  · rw [setPc_pc, setPc_producers]
    exact ok.1
  · rw [setPc_pc]
    rfl
  · rw [setPc_pc, pc]
    rfl

/-- The request fits the span whose words the producer has loaded. -/
theorem loadRp_cas (inv : Inv s v L) (pc : s.pc i = .loadRp msg wp)
    (accepted : acquireTarget s.cap wp s.rp (BitVec.ofNat _ msg.length) = some target) :
    Inv (s.setPc i (.cas msg wp target)) v L := by
  have ok := inv.producer i
  rw [pc] at ok
  obtain ⟨flag, size, saw, reserve⟩ := ok
  let loaded : Span := { v with off := offsetOf wp }
  have rp_lt : loaded.rp < loaded.cap := inv.valid.rp_lt
  have cap_le := inv.cap_le
  have bound := (offsetMask T).isLt
  have length : (BitVec.ofNat T.bits msg.length).toNat = msg.length := by
    rw [BitVec.toNat_ofNat, Nat.mod_eq_of_lt (by omega)]
  have fit : loaded.Fits (BitVec.ofNat T.bits msg.length).toNat := by
    by_contra full
    have refused := acquireTarget_refuses (v := loaded) inv.cap_eq inv.rp_eq rfl saw.inside cap_le
      (by rw [length]; exact size) (s.seen i) full
    rw [← saw.word, accepted] at refused
    cases refused
  have word := acquireTarget_fits (v := loaded) inv.cap_eq inv.rp_eq rfl rp_lt saw.inside cap_le
    (by rw [length]; exact size) (s.seen i) fit
  rw [← saw.word, accepted, length] at word
  rw [length] at fit
  apply inv.local_free (setPc_local s i _) (inv.present (by simp [pc]))
  · rw [setPc_pc, setPc_producers]
    refine ⟨flag, size, saw, reserve, Option.some.inj word, ?_⟩
    intro _ same
    have whole : loaded = v := by
      simp only [loaded, ← same]
    exact whole ▸ fit
  · rw [setPc_pc]
    rfl
  · rw [setPc_pc, pc]
    rfl

theorem refuse (inv : Inv s v L) (pc : s.pc i = .refuse) :
    Inv ((s.setReserve i (offsetMax T)).setPc i .idle) v L := by
  have ok := inv.producer i
  rw [pc] at ok
  apply inv.local_free (setReserve_local s i _ _) (inv.present (by simp [pc]))
  · rw [setPc_pc, setPc_producers, setReserve_self]
    exact ⟨ok, rfl⟩
  · rw [setPc_pc]
    rfl
  · rw [setPc_pc, pc]
    rfl

theorem cas_fail (inv : Inv s v L) (pc : s.pc i = .cas msg wp target) : Inv (s.setPc i (.loadWp msg)) v L := by
  have ok := inv.producer i
  rw [pc] at ok
  apply inv.local_free (setPc_local s i _) (inv.present (by simp [pc]))
  · rw [setPc_pc, setPc_producers]
    exact ⟨ok.1, ok.2.1⟩
  · rw [setPc_pc]
    rfl
  · rw [setPc_pc, pc]
    rfl

end Inv

end AvaModule.MpscRing
