import AvaModule.Ds.Mpsc.Producer
import Mathlib.Data.List.Nodup

/-! The steps of a producer from its successful exchange to its push. -/
namespace AvaModule.MpscRing
open WrapRing

variable {T : Target} {s s' : St T} {v : Span} {L : Nat → Nat} {i j : Nat}
variable {msg : List Byte} {off wp target reservePos : Usz T} {filled : Nat}

theorem mem_cells {start size b : Nat} : b ∈ cells start size ↔ ∃ j < size, start + j = b := by
  simp [cells]

theorem nodup_cells (start size : Nat) : (cells start size).Nodup := by
  apply List.Nodup.map _ List.nodup_range
  intro a b same
  exact Nat.add_left_cancel same

/-- A region that `mpsc_acquire` returns shares no byte with the live ones. -/
theorem Inv.live_returned (inv : Inv s v L) {c : Claim} (claim : (s.pc i).claim = some c)
    (unreturned : c.returned = false) (claims : Claims s s')
    (now : ∀ c', (s'.pc i).claim = some c' → c'.returned = true)
    (live : s'.live = s.live ++ cells c.start c.msg.length) : LiveOk s' v L := by
  have holder := inv.holder i c claim
  obtain ⟨from_R, to_W⟩ := holder.region.range inv.valid
  constructor
  · rw [live, List.nodup_append]
    refine ⟨inv.live.nodup, nodup_cells _ _, ?_⟩
    intro b old b' new same
    subst same
    obtain ⟨k, from_R', to_W', cell, free⟩ := inv.live.used b old
    obtain ⟨m, inside, place⟩ := mem_cells.mp new
    have here := holder.region.cells inv.valid inside
    have position : k = L i + m := by
      apply inv.valid.cell_inj from_R' to_W' (by omega) (by omega)
      rw [cell, here, place]
    exact free i c claim unreturned ⟨by omega, by omega⟩
  · intro b inside
    rw [live] at inside
    rcases List.mem_append.mp inside with old | new
    · obtain ⟨k, from_R', to_W', cell, free⟩ := inv.live.used b old
      refine ⟨k, from_R', to_W', cell, ?_⟩
      intro j d claim' unreturned'
      obtain ⟨_, d₀, claim₀, same, kept⟩ := claims.claim j d claim'
      rw [← same]
      exact free j d₀ claim₀ (kept unreturned')
    · obtain ⟨m, inside, place⟩ := mem_cells.mp new
      have here := holder.region.cells inv.valid inside
      refine ⟨L i + m, by omega, by omega, here.trans place, ?_⟩
      intro j d claim' unreturned'
      by_cases self : j = i
      · subst self
        rw [now d claim'] at unreturned'
        cases unreturned'
      · obtain ⟨_, d₀, claim₀, same, _⟩ := claims.claim j d claim'
        have disjoint := inv.apart i j c d₀ (Ne.symm self) claim claim₀
        rw [same] at disjoint
        omega

namespace Inv

theorem fill (inv : Inv s v L) (pc : s.pc i = .hold msg off filled) (room : filled < msg.length)
    (buf : Nat → Byte) : Inv { s.setPc i (.hold msg off (filled + 1)) with buf := buf } v L := by
  have only : Local s { s.setPc i (.hold msg off (filled + 1)) with buf := buf } i :=
    ⟨⟨rfl, rfl, rfl, rfl, rfl, rfl, fun _ ne => Function.update_of_ne ne _ _, fun _ _ => rfl,
      fun _ _ => rfl⟩, rfl, rfl, rfl⟩
  apply inv.local only (inv.present (by simp [pc]))
  · simp only [setPc_pc]
    trivial
  · intro c claim
    simp only [setPc_pc] at claim
    cases claim
    exact ⟨⟨msg, off.toNat, filled, true⟩, rfl, rfl, congrArg ProducerPc.claim pc, rfl, rfl, id, room⟩
  · simp only [setPc_pc, pc]
    rfl

theorem push (inv : Inv s v L) (pc : s.pc i = .hold msg off filled) :
    Inv ((s.setReserve i (offsetMax T)).setPc i .idle) v L := by
  have flag := (inv.holder i _ (congrArg ProducerPc.claim pc)).flag
  apply inv.local_free (setReserve_local s i _ _) (inv.present (by simp [pc]))
  · rw [setPc_pc, setPc_producers, setReserve_self]
    exact ⟨flag, rfl⟩
  · rw [setPc_pc]
    rfl
  · rw [setPc_pc, pc]
    rfl

theorem loadReserve (inv : Inv s v L) (pc : s.pc i = .loadReserve msg off target) :
    Inv (s.setPc i (.clearLock msg off target (s.producers i).reservePos)) v L := by
  apply inv.local (setPc_local s i _) (inv.present (by simp [pc]))
  · rw [setPc_pc, setPc_producers]
    rfl
  · intro c claim
    rw [setPc_pc] at claim
    cases claim
    exact ⟨_, rfl, rfl, congrArg ProducerPc.claim pc, rfl, rfl, id, Nat.zero_le _⟩
  · rw [setPc_pc, pc]
    rfl

/-- The lock of `reserve_pos` is cleared by a producer that has wrapped the ring. -/
theorem clearLock_wrap (inv : Inv s v L) (pc : s.pc i = .clearLock msg off target reservePos)
    (locked : Locked target) :
    Inv ((s.setReserve i (reservePos &&& ~~~wrapLockBit T)).setPc i (.storeWarpEnd msg off target)) v L := by
  have same := inv.producer i
  rw [pc] at same
  apply inv.local (setReserve_local s i _ _) (inv.present (by simp [pc]))
  · rw [setPc_pc]
    trivial
  · intro c claim
    rw [setPc_pc] at claim
    cases claim
    refine ⟨⟨msg, 0, 0, false⟩, ?_, ?_, ?_, rfl, rfl, id, Nat.zero_le _⟩
    · rw [setPc_producers, setReserve_self]
    · rw [setPc_producers, setReserve_self]
      exact pub_clear _ _ same
    · rw [pc, ProducerPc.claim, if_pos locked]
  · rw [setPc_pc, pc, ProducerPc.wrapping, ProducerPc.wrapping, if_pos locked]

/-- Without a wrap the region is returned at once. -/
theorem clearLock_return (inv : Inv s v L) (pc : s.pc i = .clearLock msg off target reservePos)
    (unlocked : ¬Locked target) :
    Inv ((s.setReserve i (reservePos &&& ~~~wrapLockBit T)).returned i msg off) v L := by
  have same := inv.producer i
  rw [pc] at same
  have claim₀ : (s.pc i).claim = some ⟨msg, off.toNat, 0, false⟩ := by
    rw [pc, ProducerPc.claim, if_neg unlocked]
  have free : (s.pc i).wrapping = none := by
    rw [pc, ProducerPc.wrapping, if_neg unlocked]
  have only : Only s ((s.setReserve i (reservePos &&& ~~~wrapLockBit T)).returned i msg off) i :=
    ⟨rfl, rfl, rfl, rfl, rfl, rfl, fun _ ne => Function.update_of_ne ne _ _,
      fun _ ne => Function.update_of_ne ne _ _, fun _ _ => rfl⟩
  have pc' : ((s.setReserve i (reservePos &&& ~~~wrapLockBit T)).returned i msg off).pc i = .hold msg off 0 :=
    Function.update_self _ _ _
  have slot : ((s.setReserve i (reservePos &&& ~~~wrapLockBit T)).returned i msg off).producers i =
      { s.producers i with reservePos := reservePos &&& ~~~wrapLockBit T } := Function.update_self _ _ _
  have kept : ∀ c, (((s.setReserve i (reservePos &&& ~~~wrapLockBit T)).returned i msg off).pc i).claim = some c →
      ∃ c₀, KeepsClaim s ((s.setReserve i (reservePos &&& ~~~wrapLockBit T)).returned i msg off) i c c₀ := by
    intro c claim
    rw [pc'] at claim
    cases claim
    refine ⟨_, ?_, ?_, claim₀, rfl, rfl, fun _ => rfl, Nat.zero_le _⟩
    · rw [slot]
    · rw [slot]
      exact pub_clear _ _ same
  have wraps : Wraps s ((s.setReserve i (reservePos &&& ~~~wrapLockBit T)).returned i msg off) := by
    intro j
    by_cases self : j = i
    · subst self
      rw [pc', free]
      rfl
    · rw [only.pc j self]
  have claims := only.claims kept (wraps i).trans
  apply inv.only only (inv.present (by simp [pc])) _ kept (wraps i).trans
  · exact wraps.lock claims rfl rfl inv.lock
  · exact wraps.warp rfl Iff.rfl inv.warp
  · apply inv.live_returned claim₀ rfl claims _ rfl
    intro c claim
    rw [pc'] at claim
    cases claim
    rfl
  · rw [pc']
    trivial

/-- `warp_end` marks where the upper run ends. -/
theorem storeWarpEnd (inv : Inv s v L) (pc : s.pc i = .storeWarpEnd msg off target) :
    Inv { s.setPc i (.unlockWp msg off target) with warpEnd := off } v L := by
  have only : Only s { s.setPc i (.unlockWp msg off target) with warpEnd := off } i :=
    ⟨rfl, rfl, rfl, rfl, rfl, rfl, fun _ ne => Function.update_of_ne ne _ _, fun _ _ => rfl,
      fun _ _ => rfl⟩
  have wrapping : (s.pc i).wrapping = some ⟨off, target, true⟩ := by
    rw [pc]
    rfl
  obtain ⟨wp, word, lim, pub, wrap, short⟩ := inv.lock.busy i _ wrapping
  have pc' : (s.setPc i (.unlockWp msg off target)).pc i = .unlockWp msg off target := Function.update_self _ _ _
  have others : ∀ j, j ≠ i → (s.pc j).wrapping = none := by
    intro j ne
    by_contra some
    exact ne (inv.lock.alone j i some (by simp [wrapping]))
  have kept : ∀ c, ((s.setPc i (.unlockWp msg off target)).pc i).claim = some c →
      ∃ c₀, KeepsClaim s { s.setPc i (.unlockWp msg off target) with warpEnd := off } i c c₀ := by
    intro c claim
    rw [pc'] at claim
    cases claim
    exact ⟨_, rfl, rfl, congrArg ProducerPc.claim pc, rfl, rfl, id, Nat.zero_le _⟩
  have busy : (s.pc i).wrapping ≠ none := by simp [wrapping]
  have claims := only.claims kept fun none => absurd none busy
  apply inv.only only (inv.present (by simp [pc])) _ kept fun none => absurd none busy
  · constructor
    · intro none
      have absurd := none i
      simp only [pc'] at absurd
      cases absurd
    · intro j w wrapping'
      by_cases self : j = i
      · subst self
        simp only [pc'] at wrapping'
        cases wrapping'
        exact ⟨wp, word, lim, pub, wrap, short⟩
      · rw [only.pc j self, others j self] at wrapping'
        cases wrapping'
    · intro a b someA someB
      by_cases selfA : a = i
      · by_cases selfB : b = i
        · rw [selfA, selfB]
        · rw [only.pc b selfB, others b selfB] at someB
          exact absurd rfl someB
      · rw [only.pc a selfA, others a selfA] at someA
        exact absurd rfl someA
  · constructor
    · rintro (straight | whole | ⟨j, w, wrapping', unstored⟩ | restart)
      · omega
      · omega
      · by_cases self : j = i
        · subst self
          simp only [pc'] at wrapping'
          cases wrapping'
          cases unstored
        · rw [only.pc j self, others j self] at wrapping'
          cases wrapping'
      · have exhausted := inv.consumer
        replace restart : s.consumer = .restart := restart
        rw [ConsumerOk, restart] at exhausted
        have lower := exhausted.lower i _ (congrArg ProducerPc.claim pc)
        have empty := exhausted.empty
        omega
    · intro _ _ _ _
      exact lim
  · exact claims.live rfl inv.live
  · simp only [pc']
    trivial

/-- The store that unlocks `wp` returns the region at the start of the ring. -/
theorem unlockWp (inv : Inv s v L) (pc : s.pc i = .unlockWp msg off target) :
    Inv { s.returned i msg 0 with wp := target &&& ~~~wrapLockBit T } v L := by
  have only : Only s { s.returned i msg 0 with wp := target &&& ~~~wrapLockBit T } i :=
    ⟨rfl, rfl, rfl, rfl, rfl, rfl, fun _ ne => Function.update_of_ne ne _ _, fun _ _ => rfl,
      fun _ _ => rfl⟩
  have wrapping : (s.pc i).wrapping = some ⟨off, target, false⟩ := by
    rw [pc]
    rfl
  have claim₀ : (s.pc i).claim = some ⟨msg, 0, 0, false⟩ := by
    rw [pc]
    rfl
  obtain ⟨wp, word, _, _, wrap, short⟩ := inv.lock.busy i _ wrapping
  have pc' : (s.returned i msg 0).pc i = .hold msg 0 0 := Function.update_self _ _ _
  have free : ∀ j, (({ s.returned i msg 0 with wp := target &&& ~~~wrapLockBit T } : St T).pc j).wrapping = none := by
    intro j
    by_cases self : j = i
    · subst self
      simp only [pc']
      rfl
    · rw [only.pc j self]
      by_contra some
      exact self (inv.lock.alone j i some (by simp [wrapping]))
  have kept : ∀ c, ((s.returned i msg 0).pc i).claim = some c →
      ∃ c₀, KeepsClaim s { s.returned i msg 0 with wp := target &&& ~~~wrapLockBit T } i c c₀ := by
    intro c claim
    rw [pc'] at claim
    cases claim
    exact ⟨_, rfl, rfl, claim₀, rfl, BitVec.toNat_zero.symm, fun _ => rfl, Nat.zero_le _⟩
  have claims := only.claims kept fun _ => free i
  apply inv.only only (inv.present (by simp [pc])) _ kept fun _ => free i
  · constructor
    · intro _
      have unlocked := pack_unlocked inv.off_small s.laps
      have clear := clear_lock unlocked
      rw [← word, wp] at clear
      exact clear
    · intro j w busy
      rw [free j] at busy
      cases busy
    · intro a b someA
      exact absurd (free a) someA
  · constructor
    · rintro (straight | whole | ⟨j, w, busy, _⟩ | restart)
      · omega
      · omega
      · rw [free j] at busy
        cases busy
      · exact inv.warp.clear (Or.inr (Or.inr (Or.inr restart)))
    · intro _ _ _ working
      apply inv.warp.marks wrap short _ working
      intro j w busy
      have self := inv.lock.alone j i (by simp [busy]) (by simp [wrapping])
      subst self
      rw [wrapping] at busy
      cases busy
      rfl
  · apply inv.live_returned claim₀ rfl claims
    · intro c claim
      simp only [pc'] at claim
      cases claim
      rfl
    · rfl
  · simp only [pc']
    trivial

end Inv

end AvaModule.MpscRing
