import AvaModule.Ds.Mpsc.Region

/-! The successful exchange of `wp`. It is the step that takes the next region,
and the only one that may go wrong: a producer that has loaded `wp` long ago takes
an equal word for the same one. -/
namespace AvaModule.MpscRing
open WrapRing

variable {T : Target} {s s' : St T} {v : Span} {L : Nat → Nat} {i j : Nat}
variable {msg : List Byte} {off wp target : Usz T}

theorem LockOk.none_wrapping (ok : LockOk s v) (unlocked : ¬Locked s.wp) (j : Nat) :
    (s.pc j).wrapping = none := by
  cases wrapping : (s.pc j).wrapping with
  | none => rfl
  | some w =>
    have locked := (ok.busy j w wrapping).2.1
    rw [locked] at unlocked
    exact absurd (lock_locked _) unlocked

/-- Counts that agree modulo the counter and are near agree. -/
theorem eq_of_near {a b m : Nat} (le : a ≤ b) (near : b < a + m) (same : a % m = b % m) : a = b := by
  have zero := Nat.sub_mod_eq_zero_of_mod_eq same.symm
  rw [Nat.mod_eq_of_lt (by omega)] at zero
  omega

/-- What the producer knows when its exchange succeeds in time. -/
structure Granted (s : St T) (v : Span) (i : Nat) (msg : List Byte) (off target : Usz T) : Prop where
  unlocked : ¬Locked s.wp
  flag : (s.producers i).flag = true
  size : msg.length ≤ v.cap
  off_eq : off.toNat = v.off
  pub : (s.producers i).pub = v.off
  word : target = targetWord T s.laps v.cap v.off msg.length
  fits : v.Fits msg.length

theorem Inv.granted (inv : Inv s v L) (pc : s.pc i = .cas msg wp target) (same : s.wp = wp)
    (near : s.laps < s.seen i + wraps T) : Granted s v i msg (wp &&& offsetMask T) target := by
  have ok := inv.producer i
  rw [pc] at ok
  obtain ⟨flag, size, saw, reserve, word, avail⟩ := ok
  have small : (wp &&& offsetMask T).toNat ≤ (offsetMask T).toNat := by
    rw [BitVec.toNat_and]
    exact Nat.and_le_right
  have unlocked : ¬Locked s.wp := by
    rw [same, saw.word]
    exact pack_unlocked small _
  have words := (saw.word.symm.trans same.symm).trans (inv.lock.unlocked unlocked)
  obtain ⟨offset, laps⟩ := pack_inj small inv.off_small words
  have counts := eq_of_near saw.past near laps
  have off_eq : offsetOf wp = v.off := by
    rw [offsetOf, offset, inv.toNat_off]
  refine ⟨unlocked, flag, size, off_eq, ?_, ?_, avail counts.symm off_eq.symm⟩
  · rw [MpscP.pub, reserve, BitVec.or_comm, clear_lock (offset_unlocked small)]
    exact off_eq
  · rw [word, off_eq, counts]

section Others
variable {laps laps' seen : Nat} (counts : laps' = if v.off + msg.length < v.cap then laps else laps + 1)
include counts

/-- If no wrap is counted, the region lies inside the ring. -/
theorem next_inside (same : laps' = laps) :
    v.off + msg.length < v.cap ∧ v.next msg.length = { v with off := v.off + msg.length, W := v.W + msg.length } := by
  have inside : v.off + msg.length < v.cap := by
    by_contra wrap
    rw [if_neg wrap] at counts
    omega
  rcases v.next_cases msg.length with ⟨_, _, _, eq⟩ | ⟨ends, _⟩ | ⟨past, _⟩
  · exact ⟨inside, eq⟩
  · omega
  · omega

theorem laps_le : laps ≤ laps' := by
  rw [counts]
  split <;> omega

theorem Saw.next (saw : Saw wp seen laps v) : Saw wp seen laps' (v.next msg.length) := by
  have le := laps_le counts
  have past := saw.past
  refine ⟨by omega, saw.word, saw.inside, ?_⟩
  intro now
  have same : laps' = laps := by omega
  obtain ⟨_, eq⟩ := next_inside counts same
  have upto := saw.upto (by omega)
  rw [eq]
  exact Nat.le_trans upto (Nat.le_add_right _ _)

/-- The other producers. -/
theorem ProducerOk.next (valid : v.Valid) {slot : MpscP T} {pc : ProducerPc T} (ok : ProducerOk slot pc seen laps v) :
    ProducerOk slot pc seen laps' (v.next msg.length) := by
  cases pc with
  | out | setFlag | idle | loadWp | refuse | loadReserve | clearLock | storeWarpEnd | unlockWp | hold =>
    exact ok
  | storeReserve msg' wp =>
    obtain ⟨flag, size, saw⟩ := ok
    exact ⟨flag, size, saw.next counts⟩
  | loadRp msg' wp =>
    obtain ⟨flag, size, saw, reserve⟩ := ok
    exact ⟨flag, size, saw.next counts, reserve⟩
  | cas msg' wp target =>
    obtain ⟨flag, size, saw, reserve, word, avail⟩ := ok
    refine ⟨flag, size, saw.next counts, reserve, word, ?_⟩
    intro now here
    have le := laps_le counts
    have past := saw.past
    have same : laps' = laps := by omega
    obtain ⟨inside, eq⟩ := next_inside counts same
    have upto := saw.upto (by omega)
    rw [eq] at here
    replace here : v.off + msg.length = offsetOf wp := here
    have empty : msg.length = 0 := by omega
    rw [empty, Span.next_zero valid]
    exact avail (by omega) (by omega)

end Others

section Consumer
variable (valid : v.Valid) (fits : v.Fits msg.length) (off_eq : off.toNat = v.off) (pub : (s.producers i).pub = v.off)
include valid fits pub

/-- The claims after the exchange: the new one, published at the offset of then
and at the end of the stream, and the ones before. -/
structure NewClaim (s s' : St T) (v : Span) (i : Nat) : Prop where
  slots : s'.producers = s.producers
  plain : v.off < v.rp → (s'.pc i).wrapping = none
  others : ∀ j, j ≠ i → s'.pc j = s.pc j

variable (new : NewClaim s s' v i)
include new

omit valid fits pub in
theorem NewClaim.quiet (wrap : v.off < v.rp) (quiet : ∀ j, (s.pc j).wrapping = none) (j : Nat) :
    (s'.pc j).wrapping = none := by
  by_cases self : j = i
  · subst self
    exact new.plain wrap
  · rw [new.others j self]
    exact quiet j

theorem Front.next (front : Front s v L n) :
    Front s' (v.next msg.length) (Function.update L i v.W) n := by
  constructor
  · exact Nat.le_trans front.run (valid.top_next fits)
  · intro j c claim
    by_cases self : j = i
    · subst self
      rw [Function.update_self]
      exact valid.front_le front.run
    · rw [Function.update_of_ne self]
      rw [new.others j self] at claim
      exact front.stops j c claim

theorem Scan.next {rp wp ready : Usz T} {m : Nat} (scan : Scan s v rp wp m ready) :
    Scan s' (v.next msg.length) rp wp m ready := by
  obtain ⟨at_rp, window, above, scanned⟩ := scan
  refine ⟨at_rp, ?_, above, ?_⟩
  · rcases window with ⟨low, upto⟩ | ⟨low, wrap, quiet⟩
    · exact Or.inl ⟨low, Nat.le_trans upto (valid.top_next fits)⟩
    · obtain ⟨eq, lower⟩ := valid.next_wrapped fits wrap
      rw [eq]
      exact Or.inr ⟨low, lower, new.quiet wrap quiet⟩
  · intro j lt c claim published
    rw [new.slots] at published ⊢
    by_cases self : j = i
    · subst self
      rw [pub] at published ⊢
      rcases window with ⟨low, upto⟩ | ⟨_, wrap, _⟩
      · have run : v.top = v.off := if_pos published
        exact Or.inr ⟨low, run ▸ upto⟩
      · exact absurd published (Nat.not_le.mpr wrap)
    · rw [new.others j self] at claim
      exact scanned j lt c claim published

theorem Scanned.next {rp ready : Usz T} (scanned : Scanned s v rp ready) :
    Scanned s' (v.next msg.length) rp ready := by
  obtain ⟨at_rp, wrap, quiet, above, stops⟩ := scanned
  obtain ⟨eq, lower⟩ := valid.next_wrapped fits wrap
  refine ⟨at_rp, ?_, new.quiet wrap quiet, above, ?_⟩
  · rw [eq]
    exact lower
  · intro j c claim published
    rw [new.slots] at published ⊢
    by_cases self : j = i
    · subst self
      rw [pub] at published
      exact absurd published (Nat.not_le.mpr wrap)
    · rw [new.others j self] at claim
      exact stops j c claim published

theorem Exhausted.next (exhausted : Exhausted s v) : Exhausted s' (v.next msg.length) := by
  obtain ⟨wrap, empty, short, lower⟩ := exhausted
  obtain ⟨eq, below⟩ := valid.next_wrapped fits wrap
  rw [eq]
  refine ⟨below, empty, short, ?_⟩
  intro j c claim
  rw [new.slots]
  by_cases self : j = i
  · subst self
    rw [pub]
    exact wrap
  · rw [new.others j self] at claim
    exact lower j c claim

end Consumer

section Exchanged
variable {wp : Usz T}

theorem exchanged_pc (s : St T) (i : Nat) (msg : List Byte) (wp target : Usz T) :
    (s.exchanged i msg wp target).pc i = .loadReserve msg (wp &&& offsetMask T) target := Function.update_self _ _ _

theorem exchanged_other (s : St T) (msg : List Byte) (wp target : Usz T) (ne : j ≠ i) :
    (s.exchanged i msg wp target).pc j = s.pc j := Function.update_of_ne ne _ _

theorem Inv.exchanged_laps (inv : Inv s v L) (granted : Granted s v i msg (wp &&& offsetMask T) target) :
    (s.exchanged i msg wp target).laps = if v.off + msg.length < v.cap then s.laps else s.laps + 1 := by
  have size := granted.size
  have cap_le := inv.cap_le
  have off_lt := inv.valid.off_lt
  have off_eq := granted.off_eq
  have bound := (offsetMask T).isLt
  have length : (BitVec.ofNat T.bits msg.length).toNat = msg.length := by
    rw [BitVec.toNat_ofNat, Nat.mod_eq_of_lt (by omega)]
  have sum : ((wp &&& offsetMask T) + BitVec.ofNat T.bits msg.length).toNat =
      (wp &&& offsetMask T).toNat + (BitVec.ofNat T.bits msg.length).toNat :=
    toNat_add_small (by omega) (by omega)
  have reaches : (wp &&& offsetMask T) + BitVec.ofNat _ msg.length ≥ s.cap ↔ ¬v.off + msg.length < v.cap := by
    rw [ge_iff_le, BitVec.le_def, sum, off_eq, length, inv.cap_eq]
    omega
  simp only [St.exchanged, reaches, ite_not]

/-- The wrap of the word `target` is the wrap of the span. -/
theorem Inv.exchanged_word (inv : Inv s v L) (granted : Granted s v i msg (wp &&& offsetMask T) target) :
    (Locked target ↔ v.cap < v.off + msg.length) ∧
      target &&& ~~~wrapLockBit T =
        pack (s.exchanged i msg wp target).laps (BitVec.ofNat _ (v.next msg.length).off) := by
  rw [inv.exchanged_laps granted, granted.word]
  exact ⟨targetWord_locked inv.cap_le granted.size s.laps, targetWord_unlock inv.cap_le granted.size s.laps⟩

section Parts
variable (inv : Inv s v L) (granted : Granted s v i msg (wp &&& offsetMask T) target)
include inv granted

theorem Inv.exchanged_wrapping : ((s.exchanged i msg wp target).pc i).wrapping =
    if v.cap < v.off + msg.length then some ⟨wp &&& offsetMask T, target, true⟩ else none := by
  rw [exchanged_pc, ProducerPc.wrapping]
  exact if_congr (inv.exchanged_word granted).1 rfl rfl

theorem Inv.exchanged_others (j : Nat) (ne : j ≠ i) : ((s.exchanged i msg wp target).pc j).wrapping = none := by
  rw [exchanged_other s msg wp target ne]
  exact inv.lock.none_wrapping granted.unlocked j

/-- A region beyond the end makes the span wrap and leaves a short upper run. -/
theorem Inv.exchanged_over (past : v.cap < v.off + msg.length) :
    (v.next msg.length).off < v.rp ∧ (v.next msg.length).lim = v.off ∧ v.rp ≤ v.off := by
  have straight : v.rp ≤ v.off := by
    by_contra wrap
    have below := granted.fits.below (Nat.lt_of_not_le wrap)
    have rp_lt := inv.valid.rp_lt
    omega
  refine ⟨granted.fits.around straight (Nat.le_of_lt past), ?_, straight⟩
  exact if_neg (Nat.not_le.mpr past)

theorem Inv.exchanged_lock : LockOk (s.exchanged i msg wp target) (v.next msg.length) := by
  have wrapping := inv.exchanged_wrapping granted
  have others := inv.exchanged_others granted
  obtain ⟨locked, word⟩ := inv.exchanged_word granted
  constructor
  · intro none
    have inside : ¬v.cap < v.off + msg.length := by
      intro past
      rw [if_pos past] at wrapping
      rw [none i] at wrapping
      cases wrapping
    rw [← word, and_not_lock (fun lock => inside (locked.mp lock))]
    rfl
  · intro j w busy
    by_cases self : j = i
    · subst self
      rw [wrapping] at busy
      split at busy
      · next past =>
        cases busy
        obtain ⟨lower, lim, _⟩ := inv.exchanged_over granted past
        have lock : target = wrapLockBit T ||| (target &&& ~~~wrapLockBit T) := by
          rw [granted.word, targetWord_unlock inv.cap_le granted.size, targetWord]
          exact if_pos past
        refine ⟨rfl, ?_, ?_, ?_, lower, ?_⟩
        · rw [← word]
          exact lock
        · rw [lim]
          exact granted.off_eq
        · rw [lim]
          exact granted.pub
        · rw [lim]
          exact inv.valid.off_lt
      · cases busy
    · rw [others j self] at busy
      cases busy
  · intro a b someA someB
    by_cases selfA : a = i
    · by_cases selfB : b = i
      · rw [selfA, selfB]
      · exact absurd (others b selfB) someB
    · exact absurd (others a selfA) someA

theorem Inv.exchanged_warp : WarpOk (s.exchanged i msg wp target) (v.next msg.length) := by
  have wrapping := inv.exchanged_wrapping granted
  have others := inv.exchanged_others granted
  have free : ¬∃ i w, (s.pc i).wrapping = some w ∧ w.unstored = true := by
    rintro ⟨j, w, busy, _⟩
    rw [inv.lock.none_wrapping granted.unlocked j] at busy
    cases busy
  rcases Nat.lt_or_ge v.off v.rp with wrap | straight
  · obtain ⟨eq, lower⟩ := inv.valid.next_wrapped granted.fits wrap
    have inside : ¬v.cap < v.off + msg.length := by
      have rp_lt := inv.valid.rp_lt
      omega
    rw [if_neg inside] at wrapping
    rw [eq]
    constructor
    · rintro (low | whole | ⟨j, w, busy, _⟩ | restart)
      · exact absurd low (Nat.not_le.mpr lower)
      · exact inv.warp.clear (Or.inr (Or.inl whole))
      · by_cases self : j = i
        · subst self
          rw [wrapping] at busy
          cases busy
        · rw [others j self] at busy
          cases busy
      · exact inv.warp.clear (Or.inr (Or.inr (Or.inr restart)))
    · intro _ short _ working
      apply inv.warp.marks wrap short _ working
      intro j w busy
      exact absurd busy (by simp [inv.lock.none_wrapping granted.unlocked j])
  · have clear := inv.warp.clear (Or.inl straight)
    constructor
    · exact fun _ => clear
    · intro wrapped short stored working
      exfalso
      obtain ⟨lim, _⟩ := inv.valid.straight straight
      rcases v.next_cases msg.length with ⟨inside, _, _, eq⟩ | ⟨ends, _, _, eq⟩ | ⟨past, _, _, eq⟩
      · rw [eq] at wrapped
        dsimp only at wrapped
        omega
      · rw [eq] at short
        dsimp only at short
        omega
      · rw [if_pos past] at wrapping
        cases stored i _ wrapping

theorem Inv.exchanged_new : NewClaim s (s.exchanged i msg wp target) v i := by
  refine ⟨rfl, ?_, fun j ne => exchanged_other s msg wp target ne⟩
  intro wrap
  have rp_lt := inv.valid.rp_lt
  have lower := granted.fits.below wrap
  rw [inv.exchanged_wrapping granted, if_neg (by omega)]

end Parts

/-- The exchange takes the next region. -/
theorem Inv.exchanged (inv : Inv s v L) (granted : Granted s v i msg (wp &&& offsetMask T) target)
    (present : i < s.nproducers) :
    Inv (s.exchanged i msg wp target) (v.next msg.length) (Function.update L i v.W) := by
  have counts := inv.exchanged_laps granted
  have new := inv.exchanged_new granted
  have locked := (inv.exchanged_word granted).1
  have claim_self : ∀ c, ((s.exchanged i msg wp target).pc i).claim = some c →
      c = ⟨msg, v.place msg.length, 0, false⟩ := by
    intro c claim
    rw [exchanged_pc] at claim
    cases claim
    have start : (if Locked target then 0 else (wp &&& offsetMask T).toNat) = v.place msg.length := by
      rw [granted.off_eq, Span.place]
      simp only [locked, ← Nat.not_le, ite_not]
    rw [start]
  refine ⟨inv.valid.next granted.fits, inv.cap_le, inv.cap_eq, inv.rp_eq, ?_, ?_, ?_, ?_, ?_,
    inv.exchanged_lock granted, inv.exchanged_warp granted, ?_, ?_⟩
  · have W := inv.W_eq
    simp only [St.exchanged, Span.next, List.length_append]
    omega
  · intro j beyond
    replace beyond : s.nproducers ≤ j := beyond
    rw [new.others j (by omega)]
    exact inv.outside j beyond
  · intro j
    by_cases self : j = i
    · subst self
      rw [exchanged_pc]
      trivial
    · rw [new.others j self]
      exact (inv.producer j).next counts inv.valid
  · intro j c claim
    by_cases self : j = i
    · subst self
      rw [Function.update_self, claim_self c claim]
      refine ⟨granted.flag, ?_, Nat.zero_le _⟩
      rw [new.slots, granted.pub]
      exact Span.Region.new inv.valid granted.fits
    · rw [new.others j self] at claim
      rw [Function.update_of_ne self]
      obtain ⟨flag, region, upto⟩ := inv.holder j c claim
      exact ⟨flag, region.next inv.valid granted.fits, upto⟩
  · have below : ∀ j c, j ≠ i → ((s.exchanged i msg wp target).pc j).claim = some c → L j + c.msg.length ≤ v.W := by
      intro j c ne claim
      rw [new.others j ne] at claim
      exact ((inv.holder j c claim).region.range inv.valid).2
    intro a b c d ne claimA claimB
    by_cases selfA : a = i
    · subst selfA
      rw [Function.update_self, Function.update_of_ne (Ne.symm ne)]
      exact Or.inr (below b d (Ne.symm ne) claimB)
    · by_cases selfB : b = i
      · subst selfB
        rw [Function.update_self, Function.update_of_ne ne]
        exact Or.inl (below a c ne claimA)
      · rw [Function.update_of_ne selfA, Function.update_of_ne selfB]
        rw [new.others a selfA] at claimA
        rw [new.others b selfB] at claimB
        exact inv.apart a b c d ne claimA claimB
  · apply ConsumerOk.transport inv.consumer
    · rfl
    · rfl
    · rfl
    · intro wrap
      obtain ⟨eq, _⟩ := inv.valid.next_wrapped granted.fits wrap
      rw [eq]
      exact ⟨rfl, rfl⟩
    · exact Front.next inv.valid granted.fits granted.pub new
    · exact Scan.next inv.valid granted.fits granted.pub new
    · exact Scanned.next inv.valid granted.fits granted.pub new
    · exact Exhausted.next inv.valid granted.fits granted.pub new
  · constructor
    · exact inv.live.nodup
    · intro b inside
      obtain ⟨k, from_R, to_W, cell, free⟩ := inv.live.used b inside
      refine ⟨k, from_R, Nat.lt_of_lt_of_le to_W (Nat.le_add_right _ _), ?_, ?_⟩
      · rw [inv.valid.cell_next granted.fits from_R to_W]
        exact cell
      · intro j c claim unreturned
        by_cases self : j = i
        · subst self
          rw [Function.update_self]
          omega
        · rw [new.others j self] at claim
          rw [Function.update_of_ne self]
          exact free j c claim unreturned

end Exchanged

end AvaModule.MpscRing
