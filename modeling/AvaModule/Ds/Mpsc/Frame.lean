import AvaModule.Ds.Mpsc.Invariant

/-! Steps that change one producer and its slot only. -/
namespace AvaModule.MpscRing
open WrapRing

variable {T : Target} {s s' : St T} {v : Span} {L : Nat → Nat} {i j : Nat}

/-- The consumer's part follows the parts it is made of. -/
theorem ConsumerOk.transport {v' : Span} {L' : Nat → Nat} (ok : ConsumerOk s v L)
    (same : s'.consumer = s.consumer) (rp : s'.rp = s.rp) (rp' : v'.rp = v.rp)
    (lim : v.off < v.rp → v'.lim = v.lim ∧ v'.cap = v.cap)
    (front : ∀ {n}, Front s v L n → Front s' v' L' n)
    (scan : ∀ {rp wp i ready}, Scan s v rp wp i ready → Scan s' v' rp wp i ready)
    (scanned : ∀ {rp ready}, Scanned s v rp ready → Scanned s' v' rp ready)
    (exhausted : Exhausted s v → Exhausted s' v') : ConsumerOk s' v' L' := by
  unfold ConsumerOk at ok ⊢
  rw [same]
  cases pc : s.consumer <;> rw [pc] at ok <;> dsimp only at ok ⊢
  case idle off avail copied => exact ⟨fun some => (ok.1 some).trans rp'.symm, front ok.2.1, ok.2.2⟩
  case loadWp => exact ok.trans rp'.symm
  case loadFlag => exact scan ok
  case loadReserve => exact scan ok
  case testWarpEnd => exact scanned ok
  case loadWarpEnd =>
    obtain ⟨lim, cap⟩ := lim ok.1.wrap
    exact ⟨scanned ok.1, by omega⟩
  case testClear =>
    obtain ⟨lim, cap⟩ := lim ok.1.wrap
    exact ⟨scanned ok.1, by omega⟩
  case clearWarpEnd => exact exhausted ok
  case restart => exact exhausted ok
  case releaseLoad => exact ⟨fun some => (ok.1 some).trans rp'.symm, front ok.2.1, ok.2.2⟩
  case releaseStore =>
    exact ⟨fun some => (ok.1 some).trans rp'.symm, front ok.2.1, ok.2.2.1, ok.2.2.2.trans rp.symm⟩

/-- Every claim of `s'` is one of `s`, published at the same offset, and no producer
has begun to wrap the ring. -/
structure Claims (s s' : St T) : Prop where
  claim : ∀ j c, (s'.pc j).claim = some c → (s'.producers j).pub = (s.producers j).pub ∧
    ∃ c₀, (s.pc j).claim = some c₀ ∧ c₀.msg = c.msg ∧ (c.returned = false → c₀.returned = false)
  wrap : ∀ j, (s.pc j).wrapping = none → (s'.pc j).wrapping = none

theorem Claims.refl (pc : s'.pc = s.pc) (producers : s'.producers = s.producers) : Claims s s' := by
  constructor
  · intro j c claim
    rw [pc] at claim
    rw [producers]
    exact ⟨rfl, c, claim, rfl, id⟩
  · intro j
    rw [pc]
    exact id

namespace Claims

theorem front (claims : Claims s s') (front : Front s v L n) : Front s' v L n := by
  constructor
  · exact front.run
  · intro j c claim
    obtain ⟨_, c₀, claim₀, _⟩ := claims.claim j c claim
    exact front.stops j c₀ claim₀

theorem scan (claims : Claims s s') {rp wp ready : Usz T} (scan : Scan s v rp wp i ready) :
    Scan s' v rp wp i ready := by
  obtain ⟨at_rp, window, above, scanned⟩ := scan
  refine ⟨at_rp, window.imp_right fun ⟨low, wrap, quiet⟩ => ⟨low, wrap, fun j => claims.wrap j (quiet j)⟩, above, ?_⟩
  intro j lt c claim published
  obtain ⟨pub, c₀, claim₀, _⟩ := claims.claim j c claim
  rw [pub] at published ⊢
  exact scanned j lt c₀ claim₀ published

theorem scanned (claims : Claims s s') {rp ready : Usz T} (scanned : Scanned s v rp ready) :
    Scanned s' v rp ready := by
  obtain ⟨at_rp, wrap, quiet, above, stops⟩ := scanned
  refine ⟨at_rp, wrap, fun j => claims.wrap j (quiet j), above, ?_⟩
  intro j c claim published
  obtain ⟨pub, c₀, claim₀, _⟩ := claims.claim j c claim
  rw [pub] at published ⊢
  exact stops j c₀ claim₀ published

theorem exhausted (claims : Claims s s') (exhausted : Exhausted s v) : Exhausted s' v := by
  obtain ⟨wrap, empty, short, lower⟩ := exhausted
  refine ⟨wrap, empty, short, ?_⟩
  intro j c claim
  obtain ⟨pub, c₀, claim₀, _⟩ := claims.claim j c claim
  rw [pub]
  exact lower j c₀ claim₀

theorem consumer (claims : Claims s s') (same : s'.consumer = s.consumer) (rp : s'.rp = s.rp)
    (ok : ConsumerOk s v L) : ConsumerOk s' v L :=
  ok.transport same rp rfl (fun _ => ⟨rfl, rfl⟩) claims.front claims.scan claims.scanned claims.exhausted

theorem live (claims : Claims s s') (same : s'.live = s.live) (ok : LiveOk s v L) : LiveOk s' v L := by
  obtain ⟨nodup, used⟩ := ok
  constructor
  · rw [same]
    exact nodup
  · intro b inside
    rw [same] at inside
    obtain ⟨k, from_R, to_W, cell, free⟩ := used b inside
    refine ⟨k, from_R, to_W, cell, ?_⟩
    intro j c claim unreturned
    obtain ⟨_, c₀, claim₀, msg, kept⟩ := claims.claim j c claim
    rw [← msg]
    exact free j c₀ claim₀ (kept unreturned)

theorem apart (claims : Claims s s')
    (ok : ∀ i j c d, i ≠ j → (s.pc i).claim = some c → (s.pc j).claim = some d →
      L i + c.msg.length ≤ L j ∨ L j + d.msg.length ≤ L i) :
    ∀ i j c d, i ≠ j → (s'.pc i).claim = some c → (s'.pc j).claim = some d →
      L i + c.msg.length ≤ L j ∨ L j + d.msg.length ≤ L i := by
  intro i j c d ne claim claim'
  obtain ⟨_, c₀, claim₀, msg, _⟩ := claims.claim i c claim
  obtain ⟨_, d₀, claim₀', msg', _⟩ := claims.claim j d claim'
  rw [← msg, ← msg']
  exact ok i j c₀ d₀ ne claim₀ claim₀'

end Claims

/-- The lock state of all producers is kept. -/
def Wraps (s s' : St T) : Prop := ∀ j, (s'.pc j).wrapping = (s.pc j).wrapping

theorem ProducerPc.claim_of_wrapping {pc : ProducerPc T} {w : Wrapping T} (wrapping : pc.wrapping = some w) :
    ∃ c, pc.claim = some c := by
  cases pc with
  | loadReserve | clearLock | storeWarpEnd | unlockWp => exact ⟨_, rfl⟩
  | out | setFlag | idle | loadWp | storeReserve | loadRp | cas | refuse | hold => cases wrapping

theorem Wraps.lock (wraps : Wraps s s') (claims : Claims s s') (wp : s'.wp = s.wp) (laps : s'.laps = s.laps)
    (ok : LockOk s v) :
    LockOk s' v := by
  obtain ⟨free, busy, alone⟩ := ok
  constructor
  · intro none
    rw [wp, laps]
    exact free fun j => (wraps j).symm.trans (none j)
  · intro j w wrapping
    obtain ⟨c, claim⟩ := ProducerPc.claim_of_wrapping wrapping
    rw [wp, laps, (claims.claim j c claim).1]
    exact busy j w ((wraps j).symm.trans wrapping)
  · intro i j
    rw [wraps, wraps]
    exact alone i j

theorem Wraps.warp (wraps : Wraps s s') (warpEnd : s'.warpEnd = s.warpEnd)
    (consumer : s'.consumer = .restart ↔ s.consumer = .restart) (ok : WarpOk s v) : WarpOk s' v := by
  obtain ⟨clear, marks⟩ := ok
  constructor
  · rw [warpEnd, consumer]
    intro cleared
    apply clear
    rcases cleared with straight | whole | ⟨j, w, wrapping, unstored⟩ | restart
    · exact Or.inl straight
    · exact Or.inr (Or.inl whole)
    · exact Or.inr (Or.inr (Or.inl ⟨j, w, (wraps j).symm.trans wrapping, unstored⟩))
    · exact Or.inr (Or.inr (Or.inr restart))
  · intro wrap short stored busy
    rw [warpEnd]
    apply marks wrap short
    · exact fun j w wrapping => stored j w ((wraps j).trans wrapping)
    · exact fun restart => busy (consumer.mpr restart)

/-- Producer `i` and its slot differ, and at most `wp`, `warp_end` and `live`. -/
structure Only (s s' : St T) (i : Nat) : Prop where
  cap : s'.cap = s.cap
  rp : s'.rp = s.rp
  nproducers : s'.nproducers = s.nproducers
  consumer : s'.consumer = s.consumer
  accepted : s'.accepted = s.accepted
  laps : s'.laps = s.laps
  pc : ∀ j, j ≠ i → s'.pc j = s.pc j
  producers : ∀ j, j ≠ i → s'.producers j = s.producers j
  seen : ∀ j, j ≠ i → s'.seen j = s.seen j

/-- Nothing but producer `i` and its slot differs. -/
structure Local (s s' : St T) (i : Nat) : Prop extends Only s s' i where
  wp : s'.wp = s.wp
  warpEnd : s'.warpEnd = s.warpEnd
  live : s'.live = s.live

section Updates
variable (s : St T) (i : Nat) (pc : ProducerPc T) (reservePos : Usz T) (flag : Bool)

theorem setPc_local : Local s (s.setPc i pc) i :=
  ⟨⟨rfl, rfl, rfl, rfl, rfl, rfl, fun _ ne => Function.update_of_ne ne _ _, fun _ _ => rfl,
    fun _ _ => rfl⟩, rfl, rfl, rfl⟩

theorem setReserve_local : Local s ((s.setReserve i reservePos).setPc i pc) i :=
  ⟨⟨rfl, rfl, rfl, rfl, rfl, rfl, fun _ ne => Function.update_of_ne ne _ _,
    fun _ ne => Function.update_of_ne ne _ _, fun _ _ => rfl⟩, rfl, rfl, rfl⟩

theorem setFlag_local : Local s ((s.setFlag i flag).setPc i pc) i :=
  ⟨⟨rfl, rfl, rfl, rfl, rfl, rfl, fun _ ne => Function.update_of_ne ne _ _,
    fun _ ne => Function.update_of_ne ne _ _, fun _ _ => rfl⟩, rfl, rfl, rfl⟩

@[simp] theorem setPc_pc : (s.setPc i pc).pc i = pc := Function.update_self _ _ _

@[simp] theorem setPc_producers : (s.setPc i pc).producers = s.producers := rfl

@[simp] theorem setReserve_self :
    (s.setReserve i reservePos).producers i = { s.producers i with reservePos := reservePos } :=
  Function.update_self _ _ _

@[simp] theorem setFlag_self : (s.setFlag i flag).producers i = { s.producers i with flag := flag } :=
  Function.update_self _ _ _

end Updates

/-- What the changed producer may do with its region. -/
structure KeepsClaim (s s' : St T) (i : Nat) (c c₀ : Claim) : Prop where
  flag : (s'.producers i).flag = (s.producers i).flag
  pub : (s'.producers i).pub = (s.producers i).pub
  claim : (s.pc i).claim = some c₀
  msg : c₀.msg = c.msg
  start : c₀.start = c.start
  returned : c.returned = false → c₀.returned = false
  upto : c.filled ≤ c.msg.length

theorem Only.claims (only : Only s s' i)
    (kept : ∀ c, (s'.pc i).claim = some c → ∃ c₀, KeepsClaim s s' i c c₀)
    (wrap : (s.pc i).wrapping = none → (s'.pc i).wrapping = none) : Claims s s' := by
  constructor
  · intro j c claim
    by_cases self : j = i
    · subst self
      obtain ⟨c₀, keeps⟩ := kept c claim
      exact ⟨keeps.pub, c₀, keeps.claim, keeps.msg, keeps.returned⟩
    · rw [only.pc j self] at claim
      rw [only.producers j self]
      exact ⟨rfl, c, claim, rfl, id⟩
  · intro j none
    by_cases self : j = i
    · subst self
      exact wrap none
    · rw [only.pc j self]
      exact none

/-- A step of one producer keeps the invariant if it keeps the producer's own
part and the parts about `wp`, `warp_end` and `live`. -/
theorem Inv.only (inv : Inv s v L) (only : Only s s' i) (present : i < s.nproducers)
    (ok : ProducerOk (s'.producers i) (s'.pc i) (s'.seen i) s.laps v)
    (kept : ∀ c, (s'.pc i).claim = some c → ∃ c₀, KeepsClaim s s' i c c₀)
    (wrap : (s.pc i).wrapping = none → (s'.pc i).wrapping = none)
    (lock : LockOk s' v) (warp : WarpOk s' v) (live : LiveOk s' v L) : Inv s' v L := by
  have claims := only.claims kept wrap
  refine ⟨inv.valid, inv.cap_le, ?_, ?_, ?_, ?_, ?_, ?_, ?_, lock, warp, ?_, live⟩
  · rw [only.cap]
    exact inv.cap_eq
  · rw [only.rp]
    exact inv.rp_eq
  · rw [only.accepted]
    exact inv.W_eq
  · intro j beyond
    rw [only.nproducers] at beyond
    rw [only.pc j (by omega)]
    exact inv.outside j beyond
  · intro j
    rw [only.laps]
    by_cases self : j = i
    · subst self
      exact ok
    · rw [only.pc j self, only.producers j self, only.seen j self]
      exact inv.producer j
  · intro j c claim
    by_cases self : j = i
    · subst self
      obtain ⟨c₀, keeps⟩ := kept c claim
      obtain ⟨flag, region, _⟩ := inv.holder j c₀ keeps.claim
      refine ⟨keeps.flag.trans flag, ?_, keeps.upto⟩
      rw [keeps.pub, ← keeps.start, ← keeps.msg]
      exact region
    · rw [only.pc j self] at claim
      rw [only.producers j self]
      exact inv.holder j c claim
  · exact claims.apart inv.apart
  · exact claims.consumer only.consumer only.rp inv.consumer

/-- A local step that keeps the lock state. -/
theorem Inv.local (inv : Inv s v L) (only : Local s s' i) (present : i < s.nproducers)
    (ok : ProducerOk (s'.producers i) (s'.pc i) (s'.seen i) s.laps v)
    (kept : ∀ c, (s'.pc i).claim = some c → ∃ c₀, KeepsClaim s s' i c c₀)
    (wrapping : (s'.pc i).wrapping = (s.pc i).wrapping) : Inv s' v L := by
  have wraps : Wraps s s' := by
    intro j
    by_cases self : j = i
    · subst self
      exact wrapping
    · rw [only.pc j self]
  have claims := only.claims kept wrapping.trans
  apply inv.only only.toOnly present ok kept wrapping.trans
  · exact wraps.lock claims only.wp only.laps inv.lock
  · exact wraps.warp only.warpEnd (by rw [only.consumer]) inv.warp
  · exact claims.live only.live inv.live

/-- A local step after which the producer has no region. -/
theorem Inv.local_free (inv : Inv s v L) (only : Local s s' i) (present : i < s.nproducers)
    (ok : ProducerOk (s'.producers i) (s'.pc i) (s'.seen i) s.laps v) (free : (s'.pc i).claim = none)
    (wrapping : (s'.pc i).wrapping = (s.pc i).wrapping) : Inv s' v L := by
  apply inv.local only present ok _ wrapping
  intro c claim
  rw [free] at claim
  cases claim

theorem Inv.present (inv : Inv s v L) (inside : s.pc i ≠ .out) : i < s.nproducers := by
  by_contra beyond
  exact inside (inv.outside i (Nat.le_of_not_lt beyond))

end AvaModule.MpscRing
