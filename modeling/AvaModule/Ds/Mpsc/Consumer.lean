import AvaModule.Ds.Mpsc.Exchange

/-! The steps of the consumer. -/
namespace AvaModule.MpscRing
open WrapRing

variable {T : Target} {s s' : St T} {v : Span} {L : Nat → Nat} {i j n : Nat}
variable {off avail size rp wp ready warpEnd : Usz T} {copied : Nat} {c : ConsumerPc T}

/-- A step of the consumer that stores nothing. -/
theorem Inv.consumes (inv : Inv s v L) (was : s.consumer ≠ .restart) (now : c = .restart → s.warpEnd = offsetMax T)
    (ok : ConsumerOk { s with consumer := c } v L) : Inv { s with consumer := c } v L := by
  refine ⟨inv.valid, inv.cap_le, inv.cap_eq, inv.rp_eq, inv.W_eq, inv.outside, inv.producer, inv.holder, inv.apart,
    ⟨inv.lock.free, inv.lock.busy, inv.lock.alone⟩, ⟨?_, ?_⟩, ok, ⟨inv.live.nodup, inv.live.used⟩⟩
  · rintro (straight | whole | unstored | restart)
    · exact inv.warp.clear (.inl straight)
    · exact inv.warp.clear (.inr (.inl whole))
    · exact inv.warp.clear (.inr (.inr (.inl unstored)))
    · exact now restart
  · intro wrap short stored _
    exact inv.warp.marks wrap short stored was

/-- The end of the run at `rp` and the offset of the writers bound what may be read. -/
theorem Span.Valid.rp_le_top (valid : v.Valid) : v.rp ≤ v.top := by
  have run := v.top_cases
  have wrapped := valid.wrapped
  omega

theorem Inv.front_none (inv : Inv s v L) : Front s v L 0 := by
  refine ⟨Span.Valid.rp_le_top inv.valid, ?_⟩
  intro j c claim
  have range := (inv.holder j c claim).region.range inv.valid
  omega

/-- The run that stops at every published offset may be read. -/
theorem Inv.front_upto (inv : Inv s v L) (above : v.rp ≤ n) (run : n ≤ v.top)
    (stops : ∀ j c, (s.pc j).claim = some c → v.rp ≤ (s.producers j).pub → n ≤ (s.producers j).pub) :
    Front s v L (n - v.rp) := by
  refine ⟨by omega, ?_⟩
  intro j c claim
  apply (inv.holder j c claim).region.beyond inv.valid (by omega)
  intro published
  have stop := stops j c claim published
  omega

/-- A span with the same offset in which no less fits. -/
theorem ProducerOk.fits {v' : Span} {slot : MpscP T} {pc : ProducerPc T} {seen laps : Nat}
    (ok : ProducerOk slot pc seen laps v) (cap : v'.cap = v.cap) (off : v'.off = v.off)
    (fits : ∀ {n}, v.Fits n → v'.Fits n) : ProducerOk slot pc seen laps v' := by
  have saw {wp : Usz T} (saw : Saw wp seen laps v) : Saw wp seen laps v' :=
    ⟨saw.past, saw.word, cap ▸ saw.inside, fun now => off ▸ saw.upto now⟩
  cases pc with
  | out | setFlag | idle | refuse | loadReserve | clearLock | storeWarpEnd | unlockWp | hold => exact ok
  | loadWp msg => exact ⟨ok.1, cap ▸ ok.2⟩
  | storeReserve msg wp => exact ⟨ok.1, cap ▸ ok.2.1, saw ok.2.2⟩
  | loadRp msg wp => exact ⟨ok.1, cap ▸ ok.2.1, saw ok.2.2.1, ok.2.2.2⟩
  | cas msg wp target =>
    obtain ⟨flag, length, seen, reserve, word, avail⟩ := ok
    refine ⟨flag, cap ▸ length, saw seen, reserve, cap ▸ word, ?_⟩
    intro now here
    rw [off] at here
    exact fits (avail now here)

namespace Inv
variable (inv : Inv s v L)
include inv

theorem pop (pc : s.consumer = .idle off avail copied) : Inv { s with consumer := .loadRp } v L :=
  inv.consumes (by simp [pc]) (by simp) trivial

theorem copy (pc : s.consumer = .idle off avail copied) (room : copied < avail.toNat) (output : List Byte) :
    Inv { s with output := output, consumer := .idle off avail (copied + 1) } v L := by
  have ok := inv.consumer
  rw [ConsumerOk, pc] at ok
  have kept : Inv { s with consumer := .idle off avail (copied + 1) } v L :=
    inv.consumes (by simp [pc]) (by simp) ⟨ok.1, ⟨ok.2.1.run, ok.2.1.stops⟩, room⟩
  exact ⟨kept.valid, kept.cap_le, kept.cap_eq, kept.rp_eq, kept.W_eq, kept.outside, kept.producer, kept.holder,
    kept.apart, ⟨kept.lock.free, kept.lock.busy, kept.lock.alone⟩, ⟨kept.warp.clear, kept.warp.marks⟩,
    ⟨ok.1, ⟨ok.2.1.run, ok.2.1.stops⟩, room⟩, ⟨kept.live.nodup, kept.live.used⟩⟩

theorem release (pc : s.consumer = .idle off avail copied) (part : size ≤ avail) :
    Inv { s with consumer := .releaseLoad off avail size } v L := by
  have ok := inv.consumer
  rw [ConsumerOk, pc] at ok
  exact inv.consumes (by simp [pc]) (by simp) ⟨ok.1, ⟨ok.2.1.run, ok.2.1.stops⟩, part⟩

theorem releaseLoad (pc : s.consumer = .releaseLoad off avail size) :
    Inv { s with consumer := .releaseStore off avail size s.rp } v L := by
  have ok := inv.consumer
  rw [ConsumerOk, pc] at ok
  exact inv.consumes (by simp [pc]) (by simp) ⟨ok.1, ⟨ok.2.1.run, ok.2.1.stops⟩, ok.2.2, rfl⟩

theorem popRp (pc : s.consumer = .loadRp) : Inv { s with consumer := .loadWp s.rp } v L :=
  inv.consumes (by simp [pc]) (by simp) inv.rp_eq

/-- Nothing is in the ring. -/
theorem popWp_empty (pc : s.consumer = .loadWp rp) : Inv { s with consumer := .idle rp 0 0 } v L := by
  have front := inv.front_none
  have zero : (0 : Usz T).toNat = 0 := BitVec.toNat_zero
  refine inv.consumes (by simp [pc]) (by simp) ⟨fun some => absurd zero some, ?_, Nat.zero_le _⟩
  rw [zero]
  exact ⟨front.run, front.stops⟩

/-- The scan begins with the offset of an unlocked `wp`. -/
theorem popWp_scan (pc : s.consumer = .loadWp rp) (unlocked : ¬Locked s.wp) :
    Inv { s with consumer := .loadFlag rp (s.wp &&& offsetMask T) 0 (offsetMax T) } v L := by
  have ok := inv.consumer
  rw [ConsumerOk, pc] at ok
  have offset : (s.wp &&& offsetMask T).toNat = v.off := by
    rw [inv.lock.unlocked unlocked, pack_offset inv.off_small, inv.toNat_off]
  have rp_lt := inv.valid.rp_lt
  have cap_le := inv.cap_le
  have mask := mask_lt_offsetMax (T := T)
  refine inv.consumes (by simp [pc]) (by simp) ⟨ok, ?_, by omega, (by simp)⟩
  rw [offset]
  rcases v.top_cases with ⟨straight, run⟩ | ⟨wrap, _⟩
  · exact .inl ⟨straight, Nat.le_of_eq run.symm⟩
  · exact .inr ⟨wrap, wrap, inv.lock.none_wrapping unlocked⟩

theorem popFlag_used (pc : s.consumer = .loadFlag rp wp i ready) :
    Inv { s with consumer := .loadReserve rp wp i ready } v L := by
  have ok := inv.consumer
  rw [ConsumerOk, pc] at ok
  change Scan s v rp wp i ready at ok
  exact inv.consumes (by simp [pc]) (by simp) ⟨ok.at_rp, ok.window, ok.above, ok.scanned⟩

/-- A slot that is not in use has no region. -/
theorem popFlag_free (pc : s.consumer = .loadFlag rp wp i ready) (unused : (s.producers i).flag = false) :
    Inv { s with consumer := .loadFlag rp wp (i + 1) ready } v L := by
  have ok := inv.consumer
  rw [ConsumerOk, pc] at ok
  change Scan s v rp wp i ready at ok
  refine inv.consumes (by simp [pc]) (by simp) ⟨ok.at_rp, ok.window, ok.above, ?_⟩
  intro j lt c claim
  rcases Nat.lt_succ_iff_lt_or_eq.mp lt with before | rfl
  · exact ok.scanned j before c claim
  · have used := (inv.holder j c claim).flag
    rw [unused] at used
    cases used

/-- The offset of a slot that is not locked is taken into account. -/
theorem popReserve (pc : s.consumer = .loadReserve rp wp i ready) (unlocked : ¬Locked (s.producers i).reservePos) :
    Inv (if (s.producers i).reservePos ≥ rp ∧ (s.producers i).reservePos < ready then
      { s with consumer := .loadFlag rp wp (i + 1) (s.producers i).reservePos }
      else { s with consumer := .loadFlag rp wp (i + 1) ready }) v L := by
  have ok := inv.consumer
  rw [ConsumerOk, pc] at ok
  change Scan s v rp wp i ready at ok
  have pub : (s.producers i).pub = (s.producers i).reservePos.toNat := by
    rw [MpscP.pub, and_not_lock unlocked]
  have at_rp := ok.at_rp
  have lower : (s.producers i).reservePos ≥ rp ∧ (s.producers i).reservePos < ready ↔
      v.rp ≤ (s.producers i).pub ∧ (s.producers i).pub < ready.toNat := by
    rw [ge_iff_le, BitVec.le_def, BitVec.lt_def, pub, at_rp]
  split
  next less =>
    obtain ⟨above, below⟩ := lower.mp less
    rw [pub] at above below
    refine inv.consumes (by simp [pc]) (by simp) ⟨at_rp, ok.window, above, ?_⟩
    intro j lt c claim published
    rcases Nat.lt_succ_iff_lt_or_eq.mp lt with before | rfl
    · have scanned := ok.scanned j before c claim published
      exact scanned.imp_left fun least => Nat.le_trans (Nat.le_of_lt below) least
    · exact .inl (Nat.le_of_eq pub.symm)
  next more =>
    refine inv.consumes (by simp [pc]) (by simp) ⟨at_rp, ok.window, ok.above, ?_⟩
    intro j lt c claim published
    rcases Nat.lt_succ_iff_lt_or_eq.mp lt with before | rfl
    · exact ok.scanned j before c claim published
    · have kept := mt lower.mpr more
      change v.rp ≤ (s.producers j).pub at published
      exact .inl (by change ready.toNat ≤ (s.producers j).pub; omega)

/-- Every slot has been looked at. -/
theorem scan_end (pc : s.consumer = .loadFlag rp wp i ready) (all : s.nproducers ≤ i) :
    ∀ j c, (s.pc j).claim = some c → v.rp ≤ (s.producers j).pub →
      ready.toNat ≤ (s.producers j).pub ∨ (v.rp ≤ wp.toNat ∧ wp.toNat ≤ (s.producers j).pub) := by
  have ok := inv.consumer
  rw [ConsumerOk, pc] at ok
  change Scan s v rp wp i ready at ok
  intro j c claim
  have present := inv.present (i := j) (by
    intro out
    rw [out] at claim
    cases claim)
  exact ok.scanned j (Nat.lt_of_lt_of_le present all) c claim

/-- The ring has wrapped: the upper run is looked at. -/
theorem popFlag_wrap (pc : s.consumer = .loadFlag rp wp i ready) (all : s.nproducers ≤ i) (wrap : wp < rp) :
    Inv { s with consumer := .testWarpEnd rp ready } v L := by
  have last := inv.scan_end pc all
  have ok := inv.consumer
  rw [ConsumerOk, pc] at ok
  change Scan s v rp wp i ready at ok
  have at_rp := ok.at_rp
  have below := BitVec.lt_def.mp wrap
  obtain ⟨_, wrapped, quiet⟩ := ok.window.resolve_left (by omega)
  refine inv.consumes (by simp [pc]) (by simp) ⟨at_rp, wrapped, quiet, ok.above, ?_⟩
  intro j c claim published
  exact (last j c claim published).resolve_right (by omega)

/-- The run ends at `last` at the latest. -/
theorem stop_at (was : s.consumer ≠ .restart) {last : Usz T} (at_rp : rp.toNat = v.rp) (above : v.rp ≤ ready.toNat)
    (low : v.rp ≤ last.toNat) (high : last.toNat ≤ v.top)
    (stops : ∀ j c, (s.pc j).claim = some c → v.rp ≤ (s.producers j).pub →
      ready.toNat ≤ (s.producers j).pub ∨ last.toNat ≤ (s.producers j).pub) :
    Inv { s with consumer := .idle rp ((if ready < last then ready else last) - rp) 0 } v L := by
  generalize least : (if ready < last then ready else last) = stop
  have bounds : v.rp ≤ stop.toNat ∧ stop.toNat ≤ last.toNat ∧ stop.toNat ≤ ready.toNat := by
    rw [← least]
    split
    next less =>
      rw [BitVec.lt_def] at less
      omega
    next more =>
      rw [BitVec.lt_def] at more
      omega
  have front : Front s v L (stop.toNat - v.rp) := by
    refine inv.front_upto bounds.1 (by omega) ?_
    intro j c claim published
    have stops := stops j c claim published
    omega
  have length : (stop - rp).toNat = stop.toNat - v.rp := by
    rw [BitVec.toNat_sub_of_le (BitVec.le_def.mpr (by omega)), at_rp]
  refine inv.consumes was (by simp) ⟨fun _ => at_rp, ?_, Nat.zero_le _⟩
  rw [length]
  exact ⟨front.run, front.stops⟩

theorem popFlag_straight (pc : s.consumer = .loadFlag rp wp i ready) (all : s.nproducers ≤ i) (straight : ¬wp < rp) :
    Inv { s with consumer := .idle rp ((if ready < wp then ready else wp) - rp) 0 } v L := by
  have last := inv.scan_end pc all
  have ok := inv.consumer
  rw [ConsumerOk, pc] at ok
  change Scan s v rp wp i ready at ok
  have at_rp := ok.at_rp
  rw [BitVec.lt_def] at straight
  obtain ⟨low, high⟩ := ok.window.resolve_right (by omega)
  exact inv.stop_at (by simp [pc]) at_rp ok.above low high
    (fun j c claim published => (last j c claim published).imp_right And.right)

/-- No mark: the upper run ends where the ring ends. -/
theorem testWarpEnd_unset (pc : s.consumer = .testWarpEnd rp ready) (unset : s.warpEnd = offsetMax T) :
    Inv { s with consumer := .testClear rp ready s.cap } v L := by
  have ok := inv.consumer
  rw [ConsumerOk, pc] at ok
  change Scanned s v rp ready at ok
  obtain ⟨_, lim_le, _⟩ := inv.valid.wrapped ok.wrap
  have cap_le := inv.cap_le
  have mask := mask_lt_offsetMax (T := T)
  have whole : v.lim = v.cap := by
    by_contra short
    have marked := inv.warp.marks ok.wrap (by omega) (fun j w busy => by simp [ok.quiet j] at busy) (by simp [pc])
    rw [unset] at marked
    omega
  exact inv.consumes (by simp [pc]) (by simp)
    ⟨⟨ok.at_rp, ok.wrap, ok.quiet, ok.above, ok.stops⟩, inv.cap_eq.trans whole.symm⟩

theorem testWarpEnd_set (pc : s.consumer = .testWarpEnd rp ready) (set : s.warpEnd ≠ offsetMax T) :
    Inv { s with consumer := .loadWarpEnd rp ready } v L := by
  have ok := inv.consumer
  rw [ConsumerOk, pc] at ok
  change Scanned s v rp ready at ok
  obtain ⟨_, lim_le, _⟩ := inv.valid.wrapped ok.wrap
  have short : v.lim ≠ v.cap := fun whole => set (inv.warp.clear (.inr (.inl whole)))
  exact inv.consumes (by simp [pc]) (by simp) ⟨⟨ok.at_rp, ok.wrap, ok.quiet, ok.above, ok.stops⟩, by omega⟩

theorem loadWarpEnd (pc : s.consumer = .loadWarpEnd rp ready) :
    Inv { s with consumer := .testClear rp ready s.warpEnd } v L := by
  have ok := inv.consumer
  rw [ConsumerOk, pc] at ok
  obtain ⟨ok, short⟩ := ok
  have marked := inv.warp.marks ok.wrap short (fun j w busy => by simp [ok.quiet j] at busy) (by simp [pc])
  exact inv.consumes (by simp [pc]) (by simp) ⟨⟨ok.at_rp, ok.wrap, ok.quiet, ok.above, ok.stops⟩, marked⟩

/-- The upper run is read up to its end or the first region in it. -/
theorem testClear_run (pc : s.consumer = .testClear rp ready warpEnd) :
    Inv { s with consumer := .idle rp ((if ready < warpEnd then ready else warpEnd) - rp) 0 } v L := by
  have ok := inv.consumer
  rw [ConsumerOk, pc] at ok
  obtain ⟨ok, lim⟩ := ok
  have at_rp := ok.at_rp
  have above := ok.above
  have run : v.top = v.lim := if_neg (Nat.not_le.mpr ok.wrap)
  obtain ⟨rp_le, _⟩ := inv.valid.wrapped ok.wrap
  exact inv.stop_at (by simp [pc]) at_rp ok.above (by omega) (by omega)
    (fun j c claim published => .inl (ok.stops j c claim published))

/-- The upper run is at its end, and no region is in it. -/
theorem exhausted (pc : s.consumer = .testClear rp ready warpEnd) (ends : ready = offsetMax T ∧ rp = warpEnd) :
    Exhausted s v := by
  have ok := inv.consumer
  rw [ConsumerOk, pc] at ok
  obtain ⟨ok, lim⟩ := ok
  obtain ⟨last, rfl⟩ := ends
  have empty : v.rp = v.lim := ok.at_rp.symm.trans lim
  have rp_lt := inv.valid.rp_lt
  have cap_le := inv.cap_le
  have mask := mask_lt_offsetMax (T := T)
  refine ⟨ok.wrap, empty, by omega, ?_⟩
  intro j c claim
  by_contra published
  have stops := ok.stops j c claim (Nat.le_of_not_lt published)
  have inside := (inv.holder j c claim).region.inside
  rw [last] at stops
  omega

theorem testClear_clear (pc : s.consumer = .testClear rp ready warpEnd) (ends : ready = offsetMax T ∧ rp = warpEnd) :
    Inv { s with consumer := .clearWarpEnd } v L := by
  have exhausted := inv.exhausted pc ends
  exact inv.consumes (by simp [pc]) (by simp) ⟨exhausted.wrap, exhausted.empty, exhausted.short, exhausted.lower⟩

theorem testClear_restart (pc : s.consumer = .testClear rp ready warpEnd)
    (ends : ready = offsetMax T ∧ rp = warpEnd) (unset : s.warpEnd = offsetMax T) :
    Inv { s with consumer := .restart } v L := by
  have exhausted := inv.exhausted pc ends
  exact inv.consumes (by simp [pc]) (fun _ => unset)
    ⟨exhausted.wrap, exhausted.empty, exhausted.short, exhausted.lower⟩

theorem clearWarpEnd (pc : s.consumer = .clearWarpEnd) :
    Inv { s with warpEnd := offsetMax T, consumer := .restart } v L := by
  have ok := inv.consumer
  rw [ConsumerOk, pc] at ok
  change Exhausted s v at ok
  refine ⟨inv.valid, inv.cap_le, inv.cap_eq, inv.rp_eq, inv.W_eq, inv.outside, inv.producer, inv.holder, inv.apart,
    ⟨inv.lock.free, inv.lock.busy, inv.lock.alone⟩, ⟨fun _ => rfl, fun _ _ _ working => absurd rfl working⟩,
    ⟨ok.wrap, ok.empty, ok.short, ok.lower⟩, ⟨inv.live.nodup, inv.live.used⟩⟩

/-- The lower run becomes the run at `rp`. -/
theorem restart (pc : s.consumer = .restart) : Inv { s with rp := 0, consumer := .loadWp 0 } v.restart L := by
  have ok := inv.consumer
  rw [ConsumerOk, pc] at ok
  change Exhausted s v at ok
  have zero : (0 : Usz T).toNat = 0 := BitVec.toNat_zero
  have quiet : ∀ j, (s.pc j).wrapping = none := by
    intro j
    cases wrapping : (s.pc j).wrapping with
    | none => rfl
    | some w =>
      obtain ⟨c, claim⟩ := ProducerPc.claim_of_wrapping wrapping
      obtain ⟨_, _, _, pub, _⟩ := inv.lock.busy j w wrapping
      have lower := ok.lower j c claim
      have empty := ok.empty
      omega
  have straight : v.restart.rp ≤ v.restart.off := Nat.zero_le _
  refine ⟨inv.valid.restart ok.wrap ok.empty, inv.cap_le, inv.cap_eq, zero, inv.W_eq, inv.outside, ?_, ?_, inv.apart,
    ⟨inv.lock.free, ?_, inv.lock.alone⟩, ⟨?_, ?_⟩, zero, ⟨inv.live.nodup, ?_⟩⟩
  · exact fun j => (inv.producer j).fits rfl rfl fun fits => fits.restart inv.valid ok.wrap
  · intro j c claim
    obtain ⟨flag, region, upto⟩ := inv.holder j c claim
    exact ⟨flag, region.restart ok.empty (ok.lower j c claim), upto⟩
  · intro j w busy
    change (s.pc j).wrapping = some w at busy
    rw [quiet j] at busy
    cases busy
  · exact fun _ => inv.warp.clear (.inr (.inr (.inr pc)))
  · intro wrap
    exact absurd straight (Nat.not_le.mpr wrap)
  · intro b member
    obtain ⟨k, from_R, to_W, cell, free⟩ := inv.live.used b member
    exact ⟨k, from_R, to_W, (inv.valid.cell_restart ok.wrap ok.empty from_R to_W).trans cell, free⟩

/-- The run at `rp` ends inside the ring. -/
theorem top_le : v.top ≤ v.cap := by
  have run := v.top_cases
  have off_lt := inv.valid.off_lt
  have wrapped := inv.valid.wrapped
  omega

/-- A released byte that is still live would be in the released range. -/
theorem live_released (front : v.rp + size.toNat ≤ v.top) :
    LiveOk { s with live := s.live.filter fun b => ¬(s.rp.toNat ≤ b ∧ b < s.rp.toNat + size.toNat) }
      (v.drop size.toNat) L := by
  refine ⟨inv.live.nodup.filter _, ?_⟩
  intro b member
  obtain ⟨old, away⟩ := List.mem_filter.mp member
  rw [decide_eq_true_eq, inv.rp_eq] at away
  obtain ⟨k, from_R, to_W, cell, free⟩ := inv.live.used b old
  have beyond : v.R + size.toNat ≤ k := by
    by_contra before
    have here := inv.valid.cell_front (j := k - v.R) (by omega)
    rw [Nat.add_sub_cancel' from_R, cell] at here
    omega
  exact ⟨k, beyond, to_W, (inv.valid.cell_drop front beyond to_W).trans cell, free⟩

/-- The store of `mpsc_release` gives the first part of the run back. -/
theorem releaseStore (pc : s.consumer = .releaseStore off avail size rp) :
    Inv { s with
      rp := releaseTarget s.cap rp size
      live := s.live.filter fun b => ¬(rp.toNat ≤ b ∧ b < rp.toNat + size.toNat)
      consumer := .idle (off + size) (avail - size) 0 } (v.drop size.toNat) L := by
  have ok := inv.consumer
  rw [ConsumerOk, pc] at ok
  obtain ⟨at_rp, ⟨run, stops⟩, part, rfl⟩ := ok
  have top_le := inv.top_le
  have cap_le := inv.cap_le
  have rp_eq := inv.rp_eq
  have cap_eq := inv.cap_eq
  have left : (avail - size).toNat = avail.toNat - size.toNat := BitVec.toNat_sub_of_le part
  rw [BitVec.le_def] at part
  have front : v.rp + size.toNat ≤ v.top := by omega
  have valid := inv.valid.drop front
  have run' := v.top_cases
  have straight := inv.valid.straight
  have off_lt := inv.valid.off_lt
  refine ⟨valid, cap_le, cap_eq, ?_, inv.W_eq, inv.outside, ?_, ?_, inv.apart,
    ⟨inv.lock.free, ?_, inv.lock.alone⟩, ⟨?_, ?_⟩, ⟨?_, ⟨?_, ?_⟩, Nat.zero_le _⟩, ?_⟩
  · have sum : (s.rp + size).toNat = v.rp + size.toNat := by
      rw [toNat_add_small (by omega) (by omega), rp_eq]
    have ends : s.rp + size = s.cap ↔ v.rp + size.toNat = v.cap := by
      rw [← BitVec.toNat_inj, sum, cap_eq]
    simp only [releaseTarget, Span.drop, ends, apply_ite BitVec.toNat, sum]
    rfl
  · exact fun j => (inv.producer j).fits rfl rfl fun fits => fits.drop inv.valid front
  · intro j c claim
    obtain ⟨flag, region, upto⟩ := inv.holder j c claim
    have before := stops j c claim
    exact ⟨flag, region.drop inv.valid front (by omega), upto⟩
  · intro j w busy
    obtain ⟨wp, word, lim, pub, wrap, short⟩ := inv.lock.busy j w busy
    refine ⟨wp, word, lim, pub, ?_, short⟩
    rcases v.drop_cases size.toNat with ⟨_, eq⟩ | ⟨ends, _⟩
    · rw [eq]
      exact Nat.lt_of_lt_of_le wrap (Nat.le_add_right _ _)
    · omega
  · intro cleared
    apply inv.warp.clear
    rcases cleared with straight' | whole | unstored | restart
    · rcases v.drop_cases size.toNat with ⟨_, eq⟩ | ⟨ends, _⟩
      · rw [eq] at straight'
        exact .inl (Nat.le_trans (Nat.le_add_right _ _) straight')
      · have wrapped := inv.valid.wrapped
        exact .inr (.inl (by omega))
    · exact .inr (.inl whole)
    · exact .inr (.inr (.inl unstored))
    · cases restart
  · intro wrap short stored _
    have upper : v.off < v.rp := by
      by_contra low
      have whole := (straight (Nat.le_of_not_lt low)).1
      exact absurd whole (Nat.ne_of_lt short)
    exact inv.warp.marks upper short stored (by simp [pc])
  · intro some
    have here := at_rp (by omega)
    have sum : (off + size).toNat = off.toNat + size.toNat := toNat_add_small (by omega) (by omega)
    rcases v.drop_cases size.toNat with ⟨_, eq⟩ | ⟨ends, _⟩
    · rw [eq, sum, here]
    · omega
  · rcases v.drop_cases size.toNat with ⟨short, eq⟩ | ⟨ends, eq⟩
    · rw [Span.top_drop short front, eq, left]
      dsimp only
      omega
    · have none : (avail - size).toNat = 0 := by omega
      rw [none]
      exact Span.Valid.rp_le_top valid
  · intro j c claim
    have before := stops j c claim
    have R : (v.drop size.toNat).R = v.R + size.toNat := rfl
    omega
  · have live := inv.live_released front
    exact ⟨live.nodup, live.used⟩

end Inv

end AvaModule.MpscRing
