import AvaModule.Ds.Mpsc.Drained

/-! `mpsc_init` does not write `wp` and `rp`. Which values of the two it may find, for the
calls of a user to return what they return on a zeroed ring. -/
namespace AvaModule.MpscRing
open WrapRing Transition

variable {T : Target} {mpsc mpsc' : Mpsc T} {wp rp cap size : Usz T} {p : Nat}

/-- `mpsc_pop` returns 0, and every sequence of calls hands back the same. -/
structure FreshLike (mpsc fresh : Mpsc T) : Prop where
  pop : ∃ off m, mpscPop mpsc = some ((0, off), m)
  calls : ∀ calls, outputs userCall calls mpsc = outputs userCall calls fresh

/-- The reader stands at the end of a ring that has not wrapped. -/
structure AtEnd (mpsc : Mpsc T) (rp : Usz T) : Prop where
  rp : rp = mpsc.cap
  start : mpsc.rp = 0
  warpEnd : mpsc.warpEnd = offsetMax T
  off_lt : mpsc.off < mpsc.cap.toNat
  cap_le : mpsc.cap.toNat ≤ (offsetMax T).toNat + 1

/-- Words that may stand in place of those of the ring. -/
structure Level (mpsc : Mpsc T) (wp rp : Usz T) : Prop where
  unlocked : ¬Locked mpsc.wp
  unlocked' : ¬Locked wp
  off : wp &&& offsetMask T = mpsc.wp &&& offsetMask T
  reader : rp = mpsc.rp ∨ AtEnd mpsc rp

/-- Between calls. -/
structure Alike (mpsc : Mpsc T) (wp rp : Usz T) : Prop extends Level mpsc wp rp where
  idle : Idle mpsc

section Acquire

/-- The counter of `wp` does not decide about a request. -/
theorem acquireTarget_counter {wp' : Usz T} (off : wp &&& offsetMask T = wp' &&& offsetMask T) :
    (acquireTarget cap wp rp size = none ∧ acquireTarget cap wp' rp size = none) ∨
    ∃ base x x', acquireTarget cap wp rp size = some (base ||| (x &&& wrapCounter T)) ∧
      acquireTarget cap wp' rp size = some (base ||| (x' &&& wrapCounter T)) := by
  simp only [acquireTarget, off]
  generalize (if (wp' &&& offsetMask T) + size > cap then wrapLockBit T ||| size else 0) = base
  by_cases meets : wp' &&& offsetMask T < rp ∧ (wp' &&& offsetMask T) + size ≥ rp
  · exact .inl ⟨if_pos meets, if_pos meets⟩
  · rw [if_neg meets, if_neg meets]
    by_cases reaches : (wp' &&& offsetMask T) + size ≥ cap
    · rw [if_pos reaches, if_pos reaches]
      by_cases reader : base &&& offsetMask T ≥ rp
      · exact .inl ⟨if_pos reader, if_pos reader⟩
      · exact .inr ⟨base, (wp &&& wrapCounter T) + wrapUnit T, (wp' &&& wrapCounter T) + wrapUnit T,
          if_neg reader, if_neg reader⟩
    · exact .inr ⟨(wp' &&& offsetMask T) + size, wp, wp', if_neg reaches, if_neg reaches⟩

/-- Neither does a reader at the end rather than at the start. -/
theorem acquireTarget_end {wp' : Usz T} (off : wp &&& offsetMask T = wp' &&& offsetMask T)
    (off_lt : (wp' &&& offsetMask T).toNat < cap.toNat) :
    (acquireTarget cap wp cap size = none ∧ acquireTarget cap wp' 0 size = none) ∨
    ∃ base x x', base.toNat < cap.toNat ∧ acquireTarget cap wp cap size = some (base ||| (x &&& wrapCounter T)) ∧
      acquireTarget cap wp' 0 size = some (base ||| (x' &&& wrapCounter T)) := by
  have start (x : Usz T) : x ≥ 0 := by simp [BitVec.le_def]
  have none : ¬(wp' &&& offsetMask T < 0 ∧ (wp' &&& offsetMask T) + size ≥ 0) := by simp [BitVec.lt_def]
  simp only [acquireTarget, off, if_neg none]
  by_cases reaches : (wp' &&& offsetMask T) + size ≥ cap
  · refine .inl ⟨if_pos ⟨off_lt, reaches⟩, ?_⟩
    rw [if_pos reaches, if_pos (start _)]
  · refine .inr ⟨(wp' &&& offsetMask T) + size, wp, wp', BitVec.not_le.mp reaches, ?_, if_neg reaches⟩
    rw [if_neg fun both => reaches both.2, if_neg reaches]

/-- The call with the words of the loop in hand. -/
theorem mpscAcquire_unlocked (unlocked : ¬Locked mpsc.wp) (p : Nat) (size : Usz T) :
    mpscAcquire mpsc p size = some (match acquireTarget mpsc.cap mpsc.wp mpsc.rp size with
      | none => (none, mpsc.setReserve p (offsetMax T))
      | some target =>
          let off := mpsc.wp &&& offsetMask T
          let m := { mpsc.setReserve p ((off ||| wrapLockBit T) &&& ~~~wrapLockBit T) with wp := target }
          if Locked target then (some 0, { m with warpEnd := off, wp := target &&& ~~~wrapLockBit T })
          else (some off, m)) := by
  simp only [mpscAcquire, mpscGetWp, if_neg unlocked, Option.bind_eq_bind, Option.bind_some]
  cases acquireTarget mpsc.cap mpsc.wp mpsc.rp size with
  | none => rfl
  | some target =>
    dsimp only
    split <;> rfl

/-- Both rings refuse a request, or make the same of it but for the counter. -/
theorem Level.target (level : Level mpsc wp rp) (size : Usz T) :
    (acquireTarget mpsc.cap mpsc.wp mpsc.rp size = none ∧ acquireTarget mpsc.cap wp rp size = none) ∨
    ∃ base x x', (rp = mpsc.rp ∨ AtEnd mpsc rp ∧ base.toNat < mpsc.cap.toNat) ∧
      acquireTarget mpsc.cap mpsc.wp mpsc.rp size = some (base ||| (x &&& wrapCounter T)) ∧
      acquireTarget mpsc.cap wp rp size = some (base ||| (x' &&& wrapCounter T)) := by
  rcases level.reader with same | atEnd
  · rw [same]
    rcases acquireTarget_counter level.off with ⟨none, none'⟩ | ⟨base, x, x', some, some'⟩
    · exact .inl ⟨none', none⟩
    · exact .inr ⟨base, x', x, .inl rfl, some', some⟩
  · rw [atEnd.rp, atEnd.start]
    rcases acquireTarget_end level.off atEnd.off_lt with ⟨none, none'⟩ | ⟨base, x, x', below, some, some'⟩
    · exact .inl ⟨none', none⟩
    · exact .inr ⟨base, x', x, .inr ⟨atEnd.rp ▸ atEnd, below⟩, some', some⟩

/-- A request returns the same and leaves words that may stand for each other. -/
theorem Level.acquire (level : Level mpsc wp rp) (p : Nat) (size : Usz T) :
    ∃ result m wp', mpscAcquire mpsc p size = some (result, m) ∧
      mpscAcquire { mpsc with wp, rp } p size = some (result, { m with wp := wp', rp := rp }) ∧
      Level m wp' rp ∧ Slots mpsc m p ∧ (result = none → (m.producers p).reservePos = offsetMax T) := by
  have refuse : ((mpsc.setReserve p (offsetMax T)).producers p).reservePos = offsetMax T := by
    simp [Mpsc.setReserve]
  have slots (reservePos : Usz T) : Slots mpsc (mpsc.setReserve p reservePos) p := setReserve_slots mpsc p reservePos
  rw [mpscAcquire_unlocked level.unlocked, @mpscAcquire_unlocked T { mpsc with wp, rp } level.unlocked']
  dsimp only
  rw [level.off]
  rcases level.target size with ⟨none, none'⟩ | ⟨base, x, x', reader, some, some'⟩
  · rw [none, none']
    refine ⟨_, _, wp, rfl, rfl, ⟨level.unlocked, level.unlocked', level.off, ?_⟩, slots _, fun _ => refuse⟩
    exact level.reader.imp_right fun atEnd => ⟨atEnd.rp, atEnd.start, atEnd.warpEnd, atEnd.off_lt, atEnd.cap_le⟩
  · rw [some, some']
    dsimp only
    by_cases locked : Locked base
    · have same : rp = mpsc.rp := by
        refine reader.resolve_right fun moved => ?_
        obtain ⟨atEnd, below⟩ := moved
        have high := (locked_iff base).mp locked
        have cap_le := atEnd.cap_le
        omega
      rw [if_pos ((or_counter_locked base x).mpr locked), if_pos ((or_counter_locked base x').mpr locked)]
      refine ⟨_, _, _, rfl, rfl, ⟨not_lock_unlocked _, not_lock_unlocked _, ?_, .inl same⟩,
        ⟨rfl, rfl, (slots _).others⟩, fun refused => absurd refused (Option.some_ne_none _)⟩
      rw [not_lock_offset, or_counter_offset, not_lock_offset, or_counter_offset]
    · have free := fun y => mt (or_counter_locked base y).mp locked
      rw [if_neg (free x), if_neg (free x')]
      refine ⟨_, _, _, rfl, rfl, ⟨free x, free x', ?_, ?_⟩, ⟨rfl, rfl, (slots _).others⟩,
        fun refused => absurd refused (Option.some_ne_none _)⟩
      · rw [or_counter_offset, or_counter_offset]
      · refine reader.imp_right fun moved => ?_
        obtain ⟨atEnd, below⟩ := moved
        refine ⟨atEnd.rp, atEnd.start, atEnd.warpEnd, Nat.lt_of_le_of_lt ?_ below, atEnd.cap_le⟩
        rw [Mpsc.off, or_counter_offset, BitVec.toNat_and]
        exact Nat.and_le_left

end Acquire

section Pop

/-- The result of a pass over the ring with another `wp`. -/
def PopPass.withWp (wp : Usz T) : PopPass T → PopPass T
  | .done nbytes off => .done nbytes off
  | .retry mpsc => .retry { mpsc with wp }

theorem Level.popPass (level : Level mpsc wp rp) (from_rp : Usz T) :
    MpscRing.popPass { mpsc with wp, rp } from_rp = (MpscRing.popPass mpsc from_rp).map (PopPass.withWp wp) := by
  have ready : mpscReady { mpsc with wp, rp } from_rp = mpscReady mpsc from_rp := rfl
  simp only [MpscRing.popPass, mpscGetWp, if_neg level.unlocked, if_neg level.unlocked', level.off, ready,
    Option.bind_eq_bind, Option.bind_some]
  by_cases empty : from_rp = mpsc.wp &&& offsetMask T
  · rw [if_pos empty, if_pos empty]
    rfl
  · rw [if_neg empty, if_neg empty]
    cases mpscReady mpsc from_rp with
    | none => rfl
    | some ready =>
      simp only [Option.bind_some]
      generalize (if mpsc.warpEnd = offsetMax T then mpsc.cap else mpsc.warpEnd) = warpEnd
      split
      · split <;> rfl
      · rfl

theorem Level.popLoop (level : Level mpsc wp mpsc.rp) (n : Nat) (from_rp : Usz T) :
    MpscRing.popLoop n { mpsc with wp } from_rp =
      (MpscRing.popLoop n mpsc from_rp).map fun x => (x.1, { x.2 with wp }) := by
  induction n generalizing mpsc from_rp with
  | zero => rfl
  | succ n ih =>
    have pass := level.popPass from_rp
    simp only [MpscRing.popLoop, Option.bind_eq_bind]
    rw [pass]
    cases result : MpscRing.popPass mpsc from_rp with
    | none => rfl
    | some x =>
      cases x with
      | done nbytes off => rfl
      | retry again =>
        have kept := popPass_retry result
        have level' : Level again wp again.rp := by
          rw [kept]
          exact ⟨level.unlocked, level.unlocked', level.off, .inl rfl⟩
        exact ih level' 0

/-- A reader at the end goes back to the start first. -/
theorem Alike.pop (alike : Alike mpsc wp rp) :
    mpscPop { mpsc with wp, rp } = (mpscPop mpsc).map fun x => (x.1, { x.2 with wp }) := by
  have level : Level mpsc wp mpsc.rp := ⟨alike.unlocked, alike.unlocked', alike.off, .inl rfl⟩
  rcases alike.reader with rfl | atEnd
  · exact level.popLoop 2 mpsc.rp
  · have apart : ¬mpsc.cap = mpsc.wp &&& offsetMask T := by
      intro same
      have off_lt := atEnd.off_lt
      rw [Mpsc.off, ← same] at off_lt
      omega
    have ahead : mpsc.wp &&& offsetMask T < mpsc.cap := atEnd.off_lt
    have again : ({ mpsc with warpEnd := offsetMax T, rp := 0 } : Mpsc T) = mpsc := by
      rw [← atEnd.warpEnd, ← atEnd.start]
    have pass : popPass mpsc mpsc.cap = some (.retry mpsc) := by
      simp only [popPass, mpscGetWp, if_neg alike.unlocked, alike.idle.ready, Option.bind_eq_bind, Option.bind_some,
        if_neg apart, if_pos ahead, if_pos atEnd.warpEnd, true_and, if_true, again]
      rfl
    have first := alike.toLevel.popPass mpsc.cap
    rw [pass] at first
    have second := level.popLoop 1 0
    rw [mpscPop, mpscPop, atEnd.start, popLoop_zero, ← second, atEnd.rp]
    rw [atEnd.rp] at first
    simp only [popLoop, first, Option.bind_eq_bind]
    rfl

/-- A read hands back the same bytes. -/
theorem Alike.read (alike : Alike mpsc wp rp) (size : Usz T) :
    mpscRead { mpsc with wp, rp } size = (mpscRead mpsc size).map fun x => (x.1, { x.2 with wp }) := by
  simp only [mpscRead, alike.pop, Option.bind_eq_bind]
  cases mpscPop mpsc with
  | none => rfl
  | some x =>
    simp only [Option.map_some, Option.bind_some]
    split <;> rfl

end Pop

section Calls

/-- The buffer and the slots do not matter. -/
theorem Level.frame (level : Level mpsc wp rp) (buf : Nat → Byte) (producers : Nat → MpscP T) :
    Level { mpsc with buf, producers } wp rp :=
  ⟨level.unlocked, level.unlocked', level.off,
    level.reader.imp_right fun atEnd => ⟨atEnd.rp, atEnd.start, atEnd.warpEnd, atEnd.off_lt, atEnd.cap_le⟩⟩

theorem mpscCopyIn_words (mpsc : Mpsc T) (wp rp off : Usz T) (src : List Byte) :
    mpscCopyIn { mpsc with wp, rp } off src = { mpscCopyIn mpsc off src with wp, rp } := by
  unfold mpscCopyIn
  dsimp only
  split <;> rfl

theorem Alike.write (alike : Alike mpsc wp rp) (p : Nat) (src : List Byte) :
    ∃ result m wp', mpscWrite mpsc p src = some (result, m) ∧
      mpscWrite { mpsc with wp, rp } p src = some (result, { m with wp := wp', rp := rp }) ∧ Alike m wp' rp := by
  obtain ⟨result, m, wp', acquire, acquire', level, slots, unset⟩ :=
    alike.toLevel.acquire p (BitVec.ofNat _ src.length)
  simp only [mpscWrite, acquire, acquire', Option.bind_eq_bind, Option.bind_some]
  cases result with
  | none => exact ⟨none, m, wp', rfl, rfl, level, alike.idle.slot slots fun _ => unset rfl⟩
  | some off =>
    obtain ⟨buf, copied⟩ := mpscCopyIn_buf m off src
    have slots' : Slots mpsc { m with buf } p := ⟨slots.cap, slots.nproducers, slots.others⟩
    dsimp only
    rw [mpscCopyIn_words m wp' rp, copied]
    exact ⟨some off, _, wp', rfl, rfl, level.frame buf _, alike.idle.push slots'⟩

/-- One ring is the other with words that may stand in place of its own. -/
def Twin (s t : Mpsc T) : Prop := ∃ wp rp, s = { t with wp, rp } ∧ Alike t wp rp

theorem Twin.call {s t : Mpsc T} {call : UserCall T} (twin : Twin s t) :
    Option.Rel (fun x y => x.1 = y.1 ∧ Twin x.2 y.2) (userCall call s) (userCall call t) := by
  obtain ⟨wp, rp, rfl, alike⟩ := twin
  cases call with
  | reg id =>
    by_cases slot : id < t.nproducers
    · simp only [userCall, if_pos slot]
      exact .some ⟨rfl, wp, rp, rfl, alike.toLevel.frame t.buf _, alike.idle.reg id⟩
    · simp only [userCall, if_neg slot]
      exact .none
  | unreg p =>
    by_cases slot : p < t.nproducers
    · simp only [userCall, if_pos slot]
      exact .some ⟨rfl, wp, rp, rfl, alike.toLevel.frame t.buf _, alike.idle.unreg p⟩
    · simp only [userCall, if_neg slot]
      exact .none
  | write p src =>
    obtain ⟨result, m, wp', write, write', alike'⟩ := alike.write p src
    by_cases valid : p < t.nproducers ∧ src.length < T.modulus
    · simp only [userCall, if_pos valid, write, write', Option.map_some]
      exact .some ⟨rfl, wp', rp, rfl, alike'⟩
    · simp only [userCall, if_neg valid]
      exact .none
  | read size =>
    have read := alike.read size
    simp only [userCall, read]
    cases result : mpscRead t size with
    | none => exact .none
    | some x =>
      have kept := mpscRead_keeps (show mpscRead t size = some (x.1, x.2) from result)
      refine .some ⟨rfl, wp, x.2.rp, rfl, ⟨?_, alike.unlocked', ?_, .inl rfl⟩, ?_⟩
      · rw [kept]
        exact alike.unlocked
      · rw [kept]
        exact alike.off
      · rw [kept]
        exact alike.idle

end Calls

section Pass

/-- One pass over idle slots. -/
theorem popPass_idle (unlocked : ¬Locked mpsc.wp) (idle : Idle mpsc) (from_rp : Usz T) :
    popPass mpsc from_rp = some (
      let wp := mpsc.wp &&& offsetMask T
      let warpEnd := if mpsc.warpEnd = offsetMax T then mpsc.cap else mpsc.warpEnd
      if from_rp = wp then .done 0 none
      else if wp < from_rp then
        if from_rp = warpEnd then .retry { mpsc with warpEnd := offsetMax T, rp := 0 }
        else .done ((if offsetMax T < warpEnd then offsetMax T else warpEnd) - from_rp) (some from_rp)
      else .done (wp - from_rp) (some from_rp)) := by
  have below : ¬offsetMax T < mpsc.wp &&& offsetMask T := by
    have off_le := mpsc.off_le
    have mask := mask_lt_offsetMax (T := T)
    rw [Mpsc.off] at off_le
    rw [BitVec.lt_def]
    omega
  simp only [popPass, mpscGetWp, if_neg unlocked, idle.ready, Option.bind_eq_bind, Option.bind_some, true_and,
    if_neg below]
  generalize (if mpsc.warpEnd = offsetMax T then mpsc.cap else mpsc.warpEnd) = warpEnd
  split
  · rfl
  · split
    · split <;> rfl
    · rfl

theorem mpscPop_done {nbytes : Usz T} {off : Option (Usz T)} (pass : popPass mpsc mpsc.rp = some (.done nbytes off)) :
    mpscPop mpsc = some ((nbytes, off), mpsc) := by
  simp only [mpscPop, popLoop, pass, Option.bind_eq_bind, Option.bind_some]
  rfl

end Pass

/-- The words that `mpsc_init` may find. -/
def Clear (cap wp rp : Usz T) : Prop :=
  ¬Locked wp ∧ wp &&& offsetMask T = 0 ∧ (rp = 0 ∨ rp = cap ∧ cap.toNat ≤ (offsetMax T).toNat + 1)

theorem outputs_write {src : List Byte} {result : Option (Usz T)} (slot : p < mpsc.nproducers)
    (short : src.length < T.modulus) (acquire : mpscAcquire mpsc p (BitVec.ofNat _ src.length) = some (result, mpsc')) :
    outputs userCall [.write p src] mpsc = some [.off result] := by
  simp only [outputs, userCall, if_pos (And.intro slot short), mpscWrite, acquire, Option.bind_eq_bind,
    Option.bind_some]
  cases result <;> rfl

section Long

theorem lockBit_toNat : (wrapLockBit T).toNat = (offsetMax T).toNat + 1 := by cases T <;> decide

theorem lockBit_locked : Locked (wrapLockBit T) := by cases T <;> decide

/-- A message whose end has the lock bit set, at the start of a ring that is longer. -/
theorem long_write (unlocked : ¬Locked mpsc.wp) (idle : Idle mpsc) (slot : 0 < mpsc.nproducers)
    (start : mpsc.wp &&& offsetMask T = 0) (beyond : wrapLockBit T < mpsc.cap)
    (reader : mpsc.rp = 0 ∨ mpsc.rp = mpsc.cap) :
    ∃ m, userCall (.write 0 (List.replicate (wrapLockBit T).toNat 0)) mpsc = some (.off (some 0), m) ∧
      m.warpEnd = 0 ∧ m.rp = mpsc.rp ∧ m.cap = mpsc.cap ∧ ¬Locked m.wp ∧ m.wp &&& offsetMask T = 0 ∧ Idle m := by
  have length : (List.replicate (wrapLockBit T).toNat (0 : Byte)).length = (wrapLockBit T).toNat :=
    List.length_replicate
  have size : BitVec.ofNat T.bits (wrapLockBit T).toNat = wrapLockBit T := ofNat_toNat_eq rfl
  have sum : (0 : Usz T) + wrapLockBit T = wrapLockBit T := BitVec.zero_add _
  have short : ¬wrapLockBit T ≥ mpsc.cap := BitVec.not_le.mpr beyond
  have clear : ¬((0 : Usz T) < mpsc.rp ∧ wrapLockBit T ≥ mpsc.rp) := by
    rintro ⟨ahead, meets⟩
    rcases reader with zero | at_cap
    · rw [zero] at ahead
      exact BitVec.lt_irrefl _ ahead
    · rw [at_cap] at meets
      exact short meets
  have target : acquireTarget mpsc.cap mpsc.wp mpsc.rp (wrapLockBit T) =
      some (wrapLockBit T ||| (mpsc.wp &&& wrapCounter T)) := by
    simp only [acquireTarget, start, sum, if_neg clear, if_neg short]
  have locked := (or_counter_locked (wrapLockBit T) mpsc.wp).mpr lockBit_locked
  have acquire := mpscAcquire_unlocked unlocked 0 (wrapLockBit T)
  simp only [target, if_pos locked] at acquire
  obtain ⟨m, acquire, warpEnd, rp, cap, free, off, slots⟩ : ∃ m,
      mpscAcquire mpsc 0 (wrapLockBit T) = some (some 0, m) ∧ m.warpEnd = 0 ∧ m.rp = mpsc.rp ∧ m.cap = mpsc.cap ∧
      ¬Locked m.wp ∧ m.wp &&& offsetMask T = 0 ∧ Slots mpsc m 0 := by
    refine ⟨_, acquire, start, rfl, rfl, not_lock_unlocked _, ?_, ⟨rfl, rfl, (setReserve_slots mpsc 0 _).others⟩⟩
    rw [not_lock_offset, or_counter_offset]
    exact mask_lock
  obtain ⟨buf, copied⟩ := mpscCopyIn_buf m 0 (List.replicate (wrapLockBit T).toNat 0)
  have slots' : Slots mpsc { m with buf } 0 := ⟨slots.cap, slots.nproducers, slots.others⟩
  refine ⟨mpscPush { m with buf } 0, ?_, warpEnd, rp, cap, free, off, idle.push slots'⟩
  have valid : 0 < mpsc.nproducers ∧ (List.replicate (wrapLockBit T).toNat (0 : Byte)).length < T.modulus := by
    rw [length]
    exact ⟨slot, (wrapLockBit T).isLt⟩
  rw [userCall, if_pos valid]
  simp only [mpscWrite, length, size, acquire, Option.bind_eq_bind, Option.bind_some, copied]
  rfl

/-- A byte is read from a ring with nothing in it, if the reader has stayed at its end. -/
theorem long_read (unlocked : ¬Locked mpsc.wp) (idle : Idle mpsc) (start : mpsc.wp &&& offsetMask T = 0)
    (warpEnd : mpsc.warpEnd = 0) (reader : mpsc.rp = mpsc.cap) (moved : mpsc.rp ≠ 0) :
    ∃ bytes m, userCall (.read 1) mpsc = some (.bytes bytes, m) ∧ bytes.length = 1 := by
  have pass := popPass_idle unlocked idle mpsc.rp
  have zero : (0 : Usz T).toNat = 0 := BitVec.toNat_zero
  have one : (1 : Usz T).toNat = 1 := by cases T <;> decide
  have positive := pos_of_ne_zero moved
  have set : ¬(0 : Usz T) = offsetMax T := by cases T <;> decide
  have ahead : (0 : Usz T) < mpsc.rp := by
    rw [BitVec.lt_def]
    omega
  have short : ¬offsetMax T < 0 := by simp [BitVec.lt_def]
  simp only [start, if_neg moved, if_pos ahead, if_neg set, warpEnd, if_neg short] at pass
  have avail : ¬(0 : Usz T) - mpsc.rp = 0 := by
    intro same
    have sum := BitVec.sub_add_cancel (0 : Usz T) mpsc.rp
    rw [same] at sum
    exact moved ((BitVec.zero_add _).symm.trans sum)
  have enough : ¬(0 : Usz T) - mpsc.rp < 1 := by
    have bytes := pos_of_ne_zero avail
    rw [BitVec.lt_def]
    omega
  have first : mpsc.cap - mpsc.rp = 0 := by
    rw [reader]
    exact BitVec.sub_self _
  simp only [userCall, mpscRead, mpscPop_done pass, Option.bind_eq_bind, Option.bind_some, if_neg avail,
    if_neg enough, Option.getD_some, first]
  refine ⟨_, _, rfl, ?_⟩
  split
  · rw [Memory.read_length, one]
  · have rest : (1 : Usz T) - 0 = 1 := BitVec.sub_zero 1
    rw [List.length_append, Memory.read_length, Memory.read_length, zero, rest, one]

theorem short_read (unlocked : ¬Locked mpsc.wp) (idle : Idle mpsc) (start : mpsc.wp &&& offsetMask T = 0)
    (none : mpsc.rp = 0) : userCall (.read 1) mpsc = some (.bytes [], mpsc) := by
  have pass := popPass_idle unlocked idle mpsc.rp
  have same : mpsc.rp = mpsc.wp &&& offsetMask T := none.trans start.symm
  simp only [if_pos same] at pass
  simp only [userCall, mpscRead, mpscPop_done pass, Option.bind_eq_bind, Option.bind_some, if_true]
  rfl

end Long

section Init

/-- The ring as it would be with `wp` and `rp` zeroed. -/
def cleared (mpsc : Mpsc T) : Mpsc T := { mpsc with wp := 0, rp := 0 }

theorem cleared_unlocked : ¬Locked (cleared mpsc).wp := by
  change ¬Locked (0 : Usz T)
  cases T <;> decide

theorem cleared_off : (cleared mpsc).wp &&& offsetMask T = 0 := BitVec.zero_and

theorem cleared_start : (cleared mpsc).off = 0 ∧ (cleared mpsc).rp.toNat = 0 := by
  have zero : (0 : Usz T).toNat = 0 := BitVec.toNat_zero
  exact ⟨by rw [Mpsc.off, cleared_off, zero], zero⟩

theorem mask_room : 4 * (offsetMask T).toNat < T.modulus := by cases T <;> decide

theorem Clear.freshLike (clear : Clear mpsc.cap mpsc.wp mpsc.rp) (unset : mpsc.warpEnd = offsetMax T)
    (idle : Idle mpsc) : FreshLike mpsc (cleared mpsc) := by
  obtain ⟨unlocked, off, reader⟩ := clear
  have zero : (0 : Usz T).toNat = 0 := BitVec.toNat_zero
  have alike : Alike (cleared mpsc) mpsc.wp mpsc.rp := by
    refine ⟨⟨cleared_unlocked, unlocked, off.trans cleared_off.symm, ?_⟩, idle⟩
    rcases reader with start | ⟨at_cap, cap_le⟩
    · exact .inl start
    · by_cases none : mpsc.cap = 0
      · exact .inl (at_cap.trans none)
      · refine .inr ⟨at_cap, rfl, unset, ?_, cap_le⟩
        rw [Mpsc.off, cleared_off, zero]
        exact pos_of_ne_zero none
  constructor
  · have pass : popPass (cleared mpsc) 0 = some (.done 0 none) := by
      rw [popPass_idle cleared_unlocked idle]
      exact congrArg some (if_pos cleared_off.symm)
    have pop : mpscPop mpsc = (mpscPop (cleared mpsc)).map _ := alike.pop
    rw [pop, mpscPop_done pass]
    exact ⟨_, _, rfl⟩
  · intro calls
    exact outputs_simulates (R := Twin) Twin.call ⟨mpsc.wp, mpsc.rp, rfl, alike⟩

variable (like : FreshLike mpsc (cleared mpsc))
include like

theorem FreshLike.unlocked : ¬Locked mpsc.wp := by
  intro locked
  obtain ⟨off, m, pop⟩ := like.pop
  simp [mpscPop, popLoop, popPass, mpscGetWp, locked] at pop

/-- Where `mpsc_pop` returns 0. -/
theorem FreshLike.places (unset : mpsc.warpEnd = offsetMax T) (idle : Idle mpsc) : mpsc.rp = mpsc.wp &&& offsetMask T ∨
    (mpsc.wp &&& offsetMask T = 0 ∧ mpsc.rp = mpsc.cap) ∨
    (mpsc.rp = offsetMax T ∧ offsetMax T < mpsc.cap) := by
  obtain ⟨off, m, pop⟩ := like.pop
  have pass := popPass_idle like.unlocked idle mpsc.rp
  simp only [unset, if_true] at pass
  have same {x y : Usz T} (none : x - y = 0) : y = x := by
    have sum := BitVec.sub_add_cancel x y
    rw [none] at sum
    exact (BitVec.zero_add y).symm.trans sum
  by_cases empty : mpsc.rp = mpsc.wp &&& offsetMask T
  · exact .inl empty
  · rw [if_neg empty] at pass
    by_cases wrap : mpsc.wp &&& offsetMask T < mpsc.rp
    · rw [if_pos wrap] at pass
      by_cases ends : mpsc.rp = mpsc.cap
      · rw [if_pos ends] at pass
        refine .inr (.inl ⟨?_, ends⟩)
        by_contra some
        have again := @popPass_idle T { mpsc with warpEnd := offsetMax T, rp := 0 } like.unlocked idle 0
        have differ : ¬(0 : Usz T) = mpsc.wp &&& offsetMask T := fun zero => some zero.symm
        have ahead : ¬mpsc.wp &&& offsetMask T < 0 := by simp [BitVec.lt_def]
        simp only [if_neg differ, if_neg ahead] at again
        simp only [mpscPop, popLoop, pass, again, Option.bind_eq_bind, Option.bind_some, Option.pure_def,
          Option.some.injEq, Prod.mk.injEq] at pop
        exact some (same pop.1.1).symm
      · rw [if_neg ends] at pass
        rw [mpscPop_done pass] at pop
        have at_bound := same (congrArg (fun x => x.1.1) (Option.some.inj pop))
        by_cases beyond : offsetMax T < mpsc.cap
        · rw [if_pos beyond] at at_bound
          exact .inr (.inr ⟨at_bound, beyond⟩)
        · rw [if_neg beyond] at at_bound
          exact absurd at_bound ends
    · rw [if_neg wrap] at pass
      rw [mpscPop_done pass] at pop
      exact .inl (same (congrArg (fun x => x.1.1) (Option.some.inj pop)))

variable (slot : 0 < mpsc.nproducers)
include slot

/-- Both rings refuse a request, or place it at the same offset. -/
theorem FreshLike.agree {k : Nat} (lt : k < T.modulus) :
    (Refuses mpsc k ∧ Refuses (cleared mpsc) k) ∨
    (¬Refuses mpsc k ∧ ¬Refuses (cleared mpsc) k ∧
      ∃ off m m', Placed mpsc 0 k off m ∧ Placed (cleared mpsc) 0 k off m') := by
  have length : (List.replicate k (0 : Byte)).length = k := List.length_replicate
  have size : (BitVec.ofNat T.bits k).toNat = k := toNat_length lt
  have short : (List.replicate k (0 : Byte)).length < T.modulus := by rwa [length]
  have same := like.calls [.write 0 (List.replicate k 0)]
  have one := mpscAcquire_cases like.unlocked 0 (BitVec.ofNat T.bits k)
  have other := @mpscAcquire_cases T (cleared mpsc) cleared_unlocked 0 (BitVec.ofNat T.bits k)
  rw [size] at one other
  rw [← length] at one other
  rcases one with ⟨refuses, acquire⟩ | ⟨free, off, m, acquire, placed⟩ <;>
    rcases other with ⟨refuses', acquire'⟩ | ⟨free', off', m', acquire', placed'⟩ <;>
    rw [outputs_write slot short acquire, @outputs_write T (cleared mpsc) _ _ _ _ slot short acquire'] at same
  · rw [length] at refuses refuses'
    exact .inl ⟨refuses, refuses'⟩
  · cases same
  · cases same
  · cases same
    rw [length] at free free' placed placed'
    exact .inr ⟨free, free', off, m, m', placed, placed'⟩

/-- An empty ring is empty at the start: an empty message shows where it stands, or one
as long as the ring that it stands behind it. -/
theorem FreshLike.empty (same : mpsc.rp = mpsc.wp &&& offsetMask T) : mpsc.off = 0 := by
  by_contra some
  have rp : mpsc.rp.toNat = mpsc.off := congrArg BitVec.toNat same
  have off_le := mpsc.off_le
  have room := mask_room (T := T)
  have mask := mask_lt_offsetMax (T := T)
  obtain ⟨off', rp'⟩ := @cleared_start T mpsc
  rcases Nat.lt_or_ge mpsc.cap.toNat mpsc.off with behind | inside
  · have sum : mpsc.sum mpsc.cap.toNat = mpsc.off + mpsc.cap.toNat := Nat.mod_eq_of_lt (by omega)
    have sum' : (cleared mpsc).sum mpsc.cap.toNat = mpsc.cap.toNat := by
      rw [Mpsc.sum, off', Nat.zero_add]
      exact Nat.mod_eq_of_lt (by omega)
    have low : mpsc.cap.toNat % ((offsetMask T).toNat + 1) = mpsc.cap.toNat := Nat.mod_eq_of_lt (by omega)
    rcases like.agree slot (k := mpsc.cap.toNat) (by omega) with ⟨refuses, _⟩ | ⟨_, free, _⟩
    · unfold Refuses at refuses
      omega
    · exact free (.inr (.inl ⟨sum', rp'⟩))
  · have sum : mpsc.sum 0 = mpsc.off := Nat.mod_eq_of_lt (by omega)
    rcases like.agree slot (k := 0) (by omega) with ⟨refuses, _⟩ | ⟨_, _, off, m, m', placed, placed'⟩
    · unfold Refuses at refuses
      have none : 0 % ((offsetMask T).toNat + 1) = 0 := Nat.zero_mod _
      omega
    · have place := placed.place
      have place' := placed'.place
      omega

/-- A reader at the largest word would block a message that fits a ring as large. -/
theorem FreshLike.not_beyond (at_max : mpsc.rp = offsetMax T) : ¬offsetMax T < mpsc.cap := by
  intro beyond
  have rp : mpsc.rp.toNat = (offsetMax T).toNat := congrArg BitVec.toNat at_max
  have beyond' := BitVec.lt_def.mp beyond
  have off_le := mpsc.off_le
  have mask := mask_lt_offsetMax (T := T)
  obtain ⟨off', rp'⟩ := @cleared_start T mpsc
  have half : 2 * (offsetMax T).toNat < T.modulus := by cases T <;> decide
  have sum : mpsc.sum (offsetMax T).toNat = mpsc.off + (offsetMax T).toNat := Nat.mod_eq_of_lt (by omega)
  have sum' : (cleared mpsc).sum (offsetMax T).toNat = (offsetMax T).toNat := by
    rw [Mpsc.sum, off', Nat.zero_add]
    exact Nat.mod_eq_of_lt (by omega)
  have cap' : (cleared mpsc).cap.toNat = mpsc.cap.toNat := rfl
  rcases like.agree slot (k := (offsetMax T).toNat) (by omega) with ⟨_, refuses⟩ | ⟨free, _, _⟩
  · unfold Refuses at refuses
    omega
  · exact free (.inl ⟨by omega, by omega⟩)

/-- A reader at the end of a ring longer than an offset can be shows when a message has
set the lock bit. -/
theorem FreshLike.cap_le (idle : Idle mpsc) (start : mpsc.wp &&& offsetMask T = 0) (reader : mpsc.rp = mpsc.cap)
    (moved : mpsc.rp ≠ 0) :
    mpsc.cap.toNat ≤ (offsetMax T).toNat + 1 := by
  by_contra long
  have beyond : wrapLockBit T < mpsc.cap := by
    rw [BitVec.lt_def, lockBit_toNat]
    omega
  obtain ⟨m, write, warpEnd, rp, cap, unlocked, off, idle'⟩ :=
    long_write like.unlocked idle slot start beyond (.inr reader)
  obtain ⟨m', write', _, rp', _, unlocked', off', idle''⟩ :=
    @long_write T (cleared mpsc) cleared_unlocked idle slot cleared_off beyond (.inl rfl)
  obtain ⟨bytes, last, read, length⟩ := long_read unlocked idle' off warpEnd (by rw [rp, cap, reader]) (by rwa [rp])
  have read' := short_read unlocked' idle'' off' rp'
  have same := like.calls [.write 0 (List.replicate (wrapLockBit T).toNat 0), .read 1]
  simp only [outputs, write, write', read, read', Option.bind_some, Option.map_some, Option.some.injEq,
    List.cons.injEq, Returned.bytes.injEq, and_true, true_and] at same
  rw [same] at length
  cases length

end Init

/-- Between `mpsc_init` with idle slots and the first call, a ring behaves like one with
`wp` and `rp` zeroed exactly if they are clear. -/
theorem freshLike_iff (unset : mpsc.warpEnd = offsetMax T) (idle : Idle mpsc) (slot : 0 < mpsc.nproducers) :
    FreshLike mpsc (cleared mpsc) ↔ Clear mpsc.cap mpsc.wp mpsc.rp := by
  refine ⟨fun like => ⟨like.unlocked, ?_⟩, fun clear => clear.freshLike unset idle⟩
  have at_start (off : mpsc.off = 0) : mpsc.wp &&& offsetMask T = 0 := zero_of_toNat off
  rcases like.places unset idle with same | ⟨start, at_cap⟩ | ⟨at_max, beyond⟩
  · have start := at_start (like.empty slot same)
    exact ⟨start, .inl (same.trans start)⟩
  · refine ⟨start, ?_⟩
    by_cases none : mpsc.rp = 0
    · exact .inl none
    · exact .inr ⟨at_cap, like.cap_le slot idle start at_cap none⟩
  · exact absurd beyond (like.not_beyond slot at_max)

end AvaModule.MpscRing
