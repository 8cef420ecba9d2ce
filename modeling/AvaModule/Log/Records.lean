import AvaModule.Log.Model
import AvaModule.Ds.Mpsc.Messages

/-! The records that wait in the ring, and what one flush hands over. A record is
written as one message and read back in two parts, the header and the payload. -/
namespace AvaModule.RingLog
open MpscRing Memory

variable {T : Target} {log : Log T} {mpsc : Mpsc T} {entry : Entry T} {payload : List Byte}

abbrev Record (T : Target) := Entry T × List Byte

def recordBytes (record : Record T) : List Byte := record.1.bytes ++ record.2

variable {record : Record T} {records rest : List (Record T)}

/-- A ring without cells, as `mpsc_init` leaves it. -/
structure Dry (mpsc : Mpsc T) : Prop where
  quiet : Quiet mpsc
  cap : mpsc.cap = 0
  rp : mpsc.rp = 0
  wp : mpsc.wp = 0

/-- The records wait in the ring. -/
structure Waiting (log : Log T) (records : List (Record T)) : Prop where
  ring : Holds log.mpsc (records.map recordBytes) ∨ (Dry log.mpsc ∧ records = [])
  cap : log.mpsc.cap = log.cfg.cap
  sizes : ∀ record ∈ records, record.1.size.toNat = record.2.length

/-- What a dropped call leaves of the ring. -/
structure Untouched (mpsc mpsc' : Mpsc T) : Prop where
  wp : mpsc'.wp = mpsc.wp
  rp : mpsc'.rp = mpsc.rp
  warpEnd : mpsc'.warpEnd = mpsc.warpEnd
  buf : mpsc'.buf = mpsc.buf

theorem recordBytes_length (record : Record T) :
    (recordBytes record).length = sizeofEntry T + record.2.length := by
  simp [recordBytes]

theorem sizeofEntry_pos : 0 < sizeofEntry T := by
  unfold sizeofEntry
  omega

theorem sizeofEntry_lt : sizeofEntry T < T.modulus := by cases T <;> decide

section Write

/-- The request of a record does not leave the word, and the ring is spared it. -/
structure SparedWrite (log : Log T) (record : Record T) : Prop where
  size : record.1.size.toNat = record.2.length
  word : sizeofEntry T + record.2.length < T.modulus
  ring : sizeofEntry T + record.2.length ≤ log.cfg.cap.toNat →
    Spared T log.cfg.cap.toNat log.mpsc.rp.toNat log.mpsc.off (sizeofEntry T + record.2.length)

theorem SparedWrite.total (spared : SparedWrite log record) :
    (BitVec.ofNat T.bits (sizeofEntry T) + record.1.size).toNat = sizeofEntry T + record.2.length := by
  rw [BitVec.toNat_add, spared.size, toNat_length sizeofEntry_lt]
  exact Nat.mod_eq_of_lt spared.word

/-- A record is dropped without effect, or waits behind the others. -/
theorem Waiting.write (waiting : Waiting log records) (spared : SparedWrite log record) :
    ∃ stored mpsc, writeRecord log record.1 record.2 = some (stored, { log with mpsc }) ∧
      Waiting { log with mpsc } (if stored then records ++ [record] else records) ∧
      (stored = false → Untouched log.mpsc mpsc) := by
  have total := spared.total
  unfold writeRecord
  dsimp only
  generalize BitVec.ofNat T.bits (sizeofEntry T) + record.1.size = totalSize at total ⊢
  by_cases long : totalSize > log.cfg.cap
  · rw [if_pos long]
    exact ⟨false, log.mpsc, rfl, waiting, fun _ => ⟨rfl, rfl, rfl, rfl⟩⟩
  · have inside : sizeofEntry T + record.2.length ≤ log.cfg.cap.toNat := by
      rw [gt_iff_lt, BitVec.lt_def] at long
      omega
    have length : totalSize.toNat = (recordBytes record).length := by
      rw [total, recordBytes_length]
    have ring := spared.ring inside
    have cap := waiting.cap
    rw [if_neg long]
    rcases waiting.ring with holds | ⟨dry, _⟩
    · rw [← cap, ← recordBytes_length] at ring
      rcases holds.acquire record.1.id.toNat length ring with
        ⟨m, refused, holds', cap', wp, rp, warpEnd, buf⟩ | ⟨off, m, granted, cap', copied⟩
      · refine ⟨false, mpscUnreg m record.1.id.toNat, ?_, ⟨.inl holds', cap'.trans cap, waiting.sizes⟩,
          fun _ => ⟨wp, rp, warpEnd, buf⟩⟩
        rw [refused]
        rfl
      · generalize stored : Memory.write (Memory.write m.buf off.toNat record.1.bytes)
            (off.toNat + sizeofEntry T) record.2 = buf
        have bytes : buf = Memory.write m.buf off.toNat (recordBytes record) := by
          rw [← stored, ← record.1.bytes_length]
          exact write_append record.1.bytes record.2
        refine ⟨true, mpscUnreg (mpscPush { m with buf := buf } record.1.id.toNat) record.1.id.toNat, ?_,
          ⟨.inl ?_, cap'.trans cap, ?_⟩, nofun⟩
        · rw [granted, ← stored]
          rfl
        · simpa using copied _ bytes
        · intro other member
          rcases List.mem_append.mp member with old | new
          · exact waiting.sizes other old
          · rw [List.mem_singleton.mp new]
            exact spared.size
    · rw [← cap, dry.cap] at inside
      have cells := sizeofEntry_pos (T := T)
      simp at inside
      omega

/-- A call that returns has dropped its record exactly where the check of the size or `mpsc_acquire` refuses it. -/
theorem writeRecord_stored {stored : Bool} {log' : Log T} (run : writeRecord log entry payload = some (stored, log')) :
    stored = false ↔ BitVec.ofNat T.bits (sizeofEntry T) + entry.size > log.cfg.cap ∨
      ∃ mpsc, mpscAcquire (mpscReg log.mpsc entry.id.toNat) entry.id.toNat
        (BitVec.ofNat T.bits (sizeofEntry T) + entry.size) = some (none, mpsc) := by
  unfold writeRecord at run
  dsimp only at run
  generalize BitVec.ofNat T.bits (sizeofEntry T) + entry.size = totalSize at run ⊢
  by_cases long : totalSize > log.cfg.cap
  · rw [if_pos long] at run
    cases run
    exact iff_of_true rfl (.inl long)
  · rw [if_neg long] at run
    obtain ⟨⟨off, mpsc⟩, acquired, rest⟩ := Option.bind_eq_some_iff.mp run
    cases off with
    | none =>
      cases rest
      exact iff_of_true rfl (.inr ⟨mpsc, acquired⟩)
    | some off =>
      cases rest
      refine iff_of_false Bool.noConfusion ?_
      rintro (larger | ⟨mpsc', refused⟩)
      · exact long larger
      · rw [acquired] at refused
        cases refused

end Write

section Read
variable {msgs : List (List Byte)}

theorem Dry.read (dry : Dry mpsc) (size : Usz T) : mpscRead mpsc size = some ([], mpsc) := by
  have free : ¬Locked (0 : Usz T) := by cases T <;> decide
  have off : (0 : Usz T) &&& offsetMask T = 0 := BitVec.zero_and
  have same : mpsc.rp = mpsc.wp &&& offsetMask T := by rw [dry.rp, dry.wp, off]
  have getWp : mpscGetWp mpsc = some mpsc.wp := by
    rw [mpscGetWp, dry.wp]
    exact if_neg free
  simp only [mpscRead, mpscPop, popLoop, popPass, getWp, Option.bind_eq_bind, Option.bind_some, if_pos same]
  rfl

/-- The header of the oldest record. -/
theorem readEntry_first (holds : Holds log.mpsc (recordBytes record :: msgs)) :
    ∃ mpsc, readEntry log = some (some record.1, { log with mpsc }) ∧ Holds mpsc (record.2 :: msgs) ∧
      mpsc.cap = log.mpsc.cap := by
  obtain ⟨warpEnd, rp, read, holds'⟩ := holds.read
  refine ⟨{ log.mpsc with warpEnd, rp }, ?_, holds', rfl⟩
  have some : record.1.bytes ≠ [] := by
    intro none
    have length := record.1.bytes_length
    rw [none, List.length_nil] at length
    exact absurd length.symm (Nat.ne_of_gt sizeofEntry_pos)
  rw [record.1.bytes_length] at read
  simp only [readEntry, read, Option.bind_eq_bind, Option.bind_some, if_neg some, Entry.ofBytes_bytes]
  rfl

theorem Waiting.readEntry_none (waiting : Waiting log []) :
    ∃ mpsc, readEntry log = some (none, { log with mpsc }) ∧ Waiting { log with mpsc } [] := by
  rcases waiting.ring with holds | ⟨dry, _⟩
  · obtain ⟨warpEnd, rp, read, holds'⟩ := holds.read_empty (BitVec.ofNat _ (sizeofEntry T))
    refine ⟨{ log.mpsc with warpEnd, rp }, ?_, ⟨.inl holds', waiting.cap, nofun⟩⟩
    simp only [readEntry, read, Option.bind_eq_bind, Option.bind_some]
    rfl
  · refine ⟨log.mpsc, ?_, waiting⟩
    simp only [readEntry, dry.read, Option.bind_eq_bind, Option.bind_some]
    rfl

/-- The payload of the record whose header has been read. -/
theorem readInto_payload (holds : Holds log.mpsc (payload :: msgs)) {size : Usz T}
    (length : size.toNat = payload.length) (base : Usz T) :
    ∃ mpsc, readInto log base size = some (size, Log.store { log with mpsc } base.toNat payload) ∧
      Holds mpsc msgs ∧ mpsc.cap = log.mpsc.cap := by
  have word : BitVec.ofNat T.bits payload.length = size := ofNat_toNat_eq length
  have whole : Holds log.mpsc ((payload ++ []) :: msgs) := by rwa [List.append_nil]
  obtain ⟨warpEnd, rp, read, holds'⟩ := whole.read
  refine ⟨{ log.mpsc with warpEnd, rp }, ?_, holds'.skip, rfl⟩
  rw [word] at read
  simp only [readInto, read, Option.bind_eq_bind, Option.bind_some, word]
  rfl

end Read

section Pass

/-- What a pass does with the oldest record. -/
structure Handed (log log' : Log T) (bytes : List Byte) : Prop where
  cfg : log'.cfg = log.cfg
  busy : log'.busy = decide (log.cfg.eMode = .async)
  flushed : log'.flushed = log.flushed ++ [bytes]
  touched : ∃ more, log'.touched = log.touched ++ more ∧ ∀ i ∈ more, i < log.cfg.flushCap.toNat

theorem mem_cells {i base n : Nat} : i ∈ cells base n ↔ base ≤ i ∧ i < base + n := by
  simp only [cells, List.mem_map, List.mem_range]
  constructor
  · rintro ⟨k, lt, rfl⟩
    omega
  · rintro ⟨above, below⟩
    exact ⟨i - base, by omega, by omega⟩

theorem Waiting.nonempty (waiting : Waiting log (record :: rest)) :
    Holds log.mpsc (recordBytes record :: rest.map recordBytes) := by
  rcases waiting.ring with holds | ⟨_, none⟩
  · exact holds
  · cases none

theorem Waiting.tail (waiting : Waiting log (record :: rest)) {log' : Log T}
    (holds : Holds log'.mpsc (rest.map recordBytes)) (cap : log'.mpsc.cap = log'.cfg.cap) :
    Waiting log' rest :=
  ⟨.inl holds, cap, fun other member => waiting.sizes other (List.mem_cons_of_mem record member)⟩

/-- A payload that fits `flush_buf` is handed over as it was written. -/
theorem Waiting.flushBinPass (waiting : Waiting log (record :: rest))
    (fit : record.2.length ≤ log.cfg.flushCap.toNat) :
    ∃ log', flushBinPass log = some (true, log') ∧ Waiting log' rest ∧ Handed log log' record.2 := by
  obtain ⟨mpsc, header, holds, cap⟩ := readEntry_first waiting.nonempty
  have size := waiting.sizes record List.mem_cons_self
  obtain ⟨mpsc', body, holds', cap'⟩ := @readInto_payload T { log with mpsc } record.2 (rest.map recordBytes) holds _ size 0
  refine ⟨setBusy (fFlush (Log.store { log with mpsc := mpsc' } (0 : Usz T).toNat record.2) record.1.size), ?_,
    waiting.tail holds' ((cap'.trans cap).trans waiting.cap), ⟨rfl, rfl, ?_, ?_⟩⟩
  · simp only [RingLog.flushBinPass, header, body, Option.bind_eq_bind, Option.bind_some]
    rfl
  · simp only [setBusy, fFlush, Log.store, size, BitVec.toNat_ofNat, Nat.zero_mod, BitVec.ofNat_eq_ofNat, read_write]
  · refine ⟨cells 0 record.2.length, by simp [setBusy, fFlush, Log.store], ?_⟩
    intro i member
    have inside := (mem_cells.mp member).2
    omega

theorem truncated_length_le (cap : Nat) (text : List Byte) : (truncated cap text).length ≤ cap := by
  unfold truncated
  split
  · exact Nat.zero_le _
  · rw [List.length_append, List.length_take, List.length_singleton]
    omega

/-- The text and the payload are handed over together. -/
theorem Waiting.flushPass (waiting : Waiting log (record :: rest))
    (fit : (entryText record.1).length + record.2.length ≤ log.cfg.flushCap.toNat) :
    ∃ log' bytes, flushPass log = some (true, log') ∧ Waiting log' rest ∧ Handed log log' bytes ∧
      bytes.length = (entryText record.1).length + record.2.length := by
  obtain ⟨mpsc, header, holds, cap⟩ := readEntry_first waiting.nonempty
  have size := waiting.sizes record List.mem_cons_self
  have flushCap_lt := log.cfg.flushCap.isLt
  have text : (BitVec.ofNat T.bits (entryText record.1).length).toNat = (entryText record.1).length :=
    toNat_length (Nat.lt_of_le_of_lt (Nat.le_trans (Nat.le_add_right _ _) fit) flushCap_lt)
  have total : (BitVec.ofNat T.bits (entryText record.1).length + record.1.size).toNat =
      (entryText record.1).length + record.2.length := by
    rw [BitVec.toNat_add, text, size]
    exact Nat.mod_eq_of_lt (Nat.lt_of_le_of_lt fit flushCap_lt)
  let printed := Log.store { log with mpsc } 0 (truncated log.cfg.flushCap.toNat (entryText record.1))
  have holds : Holds printed.mpsc _ := holds
  obtain ⟨mpsc', body, holds', cap'⟩ :=
    readInto_payload holds size (BitVec.ofNat _ (entryText record.1).length)
  let done := Log.store { printed with mpsc := mpsc' }
    (BitVec.ofNat T.bits (entryText record.1).length).toNat record.2
  refine ⟨setBusy (fFlush done (BitVec.ofNat _ (entryText record.1).length + record.1.size)), _, ?_,
    waiting.tail holds' ((cap'.trans cap).trans waiting.cap), ⟨rfl, rfl, rfl, ?_⟩, ?_⟩
  · simp only [RingLog.flushPass, header, Option.bind_eq_bind, Option.bind_some]
    change (readInto printed _ _).bind _ = _
    rw [body]
    rfl
  · refine ⟨cells 0 _ ++ cells _ record.2.length, List.append_assoc _ _ _, ?_⟩
    intro i member
    have short := truncated_length_le log.cfg.flushCap.toNat (entryText record.1)
    rcases List.mem_append.mp member with front | back
    · have inside := (mem_cells.mp front).2
      omega
    · have inside := (mem_cells.mp back).2
      omega
  · rw [read_length, total]

end Pass

end AvaModule.RingLog
