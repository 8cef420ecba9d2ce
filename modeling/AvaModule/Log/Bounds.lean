import AvaModule.Log.Runs

/-! Where `log_write_bin` stores a record of any size under any id. -/
namespace AvaModule.RingLog
open MpscRing Memory Transition

variable {T : Target} {log log' : Log T} {s t : Run T} {record : Record T} {size : Usz T}

/-- `total_size` -/
def recordSize (record : Record T) : Usz T := BitVec.ofNat _ (sizeofEntry T) + record.1.size

/-- The slots of `producers` that a write indexes. -/
def writtenSlots (log : Log T) (record : Record T) : List Nat :=
  if recordSize record > log.cfg.cap then [] else [record.1.id.toNat]

/-- The whole record lies in the region that `mpsc_acquire` has granted, and the region in
the ring. -/
structure RecordStored (log log' : Log T) (record : Record T) (off : Usz T) : Prop where
  region : ∃ m, mpscAcquire (mpscReg log.mpsc record.1.id.toNat) record.1.id.toNat (recordSize record) =
    some (some off, m)
  size : (recordSize record).toNat = sizeofEntry T + record.2.length
  inside : off.toNat + (recordSize record).toNat ≤ log.mpsc.cap.toNat
  bytes : log'.mpsc.buf = Memory.write log.mpsc.buf off.toNat (recordBytes record)

/-- The call returns; it indexes slots of the array only, leaves every other slot alone, and
drops the record without effect on the ring or stores it in bounds. -/
def WriteBinSafe (log : Log T) (ts : BitVec 64) (id : Usz T) (data : List Byte) : Prop :=
  (∀ i ∈ writtenSlots log (binRecord ts id data), i < log.mpsc.nproducers) ∧
  ∃ stored log', logWriteBin log ts id data = some (stored, log') ∧
    (∀ i ∉ writtenSlots log (binRecord ts id data), log'.mpsc.producers i = log.mpsc.producers i) ∧
    if stored then ∃ off, RecordStored log log' (binRecord ts id data) off
    else log'.mpsc.buf = log.mpsc.buf ∧ log'.mpsc.wp = log.mpsc.wp

/-- What a record of `len` bytes must be like unless the guard drops it: its slot exists,
and the ring refuses it, or neither its size nor, below the end of the ring, the end of
its region leaves the word. -/
def RecordFits (log : Log T) (id : Usz T) (len : Nat) : Prop :=
  let total := (sizeofEntry T + len) % T.modulus
  total ≤ log.cfg.cap.toNat → id.toNat < log.mpsc.nproducers ∧
    (Refuses log.mpsc total ∨ (sizeofEntry T + len < T.modulus ∧
      (log.mpsc.off + total < T.modulus ∨ log.mpsc.cap.toNat < log.mpsc.sum total)))

/-- No call is under way. -/
structure Usable (log : Log T) : Prop where
  unlocked : ¬Locked log.mpsc.wp
  cap : log.mpsc.cap = log.cfg.cap

section Write

/-- What became of a record: too long for the guard, refused by the ring, or stored. -/
inductive Written (log : Log T) (record : Record T) : Bool × Log T → Prop where
  | long (past : log.cfg.cap < recordSize record) : Written log record (false, log)
  | refused {mpsc : Mpsc T}
      (others : ∀ i ≠ record.1.id.toNat, mpsc.producers i = log.mpsc.producers i)
      (upto : recordSize record ≤ log.cfg.cap)
      (refuses : Refuses log.mpsc (recordSize record).toNat)
      (buf : mpsc.buf = log.mpsc.buf) (wp : mpsc.wp = log.mpsc.wp) (cap : mpsc.cap = log.mpsc.cap) :
      Written log record (false, { log with mpsc })
  | stored {mpsc m : Mpsc T} {off : Usz T}
      (others : ∀ i ≠ record.1.id.toNat, mpsc.producers i = log.mpsc.producers i)
      (upto : recordSize record ≤ log.cfg.cap)
      (free : ¬Refuses log.mpsc (recordSize record).toNat)
      (region : mpscAcquire (mpscReg log.mpsc record.1.id.toNat) record.1.id.toNat (recordSize record) =
        some (some off, m))
      (placed : Placed (mpscReg log.mpsc record.1.id.toNat) record.1.id.toNat (recordSize record).toNat off m)
      (buf : mpsc.buf = Memory.write log.mpsc.buf off.toNat (recordBytes record))
      (wp : mpsc.wp = m.wp) (cap : mpsc.cap = m.cap) : Written log record (true, { log with mpsc })

theorem Usable.write (usable : Usable log) (record : Record T) :
    ∃ result, writeRecord log record.1 record.2 = some result ∧ Written log record result := by
  have total : BitVec.ofNat T.bits (sizeofEntry T) + record.1.size = recordSize record := rfl
  unfold writeRecord
  dsimp only
  rw [total]
  by_cases past : recordSize record > log.cfg.cap
  · rw [if_pos past]
    exact ⟨_, rfl, .long past⟩
  · have upto : recordSize record ≤ log.cfg.cap := BitVec.not_lt.mp past
    have open' : ¬Locked (mpscReg log.mpsc record.1.id.toNat).wp := usable.unlocked
    rw [if_neg past]
    rcases mpscAcquire_cases open' record.1.id.toNat (recordSize record) with
      ⟨refuses, refused⟩ | ⟨free, off, m, granted, placed⟩
    · rw [refused]
      refine ⟨_, rfl, .refused ?_ upto refuses rfl rfl rfl⟩
      intro i other
      simp [mpscUnreg, mpscReg, Mpsc.setFlag, Mpsc.setReserve, other]
    · rw [granted]
      refine ⟨_, rfl, .stored ?_ upto free granted placed ?_ rfl rfl⟩
      · intro i other
        have slot := placed.slots.others i other
        simp only [mpscReg, Mpsc.setFlag, Mpsc.setReserve, Function.update_of_ne other] at slot
        simpa [mpscUnreg, mpscPush, Mpsc.setFlag, Mpsc.setReserve, other] using slot
      · rw [recordBytes, ← write_append, record.1.bytes_length]
        change Memory.write (Memory.write m.buf _ _) _ _ = _
        rw [placed.buf]
        rfl

end Write

section Calls

/-- A pass of a flush loop leaves `wp` and the capacities alone. -/
structure Passed (log log' : Log T) : Prop where
  cfg : log'.cfg = log.cfg
  wp : log'.mpsc.wp = log.mpsc.wp
  cap : log'.mpsc.cap = log.mpsc.cap

theorem readEntry_passed {entry : Option (Entry T)} (run : readEntry log = some (entry, log')) :
    Passed log log' := by
  simp only [readEntry, Option.bind_eq_bind, Option.bind_eq_some_iff] at run
  obtain ⟨⟨bytes, m⟩, read, run⟩ := run
  cases run
  rw [mpscRead_keeps read]
  exact ⟨rfl, rfl, rfl⟩

theorem readInto_passed {base n : Usz T} (run : readInto log base size = some (n, log')) : Passed log log' := by
  simp only [readInto, Option.bind_eq_bind, Option.bind_eq_some_iff] at run
  obtain ⟨⟨bytes, m⟩, read, run⟩ := run
  cases run
  rw [mpscRead_keeps read]
  exact ⟨rfl, rfl, rfl⟩

theorem Passed.trans {log'' : Log T} (first : Passed log log') (second : Passed log' log'') : Passed log log'' :=
  ⟨second.cfg.trans first.cfg, second.wp.trans first.wp, second.cap.trans first.cap⟩

/-- A pass reads a header, and ends there if there is none. -/
theorem header_passed {rest : Entry T → Log T → Option (Bool × Log T)} {again : Bool}
    (passed : ∀ {entry after}, rest entry after = some (again, log') → Passed after log')
    (run : (do match ← readEntry log with
      | (none, log) => return (false, log)
      | (some entry, log) => rest entry log) = some (again, log')) : Passed log log' := by
  simp only [Option.bind_eq_bind, Option.bind_eq_some_iff] at run
  obtain ⟨⟨entry, after⟩, header, run⟩ := run
  have first := readEntry_passed header
  cases entry with
  | none =>
    cases run
    exact first
  | some entry => exact first.trans (passed run)

/-- It then reads the payload and hands what it has to `f_flush`. -/
theorem payload_passed {base : Usz T} {f : Usz T → Usz T} {again : Bool}
    (run : ((readInto log base size).bind fun read => some (true, setBusy (fFlush read.2 (f read.1)))) =
      some (again, log')) : Passed log log' := by
  obtain ⟨⟨n, last⟩, body, run⟩ := Option.bind_eq_some_iff.mp run
  have second := readInto_passed body
  cases run
  exact ⟨second.cfg, second.wp, second.cap⟩

theorem flushBinPass_passed {again : Bool} (run : flushBinPass log = some (again, log')) : Passed log log' := by
  refine header_passed ?_ run
  intro entry after payload
  exact payload_passed (f := fun n => n) payload

theorem flushPass_passed {again : Bool} (run : flushPass log = some (again, log')) : Passed log log' := by
  refine header_passed ?_ run
  intro entry after payload
  have printed := payload_passed (f := fun n => BitVec.ofNat _ (entryText entry).length + n) payload
  exact ⟨printed.cfg, printed.wp, printed.cap⟩

theorem flushLoop_passed {pass : Log T → Option (Bool × Log T)}
    (passed : ∀ {log log' again}, pass log = some (again, log') → Passed log log')
    (run : flushLoop pass log = some log') : Passed log log' := by
  refine Loop.run_invariant (P := Passed) ?_ ?_ run
  · intro log next after turn rest
    dsimp only at turn
    split at turn
    · cases turn
    · obtain ⟨⟨again, last⟩, run, turn⟩ := Option.bind_eq_some_iff.mp turn
      cases again with
      | true =>
        cases turn
        exact (passed run).trans rest
      | false => cases turn
  · intro log after turn
    dsimp only at turn
    split at turn
    · cases turn
      exact ⟨rfl, rfl, rfl⟩
    · obtain ⟨⟨again, last⟩, run, turn⟩ := Option.bind_eq_some_iff.mp turn
      cases again with
      | true => cases turn
      | false =>
        cases turn
        exact passed run

theorem Usable.passed (usable : Usable log) (passed : Passed log log') : Usable log' where
  unlocked := by
    rw [passed.wp]
    exact usable.unlocked
  cap := by rw [passed.cap, passed.cfg, usable.cap]

theorem Usable.written (usable : Usable log) {result : Bool × Log T} (written : Written log record result) :
    Usable result.2 := by
  cases written with
  | long past => exact usable
  | refused others upto refuses buf wp cap =>
    refine ⟨?_, cap.trans usable.cap⟩
    rw [wp]
    exact usable.unlocked
  | stored others upto free region placed buf wp cap =>
    refine ⟨?_, (cap.trans placed.slots.cap).trans usable.cap⟩
    rw [wp]
    exact placed.unlocked

theorem callStep_usable {call : Call T} (usable : Usable s.log) (run : callStep call s = some t) : Usable t.log := by
  cases call with
  | writeBin ts id data =>
    obtain ⟨result, write, rfl⟩ := Option.map_eq_some_iff.mp run
    obtain ⟨result', write', written⟩ := usable.write (binRecord ts id data)
    obtain rfl := Option.some.inj (write.symm.trans write')
    exact usable.written written
  | write ts id text =>
    obtain ⟨result, write, rfl⟩ := Option.map_eq_some_iff.mp run
    obtain ⟨result', write', written⟩ := usable.write (textRecord ts id text)
    rw [logWrite_eq] at write
    obtain rfl := Option.some.inj (write.symm.trans write')
    exact usable.written written
  | flushBin =>
    obtain ⟨log', flush, rfl⟩ := Option.map_eq_some_iff.mp run
    exact usable.passed (flushLoop_passed flushBinPass_passed flush)
  | flush =>
    obtain ⟨log', flush, rfl⟩ := Option.map_eq_some_iff.mp run
    exact usable.passed (flushLoop_passed flushPass_passed flush)
  | complete =>
    cases run
    exact ⟨usable.unlocked, usable.cap⟩

theorem Usable.start (cfg : LogCfg T) (buf flushBuf : Nat → Byte) (nproducers : Nat) :
    Usable (runStart cfg buf flushBuf nproducers).log where
  unlocked := by
    change ¬Locked (0 : Usz T)
    cases T <;> decide
  cap := rfl

end Calls

section Safe
variable {ts : BitVec 64} {id : Usz T} {data : List Byte}

theorem recordSize_bin (ts : BitVec 64) (id : Usz T) (data : List Byte) :
    (recordSize (binRecord ts id data)).toNat = (sizeofEntry T + data.length) % T.modulus := by
  rw [recordSize, binRecord, ← BitVec.ofNat_add, BitVec.toNat_ofNat]
  rfl

theorem mem_writtenSlots (upto : recordSize record ≤ log.cfg.cap) {i : Nat} :
    i ∈ writtenSlots log record ↔ i = record.1.id.toNat := by
  have inside : ¬recordSize record > log.cfg.cap := Nat.not_lt.mpr upto
  rw [writtenSlots, if_neg inside, List.mem_singleton]

theorem writtenSlots_iff (log : Log T) (record : Record T) (n : Nat) :
    (∀ i ∈ writtenSlots log record, i < n) ↔
      ((recordSize record).toNat ≤ log.cfg.cap.toNat → record.1.id.toNat < n) := by
  unfold writtenSlots
  by_cases past : recordSize record > log.cfg.cap
  · rw [if_pos past]
    exact iff_of_true nofun fun upto => absurd past (Nat.not_lt.mpr upto)
  · rw [if_neg past]
    simp [BitVec.le_def.mp (BitVec.not_lt.mp past)]

/-- A granted record is in bounds if its size is exact and a region below the end of the
ring ends inside the word. -/
theorem stored_iff {mpsc m : Mpsc T} {off : Usz T} (upto : (recordSize record).toNat ≤ log.mpsc.cap.toNat)
    (region : mpscAcquire (mpscReg log.mpsc record.1.id.toNat) record.1.id.toNat (recordSize record) =
      some (some off, m))
    (placed : Placed (mpscReg log.mpsc record.1.id.toNat) record.1.id.toNat (recordSize record).toNat off m)
    (buf : mpsc.buf = Memory.write log.mpsc.buf off.toNat (recordBytes record)) :
    (∃ off, RecordStored log { log with mpsc } record off) ↔
      (recordSize record).toNat = sizeofEntry T + record.2.length ∧
        (log.mpsc.off + (recordSize record).toNat < T.modulus ∨
          log.mpsc.cap.toNat < log.mpsc.sum (recordSize record).toNat) := by
  have cap_lt : log.mpsc.cap.toNat < T.modulus := log.mpsc.cap.isLt
  have place : (off.toNat = log.mpsc.off ∧ log.mpsc.sum (recordSize record).toNat ≤ log.mpsc.cap.toNat) ∨
      (off.toNat = 0 ∧ (log.mpsc.cap.toNat < log.mpsc.sum (recordSize record).toNat ∨
        (offsetMax T).toNat < log.mpsc.sum (recordSize record).toNat)) := placed.place
  constructor
  · rintro ⟨other, ⟨m', region'⟩, size, inside, _⟩
    rw [region] at region'
    cases region'
    refine ⟨size, ?_⟩
    rcases place with ⟨at_off, _⟩ | ⟨_, around⟩
    · exact .inl (by omega)
    · exact around.symm.imp_left (sum_high (recordSize record).isLt)
  · rintro ⟨size, fits⟩
    refine ⟨off, ⟨m, region⟩, size, ?_, buf⟩
    rcases place with ⟨at_off, below⟩ | ⟨at_start, _⟩
    · have word := fits.resolve_right (Nat.not_lt.mpr below)
      rw [Mpsc.sum, Nat.mod_eq_of_lt word] at below
      omega
    · omega

/-- Between calls, a record is stored in bounds or dropped exactly if it fits. -/
theorem Usable.writeBinSafe_iff (usable : Usable log) (ts : BitVec 64) (id : Usz T) (data : List Byte) :
    WriteBinSafe log ts id data ↔ RecordFits log id data.length := by
  obtain ⟨result, run, written⟩ := usable.write (binRecord ts id data)
  have run' : logWriteBin log ts id data = some result := run
  have total := recordSize_bin ts id data
  have exactly : (recordSize (binRecord ts id data)).toNat = sizeofEntry T + data.length ↔
      sizeofEntry T + data.length < T.modulus := by
    rw [total]
    exact Nat.mod_eq_iff_lt (by cases T <;> decide)
  rw [WriteBinSafe, RecordFits, writtenSlots_iff, ← total, run']
  cases written with
  | long past =>
    have past' := BitVec.lt_def.mp past
    exact iff_of_true ⟨fun upto => by omega, false, log, rfl, fun _ _ => rfl, rfl, rfl⟩ fun upto => by omega
  | refused others upto refuses buf wp cap =>
    constructor
    · rintro ⟨slot, _⟩ _
      exact ⟨slot upto, .inl refuses⟩
    · intro fits
      exact ⟨fun upto => (fits upto).1, false, _, rfl,
        fun i out => others i fun same => out ((mem_writtenSlots upto).mpr same), buf, wp⟩
  | stored others upto free region placed buf wp cap =>
    have inside := stored_iff (by rw [usable.cap]; exact upto) region placed buf
    constructor
    · rintro ⟨slot, stored, log', same, _, outcome⟩ _
      cases same
      obtain ⟨size, fits⟩ := inside.mp outcome
      exact ⟨slot upto, .inr ⟨exactly.mp size, fits⟩⟩
    · intro fits
      obtain ⟨slot, exact⟩ := fits upto
      obtain ⟨word, region⟩ := exact.resolve_left free
      exact ⟨fun _ => slot, true, _, rfl, fun i out => others i fun same => out ((mem_writtenSlots upto).mpr same),
        inside.mpr ⟨exactly.mpr word, region⟩⟩

/-- In every state that the calls of a log reach, whatever their sizes and ids were,
`log_write_bin` is safe exactly for the records that fit. -/
theorem calls_writeBinSafe_iff {calls : List (Call T)} {cfg : LogCfg T} {buf flushBuf : Nat → Byte}
    (run : runs callStep calls (runStart cfg buf flushBuf nproducers) = some s)
    (ts : BitVec 64) (id : Usz T) (data : List Byte) :
    WriteBinSafe s.log ts id data ↔ RecordFits s.log id data.length := by
  have usable : Usable s.log := runs_preserve (P := fun s => Usable s.log)
    (fun usable next => callStep_usable usable next) (.start cfg buf flushBuf nproducers) run
  exact usable.writeBinSafe_iff ts id data

end Safe

/-- A byte under the only id there is, behind a record of two bytes. -/
theorem calls_writeBinSafe_iff_second :
    ∃ s : Run .mcu, runs callStep [.writeBin 0 0 [1, 2]] (runStart ⟨.sync, 64, 64⟩ (fun _ => 0) (fun _ => 0) 1) =
      some s ∧ WriteBinSafe s.log 0 0 [7] := by
  obtain ⟨s, run, nproducers, off⟩ : ∃ s : Run .mcu,
      runs callStep [.writeBin 0 0 [1, 2]] (runStart ⟨.sync, 64, 64⟩ (fun _ => 0) (fun _ => 0) 1) = some s ∧
        s.log.mpsc.nproducers = 1 ∧ s.log.mpsc.off = 18 := ⟨_, rfl, rfl, rfl⟩
  refine ⟨s, run, (calls_writeBinSafe_iff run 0 0 [7]).mpr fun _ => ⟨?_, .inr ⟨by decide, .inl ?_⟩⟩⟩
  · rw [nproducers]
    decide
  · rw [off]
    decide

/-- One producer: the id 1 indexes a slot behind the array. A size of `2 ^ 32 - 8` makes
a total of 8, for which a region is granted. -/
theorem record_out_of_bounds :
    ∃ s : Run .mcu, runs callStep [] (runStart ⟨.sync, 64, 64⟩ (fun _ => 0) (fun _ => 0) 1) = some s ∧
      ¬WriteBinSafe s.log 0 1 [7] ∧ ¬WriteBinSafe s.log 0 0 (List.replicate (2 ^ 32 - 8) 0) := by
  have usable : Usable (runStart ⟨.sync, 64, 64⟩ (fun _ => 0) (fun _ => 0) 1 : Run .mcu).log :=
    .start ⟨.sync, 64, 64⟩ (fun _ => 0) (fun _ => 0) 1
  refine ⟨_, rfl, ?_, ?_⟩
  · rw [usable.writeBinSafe_iff]
    intro fits
    exact absurd (fits (by decide)).1 (by decide)
  · rw [usable.writeBinSafe_iff, List.length_replicate]
    intro fits
    rcases (fits (by decide)).2 with (meets | ends | past) | ⟨word, _⟩
    · exact absurd meets.1 (by decide)
    · exact absurd ends.1 (by decide)
    · exact absurd past.1 (by decide)
    · exact absurd word (by decide)

end AvaModule.RingLog
