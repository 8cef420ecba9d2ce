import AvaModule.Log.Flush

/-! Runs of the calls of one log: which bytes a flush delivers, and where it stores
them. -/
namespace AvaModule.RingLog
open MpscRing Memory Transition

variable {T : Target} {records : List (Record T)}

/-- `accepted` lists the records of the calls that stored one; no call reads it. -/
structure Run (T : Target) where
  log : Log T
  accepted : List (Record T)

/-- `complete` is the end of an asynchronous transfer. -/
inductive Call (T : Target) where
  | writeBin (ts : BitVec 64) (id : Usz T) (data : List Byte)
  | write (ts : BitVec 64) (id : Usz T) (text : Option (List Byte))
  | flushBin
  | flush
  | complete

def binRecord (ts : BitVec 64) (id : Usz T) (data : List Byte) : Record T :=
  (⟨ts, id, BitVec.ofNat _ data.length⟩, data)

def textRecord (ts : BitVec 64) (id : Usz T) (text : Option (List Byte)) : Record T :=
  match text with
  | some text => (⟨ts, id, BitVec.ofNat _ text.length + 1⟩, text ++ [0])
  | none => (⟨ts, id, 0⟩, [])

def Run.accept (s : Run T) (record : Record T) (result : Bool × Log T) : Run T :=
  ⟨result.2, if result.1 then s.accepted ++ [record] else s.accepted⟩

def callStep (call : Call T) (s : Run T) : Option (Run T) :=
  match call with
  | .writeBin ts id data => (logWriteBin s.log ts id data).map (s.accept (binRecord ts id data))
  | .write ts id text => (logWrite s.log ts id text).map (s.accept (textRecord ts id text))
  | .flushBin => (logFlushBin s.log).map fun log => { s with log := log }
  | .flush => (logFlush s.log).map fun log => { s with log := log }
  | .complete => some { s with log := { s.log with busy := false } }

def runStart (cfg : LogCfg T) (buf flushBuf : Nat → Byte) (nproducers : Nat) : Run T :=
  ⟨logInit cfg buf flushBuf nproducers, []⟩

/-- The records accepted and not handed over. -/
def Run.pending (s : Run T) : List (Record T) := s.accepted.drop s.log.flushed.length

structure RunInv (s : Run T) : Prop where
  waiting : Waiting s.log s.pending
  count : s.log.flushed.length ≤ s.accepted.length

section Steps
variable {s : Run T} {record : Record T} {log' : Log T} {good : Record T → List Byte → Prop}

theorem logWrite_eq (log : Log T) (ts : BitVec 64) (id : Usz T) (text : Option (List Byte)) :
    logWrite log ts id text = writeRecord log (textRecord ts id text).1 (textRecord ts id text).2 := by
  cases text <;> rfl

theorem RunInv.start (cfg : LogCfg T) (buf flushBuf : Nat → Byte) (nproducers : Nat)
    (cap_le : cfg.cap.toNat ≤ (offsetMax T).toNat) : RunInv (runStart cfg buf flushBuf nproducers) where
  waiting := by
    refine ⟨?_, rfl, nofun⟩
    rcases Nat.eq_zero_or_pos cfg.cap.toNat with none | cells
    · exact .inr ⟨⟨fun _ => rfl, zero_of_toNat none, rfl, rfl⟩, rfl⟩
    · exact .inl (.fresh buf cfg.cap nproducers cells cap_le)
  count := Nat.le_refl 0

/-- A write adds its record to the waiting ones, or is dropped without effect. -/
theorem RunInv.write (inv : RunInv s) (spared : SparedWrite s.log record) :
    ∃ stored mpsc, writeRecord s.log record.1 record.2 = some (stored, { s.log with mpsc }) ∧
      RunInv (s.accept record (stored, { s.log with mpsc })) ∧ (stored = false → Untouched s.log.mpsc mpsc) := by
  obtain ⟨stored, mpsc, run, waiting, untouched⟩ := inv.waiting.write spared
  refine ⟨stored, mpsc, run, ?_, untouched⟩
  cases stored with
  | false => exact ⟨waiting, inv.count⟩
  | true =>
    refine ⟨?_, ?_⟩
    · have pending : Run.pending (s.accept record (true, { s.log with mpsc })) = s.pending ++ [record] :=
        List.drop_append_of_le_length inv.count
      rw [pending]
      exact waiting
    · have grown : (s.accepted ++ [record]).length = s.accepted.length + 1 := by simp
      exact Nat.le_trans inv.count (by simp only [Run.accept, if_true]; omega)

theorem batch_length_le (log : Log T) (records : List (Record T)) :
    (batch log records).length ≤ records.length := by
  unfold batch
  split
  · exact Nat.zero_le _
  · split
    · exact Nat.le_refl _
    · exact List.length_take_le' _ _

/-- A flush takes its batch off the waiting ones. -/
theorem RunInv.flushed (inv : RunInv s) (flushed : Flushed s.log log' s.pending good) :
    RunInv { s with log := log' } := by
  obtain ⟨lists, append, each⟩ := flushed.handed
  have length := each.length_eq
  have short := batch_length_le s.log s.pending
  have count := inv.count
  have waiting := flushed.waiting
  have pending : s.pending.length = s.accepted.length - s.log.flushed.length := List.length_drop
  constructor
  · simp only [Run.pending, append, List.length_append, ← length]
    simpa [Run.pending] using waiting
  · simp only [append, List.length_append, ← length]
    omega

theorem Waiting.complete {log : Log T} (waiting : Waiting log records) :
    Waiting { log with busy := false } records := ⟨waiting.ring, waiting.cap, waiting.sizes⟩

end Steps

section Bounds
variable {s : Run T}

/-- Every index stored through `flush_buf` and every length passed to `f_flush` is in
bounds. -/
def FlushSafe (s : Run T) : Prop :=
  (∀ i ∈ s.log.touched, i < s.log.cfg.flushCap.toNat) ∧
  ∀ bytes ∈ s.log.flushed, bytes.length ≤ s.log.cfg.flushCap.toNat

theorem Bounded.safe {log' : Log T} (bounded : Bounded s.log log') (safe : FlushSafe s)
    (cfg : log'.cfg = s.log.cfg) {lists : List (List Byte)} (append : log'.flushed = s.log.flushed ++ lists)
    (short : ∀ bytes ∈ lists, bytes.length ≤ s.log.cfg.flushCap.toNat) :
    FlushSafe { s with log := log' } := by
  obtain ⟨more, touched, inside⟩ := bounded
  constructor
  · intro i member
    rw [touched] at member
    rw [cfg]
    exact (List.mem_append.mp member).elim (safe.1 i) (inside i)
  · intro bytes member
    rw [append] at member
    rw [cfg]
    exact (List.mem_append.mp member).elim (safe.2 bytes) (short bytes)

/-- The lists handed over are as long as what fits. -/
theorem forall₂_short {good : Record T → List Byte → Prop} {limit : Nat} {lists : List (List Byte)}
    (each : List.Forall₂ good records lists)
    (short : ∀ record ∈ records, ∀ bytes, good record bytes → bytes.length ≤ limit) :
    ∀ bytes ∈ lists, bytes.length ≤ limit := by
  induction each with
  | nil => exact nofun
  | cons fine _ ih =>
    intro bytes member
    rcases List.mem_cons.mp member with rfl | later
    · exact short _ List.mem_cons_self _ fine
    · exact ih (fun record member => short record (List.mem_cons_of_mem _ member)) bytes later

/-- A flush of what fits stays in bounds. -/
theorem Flushes.safe {pass : Log T → Option (Bool × Log T)} {fit : LogCfg T → Record T → Prop}
    {good : Record T → List Byte → Prop} (flushes : Flushes pass fit good) (inv : RunInv s)
    (safe : FlushSafe s) (fits : ∀ record ∈ batch s.log s.pending, fit s.log.cfg record)
    (short : ∀ record bytes, fit s.log.cfg record → good record bytes →
      bytes.length ≤ s.log.cfg.flushCap.toNat) :
    ∃ log', flushLoop pass s.log = some log' ∧ RunInv { s with log := log' } ∧
      FlushSafe { s with log := log' } := by
  obtain ⟨log', run, flushed⟩ := flushes.loop inv.waiting fits
  obtain ⟨lists, append, each⟩ := flushed.handed
  refine ⟨log', run, inv.flushed flushed, flushed.bounded.safe safe flushed.cfg append ?_⟩
  exact forall₂_short each fun record member bytes fine => short record bytes (fits record member) fine

end Bounds

end AvaModule.RingLog
