import AvaModule.Ds.Mpsc.Sequential
import AvaModule.Lib.LittleEndian
import AvaModule.Lib.Loop

/-! The log of log/log.h over one ring. `flushed` lists what `f_flush` was handed,
`touched` the indices stored through `flush_buf`; no call reads them. A loop that
does not end has the value `none`. -/
namespace AvaModule.RingLog
open MpscRing Memory

variable {T : Target}

inductive Mode where
  | sync
  | async
  deriving DecidableEq, Repr

structure LogCfg (T : Target) where
  eMode : Mode
  cap : Usz T
  flushCap : Usz T

structure Log (T : Target) where
  cfg : LogCfg T
  mpsc : Mpsc T
  busy : Bool
  flushBuf : Nat → Byte
  flushed : List (List Byte)
  touched : List Nat

/-- `log_entry_t` -/
structure Entry (T : Target) where
  ts : BitVec 64
  id : Usz T
  size : Usz T
  deriving DecidableEq

section Header

def sizeofEntry (T : Target) : Nat := 8 + 2 * wordBytes T

/-- The header as `memcpy` copies it. -/
def Entry.bytes (entry : Entry T) : List Byte :=
  LittleEndian.encode 8 entry.ts.toNat ++ LittleEndian.encode (wordBytes T) entry.id.toNat ++
    LittleEndian.encode (wordBytes T) entry.size.toNat

def Entry.ofBytes (bytes : List Byte) : Entry T where
  ts := BitVec.ofNat _ (LittleEndian.decode (bytes.take 8))
  id := BitVec.ofNat _ (LittleEndian.decode ((bytes.drop 8).take (wordBytes T)))
  size := BitVec.ofNat _ (LittleEndian.decode (bytes.drop (8 + wordBytes T)))

@[simp] theorem Entry.bytes_length (entry : Entry T) : entry.bytes.length = sizeofEntry T := by
  simp only [bytes, sizeofEntry, List.length_append, LittleEndian.encode_length]
  omega

theorem Entry.ofBytes_bytes (entry : Entry T) : Entry.ofBytes entry.bytes = entry := by
  have ts := LittleEndian.ofNat_decode_encode (n := 8) rfl entry.ts
  have id := LittleEndian.ofNat_decode_encode wordBytes_bits entry.id
  have size := LittleEndian.ofNat_decode_encode wordBytes_bits entry.size
  have first : (LittleEndian.encode 8 entry.ts.toNat).length = 8 := LittleEndian.encode_length ..
  have second : (LittleEndian.encode (wordBytes T) entry.id.toNat).length = wordBytes T :=
    LittleEndian.encode_length ..
  have rest : entry.bytes.drop (8 + wordBytes T) =
      LittleEndian.encode (wordBytes T) entry.size.toNat := by
    rw [bytes]
    exact List.drop_left' (by rw [List.length_append, first, second])
  have ts' : entry.bytes.take 8 = LittleEndian.encode 8 entry.ts.toNat := by
    rw [bytes, List.append_assoc]
    exact List.take_left' first
  have id' : (entry.bytes.drop 8).take (wordBytes T) =
      LittleEndian.encode (wordBytes T) entry.id.toNat := by
    rw [bytes, List.append_assoc, List.drop_left' first]
    exact List.take_left' second
  rw [ofBytes, rest, ts', id', ts, id, size]

end Header

/-- A ring and a log before they are initialised are zero-filled. -/
def logInit (cfg : LogCfg T) (buf flushBuf : Nat → Byte) (nproducers : Nat) : Log T :=
  ⟨cfg, fresh buf cfg.cap nproducers, false, flushBuf, [], []⟩

/-- `log_write_bin` and `log_write` from the check of the size on: whether the record
was stored, and the log after it. -/
def writeRecord (log : Log T) (entry : Entry T) (payload : List Byte) : Option (Bool × Log T) := do
  let totalSize := BitVec.ofNat _ (sizeofEntry T) + entry.size
  if totalSize > log.cfg.cap then return (false, log)
  else
    let p := entry.id.toNat
    match ← mpscAcquire (mpscReg log.mpsc p) p totalSize with
    | (none, mpsc) => return (false, { log with mpsc := mpscUnreg mpsc p })
    | (some off, mpsc) =>
        let buf := write mpsc.buf off.toNat entry.bytes
        let buf := write buf (off.toNat + sizeofEntry T) payload
        return (true, { log with mpsc := mpscUnreg (mpscPush { mpsc with buf := buf } p) p })

def logWriteBin (log : Log T) (ts : BitVec 64) (id : Usz T) (data : List Byte) :
    Option (Bool × Log T) :=
  writeRecord log ⟨ts, id, BitVec.ofNat _ data.length⟩ data

/-- `text` is what `vsnprintf` makes of the format and its arguments; the payload is
the text and its terminator. A failing `vsnprintf` returns -1, and the size is 0. -/
def logWrite (log : Log T) (ts : BitVec 64) (id : Usz T) (text : Option (List Byte)) :
    Option (Bool × Log T) :=
  match text with
  | some text => writeRecord log ⟨ts, id, BitVec.ofNat _ text.length + 1⟩ (text ++ [0])
  | none => writeRecord log ⟨ts, id, 0⟩ []

/-- The `mpsc_read` of a header, or nothing if it returns 0. -/
def readEntry (log : Log T) : Option (Option (Entry T) × Log T) := do
  let (bytes, mpsc) ← mpscRead log.mpsc (BitVec.ofNat _ (sizeofEntry T))
  return (if bytes = [] then none else some (Entry.ofBytes bytes), { log with mpsc := mpsc })

/-- Stores through `flush_buf`. -/
def Log.store (log : Log T) (base : Nat) (bytes : List Byte) : Log T :=
  { log with
    flushBuf := write log.flushBuf base bytes
    touched := log.touched ++ cells base bytes.length }

/-- The `mpsc_read` of a payload into `flush_buf + base`, and the length it returns. -/
def readInto (log : Log T) (base size : Usz T) : Option (Usz T × Log T) := do
  let (bytes, mpsc) ← mpscRead log.mpsc size
  return (BitVec.ofNat _ bytes.length, { log with mpsc := mpsc }.store base.toNat bytes)

def fFlush (log : Log T) (totalSize : Usz T) : Log T :=
  { log with flushed := log.flushed ++ [read log.flushBuf 0 totalSize.toNat] }

def setBusy (log : Log T) : Log T := { log with busy := log.cfg.eMode = .async }

/-- One pass of the loop of `log_flush_bin`; `false` stands for `break`. -/
def flushBinPass (log : Log T) : Option (Bool × Log T) := do
  match ← readEntry log with
  | (none, log) => return (false, log)
  | (some entry, log) =>
      let (totalSize, log) ← readInto log 0 entry.size
      return (true, setBusy (fFlush log totalSize))

def decimal (n : Nat) : List Byte := (Nat.toDigits 10 n).map fun c => BitVec.ofNat 8 c.toNat

/-- `"[%llu][%llu]"`, on a microcontroller `"[%llu][%u]"`. -/
def entryText (entry : Entry T) : List Byte :=
  [0x5B] ++ decimal entry.ts.toNat ++ [0x5D, 0x5B] ++ decimal entry.id.toNat ++ [0x5D]

/-- What `snprintf` stores: as much as fits before the terminator. -/
def truncated (cap : Nat) (text : List Byte) : List Byte :=
  if cap = 0 then [] else text.take (cap - 1) ++ [0]

/-- One pass of the loop of `log_flush`. `snprintf` returns the length of the whole text. -/
def flushPass (log : Log T) : Option (Bool × Log T) := do
  match ← readEntry log with
  | (none, log) => return (false, log)
  | (some entry, log) =>
      let text := entryText entry
      let log := log.store 0 (truncated log.cfg.flushCap.toNat text)
      let totalSize : Usz T := BitVec.ofNat _ text.length
      let (n, log) ← readInto log totalSize entry.size
      return (true, setBusy (fFlush log (totalSize + n)))

/-- `while (!lo->busy)` -/
def flushLoop (pass : Log T → Option (Bool × Log T)) : Log T → Option (Log T) :=
  Loop.run ⟨fun log => do
    if log.busy then return .done log
    else
      let result ← pass log
      if result.1 then return .next result.2 else return .done result.2⟩

def logFlushBin (log : Log T) : Option (Log T) := flushLoop flushBinPass log

def logFlush (log : Log T) : Option (Log T) := flushLoop flushPass log

end AvaModule.RingLog
