import Mathlib.Logic.Function.Basic
import AvaModule.Util.Typedef

/-! The ring of ds/spsc.h with one writer and one reader. An atomic access of
`wp` or `rp` and the copy of one byte are single steps; the computations between
them belong to the step before. `accepted` and `returned` record what completed
calls have taken and delivered; no step reads them. -/
namespace AvaModule.SpscRing

variable {T : Target}

inductive Policy where
  | truncate
  | overwrite
  | reject
  deriving DecidableEq, Repr

structure Spsc (T : Target) where
  ePolicy : Policy
  buf : Nat → Byte
  cap : Usz T
  wp : Usz T
  rp : Usz T

/-- `IS_POWER_OF_2` -/
def isPowerOf2 (n : Usz T) : Bool := n ≠ 0 && n &&& (n - 1) = 0

/-- `none` stands for the result `-1`. -/
def spscInitBuf (spsc : Spsc T) (cap : Usz T) (ePolicy : Policy) : Option (Spsc T) :=
  if isPowerOf2 cap then some { spsc with ePolicy := ePolicy, cap := cap, rp := 0, wp := 0 }
  else none

/-- The size `spsc_policy` returns, and what it first adds to `rp`, if anything. -/
def spscPolicy (ePolicy : Policy) (cap wp rp size : Usz T) : Usz T × Option (Usz T) :=
  let free := cap - (wp - rp)
  if size ≤ free then (size, none)
  else match ePolicy with
    | .truncate => (free, none)
    | .overwrite => (size, some (size - free))
    | .reject => (0, none)

/-- The cell of byte `i` of a copy of `size` bytes at position `pos`: the first
`memcpy` runs to the end of the buffer, the second one from its start. -/
def copyCell (cap pos size : Usz T) (i : Nat) : Nat :=
  let off := pos &&& (cap - 1)
  let first := if size < cap - off then size else cap - off
  if i < first.toNat then off.toNat + i else i - first.toNat

inductive WriterPc (T : Target) where
  | idle
  | loadRp (src : List Byte) (wp : Usz T)
  | fetchAdd (src : List Byte) (wp size drop : Usz T)
  | copy (src : List Byte) (wp size : Usz T) (i : Nat)

inductive ReaderPc (T : Target) where
  | idle
  | loadWp (size rp : Usz T)
  | copy (rp size : Usz T) (got : List Byte)

structure St (T : Target) extends Spsc T where
  writer : WriterPc T
  reader : ReaderPc T
  accepted : List Byte
  returned : List (List Byte)

def start (spsc : Spsc T) : St T := ⟨spsc, .idle, .idle, [], []⟩

/-- `write` and `read` are calls with their first atomic load; `writer` and
`reader` are the next step of the call under way. -/
inductive Act (T : Target) where
  | write (src : List Byte)
  | writer
  | read (size : Usz T)
  | reader

/-- `if (size == 0) return 0;` before the copy. -/
def beginWrite (src : List Byte) (wp size : Usz T) : WriterPc T :=
  if size = 0 then .idle else .copy src wp size 0

def writeStep (s : St T) (src : List Byte) : Option (St T) :=
  match s.writer with
  | .idle => if src.length < T.modulus then some { s with writer := .loadRp src s.wp } else none
  | _ => none

/-- The rest of `spsc_write_buf`. -/
def writerStep (s : St T) : Option (St T) :=
  match s.writer with
  | .idle => none
  | .loadRp src wp =>
      let (size, drop) := spscPolicy s.ePolicy s.cap wp s.rp (BitVec.ofNat _ src.length)
      match drop with
      | none => some { s with writer := beginWrite src wp size }
      | some drop => some { s with writer := .fetchAdd src wp size drop }
  | .fetchAdd src wp size drop =>
      some { s with rp := s.rp + drop, writer := beginWrite src wp size }
  | .copy src wp size i =>
      if i < size.toNat then
        some { s with
          buf := Function.update s.buf (copyCell s.cap wp size i) (src.getD i 0)
          writer := .copy src wp size (i + 1) }
      else
        some { s with
          wp := wp + size
          writer := .idle
          accepted := s.accepted ++ src.take size.toNat }

def readStep (s : St T) (size : Usz T) : Option (St T) :=
  match s.reader with
  | .idle => some { s with reader := .loadWp size s.rp }
  | _ => none

/-- The rest of `spsc_read_buf`. -/
def readerStep (s : St T) : Option (St T) :=
  match s.reader with
  | .idle => none
  | .loadWp size rp =>
      let avail := s.wp - rp
      let size := if size > avail then avail else size
      if size = 0 then some { s with reader := .idle, returned := s.returned ++ [[]] }
      else some { s with reader := .copy rp size [] }
  | .copy rp size got =>
      if got.length < size.toNat then
        some { s with reader := .copy rp size (got ++ [s.buf (copyCell s.cap rp size got.length)]) }
      else
        some { s with rp := rp + size, reader := .idle, returned := s.returned ++ [got] }

def step (act : Act T) (s : St T) : Option (St T) :=
  match act with
  | .write src => writeStep s src
  | .writer => writerStep s
  | .read size => readStep s size
  | .reader => readerStep s

end AvaModule.SpscRing
