import AvaModule.Ds.Mp.Reinit
import AvaModule.Lib.Locked
import Mathlib.Logic.Function.Basic

/-! Threads that call one pool. Every statement under `SPIN_LOCK`, every turn of a loop and every byte that is
zeroed is a step of its own, and the threads take their steps in any order. -/
namespace AvaModule.MemPool
open ListHead Memory

/-- `SPINLOCK_BACKOFF_MIN` -/
def backoffMin : Nat := 4

/-- `SPINLOCK_BACKOFF_MAX` -/
def backoffMax : Nat := 128

/-- The count of `SPINLOCK_BACKOFF` after a wait. -/
def backoffNext (cnt : Nat) : Nat := if cnt < backoffMax then cnt + cnt else cnt

/-- The arguments of `mp_alloc`, or of `mp_calloc`, which zeroes what it gets. -/
structure Request (T : Target) where
  cap : Usz T
  zeroed : Bool
  deriving DecidableEq

def Request.blockSize {T : Target} (r : Request T) : Usz T := headerSize T + alignUp r.cap

inductive Op (T : Target) where
  | alloc (r : Request T)
  | free (ptr : Usz T)
  deriving DecidableEq

/-- Where a thread is. `ptr` is what its call hands back, and null for `mp_free`. -/
inductive Pc (T : Target) where
  | idle
  | spin (op : Op T) (backoff : Nat)
  | pause (op : Op T) (backoff left : Nat)
  | enter (op : Op T)
  | look (r : Request T) (node : Usz T)
  | found (r : Request T) (blk : Usz T)
  | whole (r : Request T) (blk : Usz T)
  | cut (r : Request T) (blk : Usz T)
  | sizeRest (r : Request T) (blk : Usz T)
  | sizeFront (r : Request T) (blk : Usz T)
  | place (op : Op T) (ptr block : Usz T)
  | seek (op : Op T) (ptr block pos : Usz T)
  | link (op : Op T) (ptr block pos : Usz T)
  | bump (r : Request T)
  | sizeFresh (r : Request T)
  | grow (r : Request T)
  | unlock (op : Op T) (ptr : Usz T)
  | zero (ptr cap : Usz T) (i : Nat)
  deriving DecidableEq

/-- Between `SPIN_LOCK` and `SPIN_UNLOCK`. -/
def Pc.Inside {T : Target} : Pc T → Prop
  | .idle | .spin .. | .pause .. | .zero .. => False
  | _ => True

/-- What is given out to a thread: the pointer, and the size asked for. -/
structure Cell (I : Type) (T : Target) where
  holder : I
  ptr : Usz T
  cap : Usz T
  deriving DecidableEq

def Op.act {T : Target} : Op T → PoolAct T
  | .alloc ⟨cap, false⟩ => .alloc cap
  | .alloc ⟨cap, true⟩ => .calloc cap
  | .free ptr => .free ptr

/-- The pool, the threads, what is given out and to whom, and the calls in the order in which they gave the lock
back, each with what it hands back. The rest of a block that is being cut is the cutting thread's until it is
linked. -/
structure Threads (I : Type) (T : Target) where
  mp : Mp T
  pc : I → Pc T
  cells : List (Cell I T)
  done : List (Op T × Usz T)

/-- A thread that is in no call makes one, or stores into what it has; any other goes on. `spurious` tells
whether a weak compare-and-swap fails without cause. -/
inductive Act (T : Target) where
  | call (op : Op T)
  | store (ptr : Usz T) (i : Nat) (byte : Byte)
  | go (spurious : Bool)

section Step
variable {I : Type} {T : Target} [DecidableEq I]

namespace Threads

def goto (s : Threads I T) (i : I) (pc : Pc T) : Threads I T := { s with pc := Function.update s.pc i pc }

def withMem (s : Threads I T) (mem : Nat → Byte) : Threads I T := { s with mp := { s.mp with mem } }

def give (s : Threads I T) (i : I) (ptr cap : Usz T) : Threads I T := { s with cells := ⟨i, ptr, cap⟩ :: s.cells }

def holding (s : Threads I T) (i : I) (ptr : Usz T) : Option (Cell I T) :=
  s.cells.find? fun cell => cell.holder = i ∧ cell.ptr = ptr

def take (s : Threads I T) (i : I) (ptr : Usz T) : Threads I T :=
  { s with cells := s.cells.eraseP fun cell => cell.holder = i ∧ cell.ptr = ptr }

/-- A call. No request is larger than the pool, and a thread frees what it has. -/
def call (s : Threads I T) (i : I) (op : Op T) : Option (Threads I T) :=
  match op with
  | .alloc r => if r.cap.toNat ≤ mpSize then some (s.goto i (.spin op backoffMin)) else none
  | .free ptr =>
      if ptr = 0 then some s
      else if (s.holding i ptr).isSome then some (s.goto i (.spin op backoffMin))
      else none

def store (s : Threads I T) (i : I) (ptr : Usz T) (k : Nat) (byte : Byte) : Option (Threads I T) :=
  match s.holding i ptr with
  | none => none
  | some cell => if k < cell.cap.toNat then some (s.withMem (write s.mp.mem (ptr.toNat + k) [byte])) else none

/-- The next statement of a thread. -/
def go (s : Threads I T) (i : I) (spurious : Bool) : Option (Threads I T) :=
  let m := s.mp.mem
  match s.pc i with
  | .idle => none
  | .spin op backoff =>
      if s.mp.lock = 0 ∧ spurious = false then some { s.goto i (.enter op) with mp := { s.mp with lock := 1 } }
      else some (s.goto i (.pause op backoff backoff))
  | .pause op backoff 0 => some (s.goto i (.spin op (backoffNext backoff)))
  | .pause op backoff (left + 1) => some (s.goto i (.pause op backoff left))
  | .enter (.alloc r) => some (s.goto i (.look r (nextOf m s.mp.root)))
  | .enter (.free ptr) => some (s.goto i (.place (.free ptr) 0 (ptr - headerSize T)))
  | .look r node =>
      if node = s.mp.root then some (s.goto i (.bump r))
      else if sizeOf m node < r.blockSize then some (s.goto i (.look r (nextOf m node)))
      else some (s.goto i (.found r node))
  | .found r blk =>
      if sizeOf m blk ≥ r.blockSize + headerSize T + 8 then some (s.goto i (.cut r blk))
      else some (s.goto i (.whole r blk))
  | .whole r blk =>
      let ptr := blk + headerSize T
      some (((s.withMem (listDel m blk)).give i ptr r.cap).goto i (.unlock (.alloc r) ptr))
  | .cut r blk =>
      some (((s.withMem (listDel m blk)).give i (blk + headerSize T) r.cap).goto i (.sizeRest r blk))
  | .sizeRest r blk =>
      some ((s.withMem (setSize m (blk + r.blockSize) (sizeOf m blk - r.blockSize))).goto i (.sizeFront r blk))
  | .sizeFront r blk =>
      let splitBlk := blk + r.blockSize
      some (((s.withMem (setSize m blk r.blockSize)).give i (splitBlk + headerSize T) 0).goto i
        (.place (.alloc r) (blk + headerSize T) splitBlk))
  | .place op ptr block => some (s.goto i (.seek op ptr block (nextOf m s.mp.root)))
  | .seek op ptr block pos =>
      if pos ≠ s.mp.root ∧ pos < block then some (s.goto i (.seek op ptr block (nextOf m pos)))
      else some (s.goto i (.link op ptr block pos))
  | .link op ptr block pos =>
      some (((s.withMem (listAddBetween m block (prevOf m pos) pos)).take i (block + headerSize T)).goto i (.unlock op ptr))
  | .bump r =>
      if s.mp.off + r.blockSize > BitVec.ofNat _ mpSize then some (s.goto i (.unlock (.alloc r) 0))
      else some (s.goto i (.sizeFresh r))
  | .sizeFresh r => some ((s.withMem (setSize m (s.mp.buf + s.mp.off) r.blockSize)).goto i (.grow r))
  | .grow r =>
      let ptr := s.mp.buf + s.mp.off + headerSize T
      let s := s.give i ptr r.cap
      some ({ s with mp := { s.mp with off := s.mp.off + r.blockSize } }.goto i (.unlock (.alloc r) ptr))
  | .unlock op ptr =>
      let s := { s with mp := spinUnlock s.mp, done := s.done ++ [(op, ptr)] }
      match op with
      | .alloc ⟨cap, true⟩ => some (s.goto i (if ptr = 0 then .idle else .zero ptr cap 0))
      | _ => some (s.goto i .idle)
  | .zero ptr cap k =>
      if k < cap.toNat then some ((s.withMem (write m (ptr.toNat + k) [0])).goto i (.zero ptr cap (k + 1)))
      else some (s.goto i .idle)

end Threads

def threadStep (act : I × Act T) (s : Threads I T) : Option (Threads I T) :=
  match act.2 with
  | .call op => if s.pc act.1 = .idle then s.call act.1 op else none
  | .store ptr k byte => if s.pc act.1 = .idle then s.store act.1 ptr k byte else none
  | .go spurious => s.go act.1 spurious

/-- A zeroed pool after `mp_init`, and threads that have made no call. -/
def threadsStart (I : Type) (addr : Usz T) (mem : Nat → Byte) : Threads I T :=
  ⟨mpInit ⟨addr, mem, 0, 0⟩, fun _ => .idle, [], []⟩

end Step

end AvaModule.MemPool
