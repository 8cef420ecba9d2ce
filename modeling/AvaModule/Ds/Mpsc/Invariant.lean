import AvaModule.Ds.Mpsc.Word

/-! What the words of the ring mean at every point of its calls. The span `v` is
the part of the ring in use; `L i` is the position of the region producer `i` has
claimed. -/
namespace AvaModule.MpscRing
open WrapRing

variable {T : Target} {s s' : St T} {v : Span} {L : Nat → Nat} {i j : Nat}

/-- A region whose producer has not pushed it yet: its first cell, how much of it
is filled, and whether `mpsc_acquire` has returned it. -/
structure Claim where
  msg : List Byte
  start : Nat
  filled : Nat
  returned : Bool

/-- The region a producer has got by its exchange. -/
def ProducerPc.claim : ProducerPc T → Option Claim
  | .loadReserve msg off target => some ⟨msg, if Locked target then 0 else off.toNat, 0, false⟩
  | .clearLock msg off target _ => some ⟨msg, if Locked target then 0 else off.toNat, 0, false⟩
  | .storeWarpEnd msg _ _ => some ⟨msg, 0, 0, false⟩
  | .unlockWp msg _ _ => some ⟨msg, 0, 0, false⟩
  | .hold msg off filled => some ⟨msg, off.toNat, filled, true⟩
  | _ => none

/-- A `wp` that is locked: the offset before, the word, and whether `warp_end`
has still to be stored. -/
structure Wrapping (T : Target) where
  off : Usz T
  target : Usz T
  unstored : Bool

def ProducerPc.wrapping : ProducerPc T → Option (Wrapping T)
  | .loadReserve _ off target => if Locked target then some ⟨off, target, true⟩ else none
  | .clearLock _ off target _ => if Locked target then some ⟨off, target, true⟩ else none
  | .storeWarpEnd _ off target => some ⟨off, target, true⟩
  | .unlockWp _ off target => some ⟨off, target, false⟩
  | _ => none

/-- The offset a slot publishes. -/
def MpscP.pub (slot : MpscP T) : Nat := (slot.reservePos &&& ~~~wrapLockBit T).toNat

/-- The offset of a word. -/
def offsetOf (wp : Usz T) : Nat := (wp &&& offsetMask T).toNat

/-- A `wp` that was loaded after `seen` wraps. -/
structure Saw (wp : Usz T) (seen laps : Nat) (v : Span) : Prop where
  past : seen ≤ laps
  word : wp = pack seen (wp &&& offsetMask T)
  inside : offsetOf wp < v.cap
  upto : laps = seen → offsetOf wp ≤ v.off

/-- The control state of a producer fits its slot. -/
def ProducerOk (slot : MpscP T) (pc : ProducerPc T) (seen laps : Nat) (v : Span) : Prop :=
  match pc with
  | .out => slot.flag = false
  | .setFlag => slot.reservePos = offsetMax T
  | .idle => slot.flag = true ∧ slot.reservePos = offsetMax T
  | .loadWp msg => slot.flag = true ∧ msg.length ≤ v.cap
  | .storeReserve msg wp => slot.flag = true ∧ msg.length ≤ v.cap ∧ Saw wp seen laps v
  | .loadRp msg wp =>
      slot.flag = true ∧ msg.length ≤ v.cap ∧ Saw wp seen laps v ∧
        slot.reservePos = (wp &&& offsetMask T) ||| wrapLockBit T
  | .cas msg wp target =>
      slot.flag = true ∧ msg.length ≤ v.cap ∧ Saw wp seen laps v ∧
        slot.reservePos = (wp &&& offsetMask T) ||| wrapLockBit T ∧
        target = targetWord T seen v.cap (offsetOf wp) msg.length ∧
        (laps = seen → v.off = offsetOf wp → v.Fits msg.length)
  | .refuse => slot.flag = true
  | .clearLock _ _ _ reservePos => reservePos = slot.reservePos
  | .loadReserve _ _ _ | .storeWarpEnd _ _ _ | .unlockWp _ _ _ | .hold _ _ _ => True

/-- A claimed region lies in the used part of the ring, where its slot says. -/
structure Holder (slot : MpscP T) (c : Claim) (v : Span) (L : Nat) : Prop where
  flag : slot.flag = true
  region : v.Region slot.pub c.start c.msg.length L
  upto : c.filled ≤ c.msg.length

/-- The consumer may give back `n` bytes. -/
structure Front (s : St T) (v : Span) (L : Nat → Nat) (n : Nat) : Prop where
  run : v.rp + n ≤ v.top
  stops : ∀ i c, (s.pc i).claim = some c → v.R + n ≤ L i

/-- The scan of the first `i` slots, after `wp` was loaded: `ready` stops at every
offset that is published between `rp` and the `wp` of then. -/
structure Scan (s : St T) (v : Span) (rp wp : Usz T) (i : Nat) (ready : Usz T) : Prop where
  at_rp : rp.toNat = v.rp
  window : (v.rp ≤ wp.toNat ∧ wp.toNat ≤ v.top) ∨
    (wp.toNat < v.rp ∧ v.off < v.rp ∧ ∀ j, (s.pc j).wrapping = none)
  above : v.rp ≤ ready.toNat
  scanned : ∀ j < i, ∀ c, (s.pc j).claim = some c → v.rp ≤ (s.producers j).pub →
    ready.toNat ≤ (s.producers j).pub ∨ (v.rp ≤ wp.toNat ∧ wp.toNat ≤ (s.producers j).pub)

/-- The end of a scan that has found the ring wrapped. -/
structure Scanned (s : St T) (v : Span) (rp ready : Usz T) : Prop where
  at_rp : rp.toNat = v.rp
  wrap : v.off < v.rp
  quiet : ∀ j, (s.pc j).wrapping = none
  above : v.rp ≤ ready.toNat
  stops : ∀ j c, (s.pc j).claim = some c → v.rp ≤ (s.producers j).pub → ready.toNat ≤ (s.producers j).pub

/-- The upper run is read to its end, and no region is published in it. -/
structure Exhausted (s : St T) (v : Span) : Prop where
  wrap : v.off < v.rp
  empty : v.rp = v.lim
  short : v.lim < v.cap
  lower : ∀ j c, (s.pc j).claim = some c → (s.producers j).pub < v.rp

def ConsumerOk (s : St T) (v : Span) (L : Nat → Nat) : Prop :=
  match s.consumer with
  | .idle off avail copied =>
      (avail.toNat ≠ 0 → off.toNat = v.rp) ∧ Front s v L avail.toNat ∧ copied ≤ avail.toNat
  | .loadRp => True
  | .loadWp rp => rp.toNat = v.rp
  | .loadFlag rp wp i ready => Scan s v rp wp i ready
  | .loadReserve rp wp i ready => Scan s v rp wp i ready
  | .testWarpEnd rp ready => Scanned s v rp ready
  | .loadWarpEnd rp ready => Scanned s v rp ready ∧ v.lim < v.cap
  | .testClear rp ready warpEnd => Scanned s v rp ready ∧ warpEnd.toNat = v.lim
  | .clearWarpEnd => Exhausted s v
  | .restart => Exhausted s v
  | .releaseLoad off avail size =>
      (avail.toNat ≠ 0 → off.toNat = v.rp) ∧ Front s v L avail.toNat ∧ size ≤ avail
  | .releaseStore off avail size rp =>
      (avail.toNat ≠ 0 → off.toNat = v.rp) ∧ Front s v L avail.toNat ∧ size ≤ avail ∧ rp = s.rp

/-- `warp_end` marks the end of a short upper run, except while it is being
stored or has just been cleared. -/
structure WarpOk (s : St T) (v : Span) : Prop where
  clear : (v.rp ≤ v.off ∨ v.lim = v.cap ∨ (∃ i w, (s.pc i).wrapping = some w ∧ w.unstored = true) ∨
    s.consumer = .restart) → s.warpEnd = offsetMax T
  marks : v.off < v.rp → v.lim < v.cap → (∀ i w, (s.pc i).wrapping = some w → w.unstored = false) →
    s.consumer ≠ .restart → s.warpEnd.toNat = v.lim

/-- The lock bit of `wp` is set exactly while one producer has it. -/
structure LockOk (s : St T) (v : Span) : Prop where
  free : (∀ i, (s.pc i).wrapping = none) → s.wp = pack s.laps (BitVec.ofNat _ v.off)
  busy : ∀ i w, (s.pc i).wrapping = some w → s.wp = w.target ∧
    s.wp = wrapLockBit T ||| pack s.laps (BitVec.ofNat _ v.off) ∧
    w.off.toNat = v.lim ∧ (s.producers i).pub = v.lim ∧ v.off < v.rp ∧ v.lim < v.cap
  alone : ∀ i j, (s.pc i).wrapping ≠ none → (s.pc j).wrapping ≠ none → i = j

/-- The bytes that `mpsc_acquire` has returned and the consumer has not released
are distinct used cells, outside the regions that are about to be returned. -/
structure LiveOk (s : St T) (v : Span) (L : Nat → Nat) : Prop where
  nodup : s.live.Nodup
  used : ∀ b ∈ s.live, ∃ k, v.R ≤ k ∧ k < v.W ∧ v.cell k = b ∧
    ∀ i c, (s.pc i).claim = some c → c.returned = false → ¬(L i ≤ k ∧ k < L i + c.msg.length)

structure Inv (s : St T) (v : Span) (L : Nat → Nat) : Prop where
  valid : v.Valid
  cap_le : v.cap ≤ (offsetMask T).toNat
  cap_eq : s.cap.toNat = v.cap
  rp_eq : s.rp.toNat = v.rp
  W_eq : v.W = s.accepted.length
  outside : ∀ i, s.nproducers ≤ i → s.pc i = .out
  producer : ∀ i, ProducerOk (s.producers i) (s.pc i) (s.seen i) s.laps v
  holder : ∀ i c, (s.pc i).claim = some c → Holder (s.producers i) c v (L i)
  apart : ∀ i j c d, i ≠ j → (s.pc i).claim = some c → (s.pc j).claim = some d →
    L i + c.msg.length ≤ L j ∨ L j + d.msg.length ≤ L i
  lock : LockOk s v
  warp : WarpOk s v
  consumer : ConsumerOk s v L
  live : LiveOk s v L

end AvaModule.MpscRing
