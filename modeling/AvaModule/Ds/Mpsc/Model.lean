import Mathlib.Logic.Function.Basic
import AvaModule.Util.Typedef

/-! The ring of ds/mpsc.h with any number of producers and one consumer. Every
access of `wp`, `rp`, `warp_end`, `reserve_pos` and `flag` and every copy of one
byte is a step of its own; the computations between them belong to the step
before. `accepted`, `output`, `live`, `laps` and `seen` record what the calls have
done; no step reads them. -/
namespace AvaModule.MpscRing

variable {T : Target}

section Words
variable (T)

def offsetMask : Usz T :=
  match T with
  | .host => 0x00000000FFFFFFFF#64
  | .mcu => 0x0000FFFF#32

def wrapLockBit : Usz T :=
  match T with
  | .host => 0x8000000000000000#64
  | .mcu => 0x80000000#32

def offsetMax : Usz T := BitVec.allOnes T.bits &&& ~~~wrapLockBit T

def wrapCounter : Usz T :=
  match T with
  | .host => 0x7FFFFFFF00000000#64
  | .mcu => 0x7FFF0000#32

/-- The addend of `MPSC_WRAP_INCR`. -/
def wrapUnit : Usz T :=
  match T with
  | .host => 0x100000000#64
  | .mcu => 0x00010000#32

end Words

def wrapIncr (x : Usz T) : Usz T := (x + wrapUnit T) &&& wrapCounter T

def Locked (x : Usz T) : Prop := x &&& wrapLockBit T ≠ 0

instance (x : Usz T) : Decidable (Locked x) := inferInstanceAs (Decidable (_ ≠ _))

structure MpscP (T : Target) where
  reservePos : Usz T
  flag : Bool

structure Mpsc (T : Target) where
  buf : Nat → Byte
  cap : Usz T
  warpEnd : Usz T
  wp : Usz T
  rp : Usz T
  nproducers : Nat
  producers : Nat → MpscP T

/-- A ring and its slots before they are initialised. -/
def zeroed : Mpsc T := ⟨fun _ => 0, 0, 0, 0, 0, 0, fun _ => ⟨0, false⟩⟩

def mpscInit (mpsc : Mpsc T) (buf : Nat → Byte) (cap : Usz T) (producers : Nat → MpscP T)
    (nproducers : Nat) : Mpsc T :=
  { mpsc with
    buf := buf
    cap := cap
    warpEnd := offsetMax T
    nproducers := nproducers
    producers := producers }

/-- `mpsc_init` of a zeroed ring with zeroed slots. -/
def fresh (buf : Nat → Byte) (cap : Usz T) (nproducers : Nat) : Mpsc T :=
  mpscInit zeroed buf cap (fun _ => ⟨0, false⟩) nproducers

/-- What one pass of the loop of `mpsc_acquire` makes of the words it has loaded:
the `target` of its exchange, or nothing if it refuses the request. -/
def acquireTarget (cap wp rp size : Usz T) : Option (Usz T) :=
  let off := wp &&& offsetMask T
  let target := off + size
  if off < rp ∧ target ≥ rp then none
  else if target ≥ cap then
    let target := if target > cap then wrapLockBit T ||| size else 0
    if target &&& offsetMask T ≥ rp then none
    else some (target ||| wrapIncr (wp &&& wrapCounter T))
  else some (target ||| (wp &&& wrapCounter T))

/-- The new `rp` of `mpsc_release`. -/
def releaseTarget (cap rp size : Usz T) : Usz T :=
  let writeNbytes := rp + size
  if writeNbytes = cap then 0 else writeNbytes

/-- Where a producer is: out of its slot, in it, in `mpsc_reg`, in `mpsc_acquire`
for a message, or holding the region it has got, of which it has filled a part. -/
inductive ProducerPc (T : Target) where
  | out
  | setFlag
  | idle
  | loadWp (msg : List Byte)
  | storeReserve (msg : List Byte) (wp : Usz T)
  | loadRp (msg : List Byte) (wp : Usz T)
  | cas (msg : List Byte) (wp target : Usz T)
  | refuse
  | loadReserve (msg : List Byte) (off target : Usz T)
  | clearLock (msg : List Byte) (off target reservePos : Usz T)
  | storeWarpEnd (msg : List Byte) (off target : Usz T)
  | unlockWp (msg : List Byte) (off target : Usz T)
  | hold (msg : List Byte) (off : Usz T) (filled : Nat)

/-- Where the consumer is: between calls, with the range it may still release and
the number of bytes it has copied from it, in `mpsc_pop`, or in `mpsc_release`. -/
inductive ConsumerPc (T : Target) where
  | idle (off avail : Usz T) (copied : Nat)
  | loadRp
  | loadWp (rp : Usz T)
  | loadFlag (rp wp : Usz T) (i : Nat) (ready : Usz T)
  | loadReserve (rp wp : Usz T) (i : Nat) (ready : Usz T)
  | testWarpEnd (rp ready : Usz T)
  | loadWarpEnd (rp ready : Usz T)
  | testClear (rp ready warpEnd : Usz T)
  | clearWarpEnd
  | restart
  | releaseLoad (off avail size : Usz T)
  | releaseStore (off avail size rp : Usz T)

structure St (T : Target) extends Mpsc T where
  pc : Nat → ProducerPc T
  consumer : ConsumerPc T
  accepted : List Byte
  output : List Byte
  live : List Nat
  laps : Nat
  seen : Nat → Nat

def start (mpsc : Mpsc T) : St T :=
  ⟨mpsc, fun _ => .out, .idle 0 0 0, [], [], [], 0, fun _ => 0⟩

/-- `reg`, `unreg`, `acquire`, `push`, `pop` and `release` begin a call;
`producer` and `consumer` are the next step of the call under way. A weak
exchange may fail without a cause. -/
inductive Act (T : Target) where
  | reg (i : Nat)
  | unreg (i : Nat)
  | acquire (i : Nat) (msg : List Byte)
  | fill (i : Nat)
  | push (i : Nat)
  | producer (i : Nat) (spurious : Bool)
  | pop
  | copy
  | release (size : Usz T)
  | consumer

def St.setPc (s : St T) (i : Nat) (pc : ProducerPc T) : St T :=
  { s with pc := Function.update s.pc i pc }

def St.setReserve (s : St T) (i : Nat) (reservePos : Usz T) : St T :=
  { s with producers := Function.update s.producers i { s.producers i with reservePos := reservePos } }

def St.setFlag (s : St T) (i : Nat) (flag : Bool) : St T :=
  { s with producers := Function.update s.producers i { s.producers i with flag := flag } }

/-- The cells of a region. -/
def cells (off size : Nat) : List Nat := (List.range size).map (off + ·)

/-- `mpsc_acquire` returns the region at `off`. -/
def St.returned (s : St T) (i : Nat) (msg : List Byte) (off : Usz T) : St T :=
  { s.setPc i (.hold msg off 0) with live := s.live ++ cells off.toNat msg.length }

/-- The exchange of `mpsc_acquire` succeeds. -/
def St.exchanged (s : St T) (i : Nat) (msg : List Byte) (wp target : Usz T) : St T :=
  let off := wp &&& offsetMask T
  { s.setPc i (.loadReserve msg off target) with
    wp := target
    accepted := s.accepted ++ msg
    laps := if off + BitVec.ofNat _ msg.length ≥ s.cap then s.laps + 1 else s.laps }

/-- The next step of a call of producer `i`. -/
def producerStep (s : St T) (i : Nat) (spurious : Bool) : Option (St T) :=
  match s.pc i with
  | .out | .idle | .hold _ _ _ => none
  | .setFlag => some ((s.setFlag i true).setPc i .idle)
  | .loadWp msg =>
      if Locked s.wp then some s
      else some { s.setPc i (.storeReserve msg s.wp) with seen := Function.update s.seen i s.laps }
  | .storeReserve msg wp =>
      some ((s.setReserve i ((wp &&& offsetMask T) ||| wrapLockBit T)).setPc i (.loadRp msg wp))
  | .loadRp msg wp =>
      match acquireTarget s.cap wp s.rp (BitVec.ofNat _ msg.length) with
      | none => some (s.setPc i .refuse)
      | some target => some (s.setPc i (.cas msg wp target))
  | .refuse => some ((s.setReserve i (offsetMax T)).setPc i .idle)
  | .cas msg wp target =>
      if s.wp = wp ∧ spurious = false then some (s.exchanged i msg wp target)
      else some (s.setPc i (.loadWp msg))
  | .loadReserve msg off target =>
      some (s.setPc i (.clearLock msg off target (s.producers i).reservePos))
  | .clearLock msg off target reservePos =>
      let s : St T := s.setReserve i (reservePos &&& ~~~wrapLockBit T)
      if Locked target then some (s.setPc i (.storeWarpEnd msg off target))
      else some (s.returned i msg off)
  | .storeWarpEnd msg off target => some { s.setPc i (.unlockWp msg off target) with warpEnd := off }
  | .unlockWp msg _ target => some { s.returned i msg 0 with wp := target &&& ~~~wrapLockBit T }

/-- The next step of a call of the consumer. -/
def consumerStep (s : St T) : Option (St T) :=
  match s.consumer with
  | .idle _ _ _ => none
  | .loadRp => some { s with consumer := .loadWp s.rp }
  | .loadWp rp =>
      if Locked s.wp then some s
      else
        let wp := s.wp &&& offsetMask T
        if rp = wp then some { s with consumer := .idle rp 0 0 }
        else some { s with consumer := .loadFlag rp wp 0 (offsetMax T) }
  | .loadFlag rp wp i ready =>
      if i < s.nproducers then
        if (s.producers i).flag then some { s with consumer := .loadReserve rp wp i ready }
        else some { s with consumer := .loadFlag rp wp (i + 1) ready }
      else if wp < rp then some { s with consumer := .testWarpEnd rp ready }
      else
        let ready := if ready < wp then ready else wp
        some { s with consumer := .idle rp (ready - rp) 0 }
  | .loadReserve rp wp i ready =>
      let reservePos := (s.producers i).reservePos
      if Locked reservePos then some s
      else if reservePos ≥ rp ∧ reservePos < ready then
        some { s with consumer := .loadFlag rp wp (i + 1) reservePos }
      else some { s with consumer := .loadFlag rp wp (i + 1) ready }
  | .testWarpEnd rp ready =>
      if s.warpEnd = offsetMax T then some { s with consumer := .testClear rp ready s.cap }
      else some { s with consumer := .loadWarpEnd rp ready }
  | .loadWarpEnd rp ready => some { s with consumer := .testClear rp ready s.warpEnd }
  | .testClear rp ready warpEnd =>
      if ready = offsetMax T ∧ rp = warpEnd then
        if s.warpEnd ≠ offsetMax T then some { s with consumer := .clearWarpEnd }
        else some { s with consumer := .restart }
      else
        let ready := if ready < warpEnd then ready else warpEnd
        some { s with consumer := .idle rp (ready - rp) 0 }
  | .clearWarpEnd => some { s with warpEnd := offsetMax T, consumer := .restart }
  | .restart => some { s with rp := 0, consumer := .loadWp 0 }
  | .releaseLoad off avail size => some { s with consumer := .releaseStore off avail size s.rp }
  | .releaseStore off avail size rp =>
      some { s with
        rp := releaseTarget s.cap rp size
        live := s.live.filter fun b => ¬(rp.toNat ≤ b ∧ b < rp.toNat + size.toNat)
        consumer := .idle (off + size) (avail - size) 0 }

def step (act : Act T) (s : St T) : Option (St T) :=
  match act with
  | .reg i =>
      match s.pc i with
      | .out | .idle =>
          if i < s.nproducers then some ((s.setReserve i (offsetMax T)).setPc i .setFlag) else none
      | _ => none
  | .unreg i =>
      match s.pc i with
      | .idle => some ((s.setFlag i false).setPc i .out)
      | _ => none
  | .acquire i msg =>
      match s.pc i with
      | .idle => if msg.length ≤ s.cap.toNat then some (s.setPc i (.loadWp msg)) else none
      | _ => none
  | .fill i =>
      match s.pc i with
      | .hold msg off filled =>
          if filled < msg.length then
            some { s.setPc i (.hold msg off (filled + 1)) with
              buf := Function.update s.buf (off.toNat + filled) (msg.getD filled 0) }
          else none
      | _ => none
  | .push i =>
      match s.pc i with
      | .hold _ _ _ => some ((s.setReserve i (offsetMax T)).setPc i .idle)
      | _ => none
  | .producer i spurious => producerStep s i spurious
  | .pop =>
      match s.consumer with
      | .idle _ _ _ => some { s with consumer := .loadRp }
      | _ => none
  | .copy =>
      match s.consumer with
      | .idle off avail copied =>
          if copied < avail.toNat then
            some { s with
              output := s.output ++ [s.buf (off.toNat + copied)]
              consumer := .idle off avail (copied + 1) }
          else none
      | _ => none
  | .release size =>
      match s.consumer with
      | .idle off avail _ => if size ≤ avail then some { s with consumer := .releaseLoad off avail size } else none
      | _ => none
  | .consumer => consumerStep s

end AvaModule.MpscRing
