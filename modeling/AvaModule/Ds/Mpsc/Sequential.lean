import AvaModule.Ds.Mpsc.Model
import AvaModule.Lib.Memory

/-! The calls of ds/mpsc.h made one after another. A loop that waits for a word to be
unlocked waits for ever when no other call runs: `none` stands for that. -/
namespace AvaModule.MpscRing
open Memory

variable {T : Target}

def Mpsc.setReserve (mpsc : Mpsc T) (i : Nat) (reservePos : Usz T) : Mpsc T :=
  { mpsc with
    producers := Function.update mpsc.producers i { mpsc.producers i with reservePos := reservePos } }

def Mpsc.setFlag (mpsc : Mpsc T) (i : Nat) (flag : Bool) : Mpsc T :=
  { mpsc with producers := Function.update mpsc.producers i { mpsc.producers i with flag := flag } }

def mpscReg (mpsc : Mpsc T) (id : Nat) : Mpsc T :=
  (mpsc.setReserve id (offsetMax T)).setFlag id true

def mpscUnreg (mpsc : Mpsc T) (p : Nat) : Mpsc T := mpsc.setFlag p false

def mpscGetWp (mpsc : Mpsc T) : Option (Usz T) := if Locked mpsc.wp then none else some mpsc.wp

def mpscGetReservePos (p : MpscP T) : Option (Usz T) :=
  if Locked p.reservePos then none else some p.reservePos

/-- The offset returned, or `none` for `-1`. Without another producer the exchange
succeeds, if not at once then on a later pass with the same words. -/
def mpscAcquire (mpsc : Mpsc T) (p : Nat) (size : Usz T) : Option (Option (Usz T) × Mpsc T) := do
  let wp ← mpscGetWp mpsc
  let off := wp &&& offsetMask T
  match acquireTarget mpsc.cap wp mpsc.rp size with
  | none => return (none, mpsc.setReserve p (offsetMax T))
  | some target =>
      let mpsc := { mpsc.setReserve p ((off ||| wrapLockBit T) &&& ~~~wrapLockBit T) with wp := target }
      if Locked target then
        return (some 0, { mpsc with warpEnd := off, wp := target &&& ~~~wrapLockBit T })
      else return (some off, mpsc)

def mpscPush (mpsc : Mpsc T) (p : Nat) : Mpsc T := mpsc.setReserve p (offsetMax T)

/-- The pass over the slots: the smallest published position from `rp` on. -/
def mpscReady (mpsc : Mpsc T) (rp : Usz T) : Option (Usz T) :=
  (List.range mpsc.nproducers).foldlM (fun ready i =>
    if (mpsc.producers i).flag then do
      let reservePos ← mpscGetReservePos (mpsc.producers i)
      return if reservePos ≥ rp ∧ reservePos < ready then reservePos else ready
    else return ready) (offsetMax T)

/-- One pass of `mpsc_pop` ends the call with a length and `*off`, if it is set, or
goes to `retry`. -/
inductive PopPass (T : Target) where
  | done (nbytes : Usz T) (off : Option (Usz T))
  | retry (mpsc : Mpsc T)

def popPass (mpsc : Mpsc T) (rp : Usz T) : Option (PopPass T) := do
  let wp := (← mpscGetWp mpsc) &&& offsetMask T
  if rp = wp then return .done 0 none
  else
    let ready ← mpscReady mpsc rp
    if wp < rp then
      let warpEnd := if mpsc.warpEnd = offsetMax T then mpsc.cap else mpsc.warpEnd
      if ready = offsetMax T ∧ rp = warpEnd then
        return .retry { mpsc with warpEnd := offsetMax T, rp := 0 }
      else
        let ready := if ready < warpEnd then ready else warpEnd
        return .done (ready - rp) (some rp)
    else
      let ready := if ready < wp then ready else wp
      return .done (ready - rp) (some rp)

/-- At most `n` passes. -/
def popLoop : Nat → Mpsc T → Usz T → Option ((Usz T × Option (Usz T)) × Mpsc T)
  | 0, _, _ => none
  | n + 1, mpsc, rp => do
      match ← popPass mpsc rp with
      | .done nbytes off => return ((nbytes, off), mpsc)
      | .retry mpsc => popLoop n mpsc 0

/-- The second pass starts at 0 and never goes to `retry`. -/
def mpscPop (mpsc : Mpsc T) : Option ((Usz T × Option (Usz T)) × Mpsc T) :=
  popLoop 2 mpsc mpsc.rp

theorem popPass_zero {mpsc mpsc' : Mpsc T} : popPass mpsc 0 ≠ some (.retry mpsc') := by
  intro retry
  simp only [popPass, Option.bind_eq_bind, Option.bind_eq_some_iff] at retry
  obtain ⟨wp, _, pass⟩ := retry
  split at pass
  · cases pass
  · obtain ⟨ready, _, pass⟩ := Option.bind_eq_some_iff.mp pass
    rw [if_neg (by simp)] at pass
    cases pass

theorem popLoop_zero (n : Nat) (mpsc : Mpsc T) : popLoop (n + 1) mpsc 0 = popLoop 1 mpsc 0 := by
  simp only [popLoop]
  cases pass : popPass mpsc 0 with
  | none => rfl
  | some result =>
    cases result with
    | done nbytes off => rfl
    | retry mpsc' => exact absurd pass popPass_zero

def mpscRelease (mpsc : Mpsc T) (size : Usz T) : Mpsc T :=
  { mpsc with rp := releaseTarget mpsc.cap mpsc.rp size }

/-- The copy into the buffer at `off`, in two pieces where the sum passes the end. -/
def mpscCopyIn (mpsc : Mpsc T) (off : Usz T) (src : List Byte) : Mpsc T :=
  let size : Usz T := BitVec.ofNat _ src.length
  if off + size ≤ mpsc.cap then { mpsc with buf := write mpsc.buf off.toNat src }
  else
    let first := (mpsc.cap - off).toNat
    { mpsc with buf := write (write mpsc.buf off.toNat (src.take first)) 0 (src.drop first) }

def mpscWrite (mpsc : Mpsc T) (p : Nat) (src : List Byte) : Option (Option (Usz T) × Mpsc T) := do
  match ← mpscAcquire mpsc p (BitVec.ofNat _ src.length) with
  | (none, mpsc) => return (none, mpsc)
  | (some off, mpsc) => return (some off, mpscPush (mpscCopyIn mpsc off src) p)

/-- The bytes stored at `dst`; their number is what the call returns. -/
def mpscRead (mpsc : Mpsc T) (size : Usz T) : Option (List Byte × Mpsc T) := do
  let ((avail, off), mpsc) ← mpscPop mpsc
  if avail = 0 then return ([], mpsc)
  else
    let off := off.getD 0
    let readNbytes := if avail < size then 0 else size
    let dst :=
      if off + readNbytes ≤ mpsc.cap then read mpsc.buf off.toNat readNbytes.toNat
      else
        let first := mpsc.cap - off
        read mpsc.buf off.toNat first.toNat ++ read mpsc.buf 0 (readNbytes - first).toNat
    return (dst, mpscRelease mpsc readNbytes)

end AvaModule.MpscRing
