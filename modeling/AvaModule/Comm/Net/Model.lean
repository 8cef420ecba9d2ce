import AvaModule.Ds.Mp.Model
import Mathlib.Logic.Function.Basic

/-! The asynchronous calls of comm/net.h on Linux. The environment holds the submitted
operations and posts their completions in any order; `net_poll` is taken apart where a
callback or another caller may submit. A call whose behaviour is undefined has the value
`none`. -/
namespace AvaModule.Comm
open ListHead Memory MemPool Function

variable {T : Target}

def mealloc : Int := 6

/-- The parts of `net_ch_t` that the calls read, and its address. -/
structure Ch (T : Target) where
  addr : Usz T
  fSendCb : Usz T
  fRecvCb : Usz T

/-- `net_async_req_t` without `processed`. -/
structure AsyncReq (T : Target) where
  ch : Usz T
  buf : Usz T
  size : Usz T
  fCb : Usz T

/-- Four words and the flag, padded to a word. -/
def sizeofAsyncReq (T : Target) : Usz T := BitVec.ofNat _ (5 * wordBytes T)

def processedAt (req : Usz T) : Nat := req.toNat + 4 * wordBytes T

def storeReq (m : Nat → Byte) (req : Usz T) (r : AsyncReq T) : Nat → Byte :=
  let m := store m req.toNat r.ch
  let m := store m (req.toNat + wordBytes T) r.buf
  let m := store m (req.toNat + 2 * wordBytes T) r.size
  store m (req.toNat + 3 * wordBytes T) r.fCb

def loadReq (m : Nat → Byte) (req : Usz T) : AsyncReq T where
  ch := load m req.toNat
  buf := load m (req.toNat + wordBytes T)
  size := load m (req.toNat + 2 * wordBytes T)
  fCb := load m (req.toNat + 3 * wordBytes T)

/-- A submitted operation: its user data, and the request it was submitted for. -/
structure Op (T : Target) where
  data : Usz T
  origin : Nat

structure Cqe (T : Target) where
  data : Usz T
  res : Int
  origin : Nat

/-- A request that was given a block, and how many completions it is owed: none if it
was refused after that. -/
structure Issued (T : Target) where
  block : Usz T
  req : AsyncReq T
  parts : Nat

/-- A callback: what it was called with, the request whose block was read, and the
request whose completion was the reason. -/
structure Call (T : Target) where
  req : AsyncReq T
  res : Int
  owner : Option Nat
  cause : Nat

structure Release (T : Target) where
  block : Usz T
  owner : Option Nat
  cause : Nat

/-- What `net_poll` does next with the completion at the head of the queue. -/
inductive Pc where
  | peek
  | call
  | free
  | seen
  deriving DecidableEq

/-- The pool, `ops` and `cq` are the state. `issued`, `holder`, `calls` and `frees` are
kept for the record: requests are known by their place in `issued`, and `holder` is the
request a block was last given to. -/
structure Net (T : Target) where
  mp : Mp T
  ops : List (Op T)
  cq : List (Cqe T)
  pc : Pc
  issued : List (Issued T)
  holder : Usz T → Option Nat
  calls : List (Call T)
  frees : List (Release T)

def Net.issue (net : Net T) (block : Usz T) (req : AsyncReq T) (parts : Nat) : Net T :=
  { net with
    ops := net.ops ++ List.replicate parts ⟨block, net.issued.length⟩
    issued := net.issued ++ [⟨block, req, parts⟩]
    holder := update net.holder block (some net.issued.length) }

def Net.setMem (net : Net T) (mem : Nat → Byte) : Net T := { net with mp := { net.mp with mem } }

/-- `sqes` is how many submission entries are free. An entry that was taken before the
pool refuses is never prepared, and nothing is posted for it. -/
def netAsyncSend (net : Net T) (ch : Ch T) (txBuf size : Usz T) (sqes : Nat) : Option (Int × Net T) :=
  if sqes = 0 then some (-1, net)
  else do
    let (req, mp) ← mpCalloc net.mp (sizeofAsyncReq T)
    let net := { net with mp }
    if req = 0 then return (-mealloc, net)
    else
      let r : AsyncReq T := ⟨ch.addr, txBuf, size, ch.fSendCb⟩
      let net := net.setMem (storeReq net.mp.mem req r)
      return (size.toInt, net.issue req r 1)

/-- A pair of linked operations. The second `io_uring_get_sqe` is not checked; `submitted`
is what `io_uring_submit` returns. -/
def netAsyncRecv (net : Net T) (ch : Ch T) (rxBuf cap : Usz T) (sqes : Nat) (submitted : Int) :
    Option (Int × Net T) := do
  let (req, mp) ← mpCalloc net.mp (sizeofAsyncReq T)
  let net := { net with mp }
  if req = 0 then return (-mealloc, net)
  else
    let r : AsyncReq T := ⟨ch.addr, rxBuf, cap, ch.fRecvCb⟩
    let net := net.setMem (storeReq net.mp.mem req r)
    if sqes = 0 then return (-1, net.issue req r 0)
    else if sqes = 1 then none
    else return (submitted, net.issue req r 2)

/-- The environment posts the completion of an operation. -/
def post (net : Net T) (k : Nat) (res : Int) : Net T :=
  match net.ops[k]? with
  | none => net
  | some op => { net with ops := net.ops.eraseIdx k, cq := net.cq ++ [⟨op.data, res, op.origin⟩] }

/-- The next part of the loop of `net_poll`, which ends when there is no completion. -/
def netPoll (net : Net T) : Option (Net T) :=
  match net.cq with
  | [] => some net
  | cqe :: cq =>
      match net.pc with
      | .peek =>
          if cqe.data = 0 then some { net with pc := .seen }
          else
            let processed := net.mp.mem (processedAt cqe.data)
            let net := net.setMem (write net.mp.mem (processedAt cqe.data) [1])
            if processed = 0 then some { net with pc := .call } else some { net with pc := .seen }
      | .call =>
          let call : Call T := ⟨loadReq net.mp.mem cqe.data, cqe.res, net.holder cqe.data, cqe.origin⟩
          some { net with calls := net.calls ++ [call], pc := .free }
      | .free => do
          let mp ← mpFree net.mp cqe.data
          return { net with mp, frees := net.frees ++ [⟨cqe.data, net.holder cqe.data, cqe.origin⟩], pc := .seen }
      | .seen => some { net with cq, pc := .peek }

inductive NetAct (T : Target) where
  | send (ch : Ch T) (txBuf size : Usz T) (sqes : Nat)
  | recv (ch : Ch T) (rxBuf cap : Usz T) (sqes : Nat) (submitted : Int)
  | post (k : Nat) (res : Int)
  | poll

def netStep (act : NetAct T) (net : Net T) : Option (Net T) :=
  match act with
  | .send ch txBuf size sqes => (netAsyncSend net ch txBuf size sqes).map Prod.snd
  | .recv ch rxBuf cap sqes submitted => (netAsyncRecv net ch rxBuf cap sqes submitted).map Prod.snd
  | .post k res => some (post net k res)
  | .poll => netPoll net

def netStart (addr : Usz T) (mem : Nat → Byte) : Net T :=
  ⟨mpInit ⟨addr, mem, 0, 0⟩, [], [], .peek, [], fun _ => none, [], []⟩

/-- The requests whose callback has run. -/
def Net.called (net : Net T) : List Nat := net.calls.filterMap Call.owner

/-- The requests whose block has been freed. -/
def Net.freed (net : Net T) : List Nat := net.frees.filterMap Release.owner

/-- The completions of a request that `net_poll` has not passed. -/
def Net.owed (net : Net T) (i : Nat) : Nat :=
  net.ops.countP (fun op => op.origin = i) + net.cq.countP fun cqe => cqe.origin = i

end AvaModule.Comm
