import AvaModule.Lib.LittleEndian
import AvaModule.Lib.Loop
import AvaModule.Util.Typedef

/-! The synchronous calls of comm/net.h on Linux, and the log of `net_send` and `net_recv`. The
results of the socket calls, what they leave in a buffer and the readings of the clocks are
inputs. A call that never returns has the value `none`. -/
namespace AvaModule.Comm

variable {T : Target}

abbrev U32 := BitVec 32

abbrev U64 := BitVec 64

def metimeout : Int := 4

/-- `US2NS` of a `u32`, which is a `u32` again. -/
def us2ns (us : U32) : U32 := us * 1000

/-- `const int ret = recv(..)` -/
def recvInt (recv : Nat → Usz T) (i : Nat) : Int := ((recv i).signExtend 32).toInt

/-- The loop of `net_sync_recv_spin`, with the `recv` calls in their order. The first reading
of the clock is taken before the loop. -/
def spin (deadline : U64) (recv : Nat → Usz T) (clock : Nat → U64) : Loop (Nat × U64) (Int × Nat) where
  turn := fun (i, currNs) =>
    if currNs < deadline then
      if recvInt recv i > 0 then some (.done (recvInt recv i, i)) else some (.next (i + 1, clock (i + 1)))
    else some (.done (-metimeout, i))

/-- The result, with the number of turns before the last for the record. -/
def netSyncRecvSpin (timeoutUs : U32) (recv : Nat → Usz T) (clock : Nat → U64) : Option (Int × Nat) :=
  (spin (clock 0 + (us2ns timeoutUs).setWidth 64) recv clock).run (0, 0)

inductive NetMode where
  | syncYield
  | syncSpin
  deriving DecidableEq

inductive NetOp where
  | send
  | recv
  deriving DecidableEq

/-- The parts of `net_ch_t` that the synchronous calls read; `dst_ip` as `inet_addr` gives it. -/
structure SyncCh where
  eMode : NetMode
  dstIp : U32
  dstPort : BitVec 16

/-- `net_log_meta_t` -/
@[ext]
structure NetLogMeta where
  ts : U64
  eOp : NetOp
  dstIp : U32
  dstPort : BitVec 16
  size : U32
  deriving DecidableEq

def NetOp.toU32 : NetOp → U32
  | .send => 0
  | .recv => 1

open LittleEndian (encode)

/-- The packed record. -/
def NetLogMeta.bytes (m : NetLogMeta) : List Byte :=
  encode 8 m.ts.toNat ++ encode 4 m.eOp.toU32.toNat ++ encode 4 m.dstIp.toNat ++ encode 2 m.dstPort.toNat ++
    encode 4 m.size.toNat

def sizeofNetLogMeta : Nat := 22

/-- A call of `f_flush`: what it finds from its pointer on, and the length. `room` is the size
of the buffer, kept for the record. -/
structure Flush (T : Target) where
  src : Nat → Byte
  len : Usz T
  room : Nat

/-- What is written out. -/
def Flush.bytes (flush : Flush T) : List Byte := (List.range flush.len.toNat).map flush.src

/-- The two calls of `f_flush` after an operation: `ret` is its result, an `isz`. -/
def flushes (ch : SyncCh) (ts : U64) (eOp : NetOp) (buf : Nat → Byte) (room ret : Usz T) : List (Flush T) :=
  let logMeta : NetLogMeta := ⟨ts, eOp, ch.dstIp, ch.dstPort, ret.signExtend 32⟩
  [⟨fun i => logMeta.bytes.getD i 0, BitVec.ofNat _ sizeofNetLogMeta, sizeofNetLogMeta⟩, ⟨buf, ret, room.toNat⟩]

/-- `ret` is the result of `send`. -/
def netSend (ch : SyncCh) (txBuf : Nat → Byte) (size ret : Usz T) (ts : U64) : Usz T × List (Flush T) :=
  match ch.eMode with
  | .syncSpin | .syncYield => (ret, flushes ch ts .send txBuf size ret)

/-- In the mode YIELD there is one `recv`. `rxBuf` is the buffer after the call. -/
def netRecv (ch : SyncCh) (rxBuf : Nat → Byte) (cap : Usz T) (timeoutUs : U32) (recv : Nat → Usz T)
    (clock : Nat → U64) (ts : U64) : Option (Usz T × List (Flush T)) :=
  match ch.eMode with
  | .syncYield => some (recv 0, flushes ch ts .recv rxBuf cap (recv 0))
  | .syncSpin => do
      let (ret, _) ← netSyncRecvSpin timeoutUs recv clock
      let rxSize := BitVec.ofInt T.bits ret
      return (rxSize, flushes ch ts .recv rxBuf cap rxSize)

end AvaModule.Comm
