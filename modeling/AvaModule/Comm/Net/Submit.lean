import AvaModule.Comm.Net.Model
import AvaModule.Ds.Mp.Served

/-! What a failed `net_async_send` or `net_async_recv` leaves behind in the pool and in the
submission queue. An entry is handed out as it stands, and the next `io_uring_submit` takes it as
it stands then. A call that prepares a null entry has the value `none`. -/
namespace AvaModule.Comm.Submit
open ListHead Memory MemPool Transition

variable {T : Target}

inductive Opcode where
  | nop
  | send
  | recv
  | linkTimeout
  deriving DecidableEq

/-- The parts of `io_uring_sqe` that the calls set. `link` is `IOSQE_IO_LINK`. -/
structure Sqe (T : Target) where
  opcode : Opcode
  fd : BitVec 32
  addr : Usz T
  len : BitVec 32
  link : Bool
  userData : Usz T

/-- The free entries with what was in them last, and those that the next submission takes. -/
structure Sq (T : Target) where
  free : List (Sqe T)
  pending : List (Sqe T)

/-- `io_uring_get_sqe`. An entry is known by its place among those pending. -/
def getSqe (sq : Sq T) : Option Nat × Sq T :=
  match sq.free with
  | [] => (none, sq)
  | sqe :: free => (some sq.pending.length, ⟨free, sq.pending ++ [sqe]⟩)

def Sq.modify (sq : Sq T) (k : Nat) (f : Sqe T → Sqe T) : Sq T := { sq with pending := sq.pending.modify k f }

def prepSend (fd : BitVec 32) (buf size : Usz T) (sqe : Sqe T) : Sqe T :=
  { sqe with opcode := .send, fd, addr := buf, len := size.setWidth 32, link := false }

def prepRecv (fd : BitVec 32) (buf cap : Usz T) (sqe : Sqe T) : Sqe T :=
  { sqe with opcode := .recv, fd, addr := buf, len := cap.setWidth 32, link := false }

def prepLinkTimeout (ts : Usz T) (sqe : Sqe T) : Sqe T :=
  { sqe with opcode := .linkTimeout, fd := -1, addr := ts, len := 1, link := false }

def setData (req : Usz T) (sqe : Sqe T) : Sqe T := { sqe with userData := req }

def setLink (sqe : Sqe T) : Sqe T := { sqe with link := true }

/-- `io_uring_submit`, which returns how many entries were taken, or an error. -/
def submit (submitted : Int) (sq : Sq T) : Sq T :=
  ⟨sq.free ++ sq.pending.take submitted.toNat, sq.pending.drop submitted.toNat⟩

structure AsyncNet (T : Target) where
  pool : Pool T
  sq : Sq T

/-- A channel with its socket. -/
structure SockCh (T : Target) extends Ch T where
  fd : BitVec 32

def fillReq (pool : Pool T) (req : Usz T) (r : AsyncReq T) : Pool T :=
  { pool with mp := { pool.mp with mem := storeReq pool.mp.mem req r } }

/-- `submitted` is what `io_uring_submit` returns. -/
def netAsyncSend (net : AsyncNet T) (ch : SockCh T) (txBuf size : Usz T) (submitted : Int) : Option (Int × AsyncNet T) :=
  match getSqe net.sq with
  | (none, _) => some (-1, net)
  | (some sendSqe, sq) => do
      let (req, mp) ← mpCalloc net.pool.mp (sizeofAsyncReq T)
      let pool := net.pool.given (sizeofAsyncReq T) (req, mp)
      if req = 0 then return (-mealloc, ⟨pool, sq⟩)
      else
        let pool := fillReq pool req ⟨ch.addr, txBuf, size, ch.fSendCb⟩
        let sq := sq.modify sendSqe (prepSend ch.fd txBuf size)
        let sq := sq.modify sendSqe (setData req)
        return (size.toInt, ⟨pool, submit submitted sq⟩)

/-- `ts` is the address of the local time span that the second entry points to. -/
def netAsyncRecv (net : AsyncNet T) (ch : SockCh T) (rxBuf cap ts : Usz T) (submitted : Int) :
    Option (Int × AsyncNet T) := do
  let (req, mp) ← mpCalloc net.pool.mp (sizeofAsyncReq T)
  let pool := net.pool.given (sizeofAsyncReq T) (req, mp)
  if req = 0 then return (-mealloc, ⟨pool, net.sq⟩)
  else
    let pool := fillReq pool req ⟨ch.addr, rxBuf, cap, ch.fRecvCb⟩
    match getSqe net.sq with
    | (none, sq) => return (-1, ⟨pool, sq⟩)
    | (some recvSqe, sq) =>
        let sq := sq.modify recvSqe (prepRecv ch.fd rxBuf cap)
        let sq := sq.modify recvSqe (setData req)
        let sq := sq.modify recvSqe setLink
        match getSqe sq with
        | (none, _) => none
        | (some timeoutSqe, sq) =>
            let sq := sq.modify timeoutSqe (prepLinkTimeout ts)
            let sq := sq.modify timeoutSqe (setData req)
            return (submitted, ⟨pool, submit submitted sq⟩)

/-- No null entry is prepared, and a negative result leaves the blocks that are given out and the
entries to be taken next as they were. -/
def AsyncRight (net : AsyncNet T) (result : Option (Int × AsyncNet T)) : Prop :=
  ∃ ret net', result = some (ret, net') ∧
    (ret < 0 → net'.pool.live.Perm net.pool.live ∧ net'.sq.pending = net.sq.pending)

variable {net net' : AsyncNet T} {ret submitted : Int} {blks : List (Blk T)} {ch : SockCh T} {buf size ts : Usz T}

section Calls

/-- A negative result after a block has been taken. -/
theorem right_taken {x : Usz T × Usz T} (grown : net'.pool.live = x :: net.pool.live) :
    AsyncRight net (some (ret, net')) ↔ 0 ≤ ret := by
  constructor
  · rintro ⟨ret', net'', same, kept⟩
    cases same
    by_contra negative
    have length := (kept (by omega)).1.length_eq
    rw [grown, List.length_cons] at length
    omega
  · intro nonneg
    exact ⟨ret, net', rfl, fun negative => by omega⟩

theorem right_same (pool : net'.pool.live = net.pool.live) (sq : net'.sq.pending = net.sq.pending) :
    AsyncRight net (some (ret, net')) :=
  ⟨ret, net', rfl, fun _ => ⟨.of_eq pool, sq⟩⟩

theorem req_len : blockLen (sizeofAsyncReq T) ≤ mpSize := by cases T <;> decide

theorem send_right (inv : PoolInv net.pool.mp blks) : AsyncRight net (netAsyncSend net ch buf size submitted) ↔
    net.sq.free = [] ∨ Serves net.pool.mp blks (sizeofAsyncReq T) ∧ 0 ≤ size.toInt := by
  obtain ⟨req, mp, run, served⟩ := inv.served_zeroed req_len
  cases free : net.sq.free with
  | nil =>
    have call : netAsyncSend net ch buf size submitted = some (-1, net) := by
      simp only [netAsyncSend, getSqe, free]
    rw [call]
    exact iff_of_true (right_same rfl rfl) (.inl rfl)
  | cons sqe later =>
    simp only [netAsyncSend, getSqe, free, run, Option.bind_eq_bind, Option.bind_some]
    by_cases none : req = 0
    · -- The entry that was taken goes out as it is.
      rw [if_pos none]
      refine iff_of_false ?_ ?_
      · rintro ⟨ret, net', same, kept⟩
        cases same
        have length := congrArg List.length (kept (by decide)).2
        simp at length
      · rintro (nil | ⟨serves, _⟩)
        · cases nil
        · exact absurd none (served.mpr serves)
    · rw [if_neg none]
      refine (right_taken (Pool.given_some none)).trans ?_
      simp [served.mp none]

theorem recv_right (inv : PoolInv net.pool.mp blks) : AsyncRight net (netAsyncRecv net ch buf size ts submitted) ↔
    ¬Serves net.pool.mp blks (sizeofAsyncReq T) ∨ 2 ≤ net.sq.free.length ∧ 0 ≤ submitted := by
  obtain ⟨req, mp, run, served⟩ := inv.served_zeroed req_len
  simp only [netAsyncRecv, run, Option.bind_eq_bind, Option.bind_some]
  by_cases none : req = 0
  · subst none
    rw [if_pos rfl]
    exact iff_of_true (right_same Pool.given_none rfl) (.inl fun serves => served.mpr serves rfl)
  · rw [if_neg none]
    have serves := served.mp none
    cases free : net.sq.free with
    | nil =>
      -- The block is never given back.
      simp only [getSqe, free]
      refine (right_taken (Pool.given_some none)).trans ?_
      simp [serves]
    | cons sqe later =>
      cases rest : later with
      | nil =>
        simp only [getSqe, free, rest, Sq.modify]
        refine iff_of_false ?_ ?_
        · rintro ⟨ret, net', same, _⟩
          cases same
        · simp [serves]
      | cons sqe' later' =>
        simp only [getSqe, free, rest, Sq.modify]
        refine (right_taken (Pool.given_some none)).trans ?_
        simp [serves]

end Calls

section Coarse
variable {coarse : Net T}

/-- The results, with the pools, as in the model that only counts the free entries. -/
theorem send_coarse (same : coarse.mp = net.pool.mp) :
    (netAsyncSend net ch buf size submitted).map (fun result => (result.1, result.2.pool.mp)) =
      (Comm.netAsyncSend coarse ch.toCh buf size net.sq.free.length).map fun result => (result.1, result.2.mp) := by
  cases free : net.sq.free with
  | nil => simp [netAsyncSend, Comm.netAsyncSend, getSqe, free, same]
  | cons sqe later =>
    simp only [netAsyncSend, Comm.netAsyncSend, getSqe, free, same, List.length_cons, Nat.succ_ne_zero, if_false]
    cases mpCalloc net.pool.mp (sizeofAsyncReq T) with
    | none => rfl
    | some result =>
      dsimp only [Option.bind_eq_bind, Option.bind_some]
      split <;> rfl

theorem recv_coarse (same : coarse.mp = net.pool.mp) :
    (netAsyncRecv net ch buf size ts submitted).map (fun result => (result.1, result.2.pool.mp)) =
      (Comm.netAsyncRecv coarse ch.toCh buf size net.sq.free.length submitted).map
        fun result => (result.1, result.2.mp) := by
  simp only [netAsyncRecv, Comm.netAsyncRecv, same]
  cases mpCalloc net.pool.mp (sizeofAsyncReq T) with
  | none => rfl
  | some result =>
    dsimp only [Option.bind_eq_bind, Option.bind_some]
    split
    · rfl
    · rcases free : net.sq.free with _ | ⟨sqe, _ | ⟨sqe', later⟩⟩
      · simp only [getSqe, free]
        rfl
      · simp only [getSqe, free, Sq.modify]
        rfl
      · simp only [getSqe, free, Sq.modify]
        rfl

end Coarse

/-- In every reachable pool and with any queue, the two calls do what they should exactly if the
first resource is refused, or all of them are there and the result is not negative. -/
theorem async_law {addr : Usz T} {acts : List (PoolAct T)} {mem : Nat → Byte} (room : bufAddr addr + mpSize < T.modulus)
    (admits : Admits poolStep Sound acts (poolStart addr mem)) :
    ∃ pool blks, runs poolStep acts (poolStart addr mem) = some pool ∧ TiledBy pool blks ∧
      ∀ (sq : Sq T) (ch : SockCh T) (buf size ts : Usz T) (submitted : Int),
        (AsyncRight ⟨pool, sq⟩ (netAsyncSend ⟨pool, sq⟩ ch buf size submitted) ↔
          sq.free = [] ∨ Serves pool.mp blks (sizeofAsyncReq T) ∧ 0 ≤ size.toInt) ∧
        (AsyncRight ⟨pool, sq⟩ (netAsyncRecv ⟨pool, sq⟩ ch buf size ts submitted) ↔
          ¬Serves pool.mp blks (sizeofAsyncReq T) ∨ 2 ≤ sq.free.length ∧ 0 ≤ submitted) := by
  obtain ⟨pool, run, ⟨blks, inv, live⟩, _⟩ := Kept.runs room admits
  exact ⟨pool, blks, run, inv.tiledBy live, fun sq ch buf size ts submitted => ⟨send_right inv, recv_right inv⟩⟩

theorem async_law_two : ∃ (pool : Pool .mcu) (blks : List (Blk .mcu)),
    runs poolStep [.alloc 20, .calloc 8, .free 0x1018] (poolStart 0x1000 fun _ => 0) = some pool ∧ TiledBy pool blks ∧
      ∀ (sq : Sq .mcu) (ch : SockCh .mcu) (buf size ts : Usz .mcu) (submitted : Int),
        (AsyncRight ⟨pool, sq⟩ (netAsyncSend ⟨pool, sq⟩ ch buf size submitted) ↔
          sq.free = [] ∨ Serves pool.mp blks (sizeofAsyncReq .mcu) ∧ 0 ≤ size.toInt) ∧
        (AsyncRight ⟨pool, sq⟩ (netAsyncRecv ⟨pool, sq⟩ ch buf size ts submitted) ↔
          ¬Serves pool.mp blks (sizeofAsyncReq .mcu) ∨ 2 ≤ sq.free.length ∧ 0 ≤ submitted) :=
  async_law (by decide) (RunInv.sound (.start 0x1000 (fun _ => 0) (by decide)) two_admitted)

/-- With no free entry `net_async_recv` fails and keeps its block. -/
theorem recv_leaks : ¬AsyncRight ⟨poolStart (0x1000 : Usz .host) fun _ => 0, ⟨[], []⟩⟩
    (netAsyncRecv ⟨poolStart 0x1000 fun _ => 0, ⟨[], []⟩⟩ ⟨⟨0x8000, 0x400, 0x500⟩, 3⟩ 0x9000 64 0xA000 2) := by
  have start : PoolInv (poolStart (0x1000 : Usz .host) fun _ => 0).mp [] := .start (by decide) rfl rfl
  rw [recv_right start]
  rintro (short | ⟨two, _⟩)
  · exact short (.inr (by decide))
  · exact absurd two (by decide)

end AvaModule.Comm.Submit
