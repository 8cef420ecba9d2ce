import AvaModule.Comm.Net.Poll
import AvaModule.Lib.Transition

/-! Runs of submissions, completions and `net_poll`. -/
namespace AvaModule.Comm
open ListHead Memory MemPool Transition

variable {T : Target} {s : Net T} {addr : Usz T} {mem : Nat → Byte} {act : NetAct T}

/-- A pair gets both of its entries, and the block that a completion names has not been
given to another request whose callback is still to come. -/
def NetOk (act : NetAct T) (s : Net T) : Prop :=
  match act with
  | .recv _ _ _ sqes _ => sqes ≠ 1
  | .poll => s.pc = .peek → ∀ cqe, s.cq.head? = some cqe →
      ∀ i, s.holder cqe.data = some i → i = cqe.origin ∨ i ∈ s.called
  | .send .. | .post .. => True

/-- Each request is called and freed at most once, for a completion of its own, and both
are done once `net_poll` has passed one of them. Requests that are not freed hold different
blocks. -/
structure Served (s : Net T) : Prop extends Records s where
  passed : ∀ i r, s.issued[i]? = some r → s.owed i < r.parts → i ∈ s.called ∧ i ∈ s.freed
  apart : ∀ i j r r', s.issued[i]? = some r → s.issued[j]? = some r' → i ∉ s.freed → j ∉ s.freed →
    r.block = r'.block → i = j

theorem NetInv.served (inv : NetInv s) : Served s := by
  obtain ⟨held, slots, inv, queues, records, _⟩ := inv
  refine ⟨records, ?_, ?_⟩
  · intro i r found less
    have done := queues.passed i r found less
    exact ⟨records.freed_called done, done⟩
  · exact fun i j r r' found found' kept kept' same => inv.distinct found kept found' kept' same

theorem NetInv.start (addr : Usz T) (mem : Nat → Byte) (room : bufAddr addr + mpSize < T.modulus) :
    NetInv (netStart addr mem) := by
  have zero : (0 : Usz T).toNat = 0 := BitVec.toNat_zero
  have pool : PoolInv (mpInit ⟨addr, mem, 0, 0⟩) [] := by
    refine ⟨⟨room, zero.symm, ?_, nofun⟩, nofun, listInit_ring, nofun, rfl⟩
    rw [mpInit, zero]
    exact Nat.zero_le _
  refine ⟨[], [], ⟨⟨[], pool, nofun, .nil, rfl⟩, ?_, nofun, nofun, nofun, nofun, nofun, nofun⟩,
    ⟨nofun, nofun, nofun, nofun⟩, ⟨nofun, .nil, nofun, .nil⟩, nofun⟩
  intro p
  constructor
  · exact nofun
  · rintro ⟨_, _, none, _⟩
    exact nomatch none

theorem NetInv.poll (inv : NetInv s) (ok : NetOk .poll s) : ∃ t, netPoll s = some t ∧ NetInv t := by
  have whole := inv
  obtain ⟨held, slots, inv, queues, records, phase⟩ := inv
  cases cq : s.cq with
  | nil => exact ⟨s, by simp only [netPoll, cq], whole⟩
  | cons cqe rest =>
    cases pc : s.pc with
    | peek => exact NetInv.peek inv queues records phase pc cq (ok pc cqe (by simp [cq]))
    | call => exact NetInv.call inv queues records phase pc cq
    | free => exact NetInv.free inv queues records phase pc cq
    | seen => exact NetInv.seen inv queues records phase pc cq

theorem NetInv.step (inv : NetInv s) (ok : NetOk act s) : ∃ t, netStep act s = some t ∧ NetInv t := by
  cases act with
  | send ch txBuf size sqes =>
    obtain ⟨ret, t, run, inv'⟩ := inv.send ch txBuf size sqes
    exact ⟨t, by simp only [netStep, run, Option.map_some], inv'⟩
  | recv ch rxBuf cap sqes ret =>
    obtain ⟨ret', t, run, inv'⟩ := inv.recv ch rxBuf cap ok ret
    exact ⟨t, by simp only [netStep, run, Option.map_some], inv'⟩
  | post k res => exact ⟨Comm.post s k res, rfl, inv.post k res⟩
  | poll => exact inv.poll ok

/-- Whatever is submitted, posted and polled, in whatever order, every request is served
by its own completions. -/
theorem runs_served {acts : List (NetAct T)} (room : bufAddr addr + mpSize < T.modulus)
    (admits : Admits netStep NetOk acts (netStart addr mem)) :
    ∃ s, runs netStep acts (netStart addr mem) = some s ∧ Served s := by
  obtain ⟨s, run, inv⟩ := runs_total (fun inv ok => NetInv.step inv ok) (NetInv.start addr mem room) admits
  exact ⟨s, run, inv.served⟩

section Stale

def chA : Ch .host := ⟨0x100, 0x10, 0x20⟩

def chB : Ch .host := ⟨0x200, 0x30, 0x40⟩

/-- The pool at `0x1000` after its first request. -/
def firstMp : Mp .host where
  addr := 0x1000
  mem := write (setSize (listInit (fun _ => 0) (0x1000 : Usz .host)) (0x1010 : Usz .host) 64) 0x1028 (List.replicate 40 0)
  off := 64
  lock := 0

def firstNet : Net .host :=
  submitted (netStart 0x1000 fun _ => 0) firstMp 0x1028 ⟨chA.addr, 0x500, 16, chA.fRecvCb⟩ 2

theorem calloc_fresh : mpCalloc (netStart (0x1000 : Usz .host) fun _ => 0).mp (sizeofAsyncReq .host) =
    some (0x1028, firstMp) := by
  have empty : scan (listInit (fun _ => 0) (0x1000 : Usz .host)) 0x1000 (headerSize .host + alignUp (sizeofAsyncReq .host))
      (nextOf (listInit (fun _ => 0) (0x1000 : Usz .host)) 0x1000) = some none := by
    rw [scan_turn]
    exact if_pos (by decide)
  simp only [mpCalloc, mpAlloc, netStart, mpInit, spinLock, Mp.root, if_true, Option.bind_eq_bind, Option.bind_some, empty]
  rfl

theorem recv_fresh : netStep (.recv chA 0x500 16 2 2) (netStart 0x1000 fun _ => 0) = some firstNet := by
  simp only [netStep, netAsyncRecv, calloc_fresh, Option.bind_eq_bind, Option.bind_some]
  rfl

variable {m : Nat → Byte}

theorem free_only (next : nextOf m (0x1000 : Usz .host) = 0x1000) (prev : prevOf m (0x1000 : Usz .host) = 0x1000)
    (off : Usz .host) :
    mpFree ⟨0x1000, m, off, 0⟩ 0x1028 = some ⟨0x1000, listAddBetween m (0x1010 : Usz .host) 0x1000 0x1000, off, 0⟩ := by
  have place : seek m (0x1000 : Usz .host) 0x1010 0x1000 = some 0x1000 := by
    rw [seek_turn]
    exact if_neg (by decide)
  have insert : insertByAddr m (0x1000 : Usz .host) 0x1010 =
      some (listAddBetween m (0x1010 : Usz .host) 0x1000 0x1000) := by
    simp only [insertByAddr, next, place, prev, Option.bind_eq_bind, Option.bind_some]
    rfl
  rw [mpFree, if_neg (by decide)]
  change (spinLock _).bind _ = _
  rw [spinLock, if_pos rfl]
  change (insertByAddr m 0x1000 0x1010).bind _ = _
  rw [insert]
  rfl

theorem calloc_again (next : nextOf m (0x1000 : Usz .host) = 0x1010) (size : sizeOf m (0x1010 : Usz .host) = 64)
    (off : Usz .host) :
    mpCalloc ⟨0x1000, m, off, 0⟩ (sizeofAsyncReq .host) =
      some (0x1028, ⟨0x1000, write (listDel m (0x1010 : Usz .host)) 0x1028 (List.replicate 40 0), off, 0⟩) := by
  have found : scan m (0x1000 : Usz .host) (headerSize .host + alignUp (sizeofAsyncReq .host)) 0x1010 =
      some (some 0x1010) := by
    rw [scan_turn, if_neg (by decide), size]
    exact if_neg (by decide)
  have whole : takeBlock m (0x1000 : Usz .host) 0x1010 (headerSize .host + alignUp (sizeofAsyncReq .host)) =
      some (listDel m (0x1010 : Usz .host)) := by
    rw [takeBlock, size]
    exact if_neg (by decide)
  simp only [mpCalloc, mpAlloc, spinLock, Mp.root, if_true, Option.bind_eq_bind, Option.bind_some, next, found, whole]
  rfl

/-- The memory once the first completion is taken, and once the block is free again. -/
def takenMem : Nat → Byte := write firstNet.mp.mem (processedAt (0x1028 : Usz .host)) [1]

def freedMem : Nat → Byte := listAddBetween takenMem (0x1010 : Usz .host) 0x1000 0x1000

/-- The first request before its block is freed. -/
def calledNet : Net .host := { firstNet with
  mp := { firstMp with mem := takenMem }, ops := [⟨0x1028, 0⟩], cq := [⟨0x1028, 16, 0⟩], pc := .free
  calls := [⟨loadReq takenMem (0x1028 : Usz .host), 16, some 0, 0⟩] }

/-- And after it, with its second completion still to come. -/
def freedNet : Net .host := { calledNet with
  mp := { firstMp with mem := freedMem }, cq := [], pc := .peek, frees := [⟨0x1028, some 0, 0⟩] }

theorem poll_taken : netPoll (post firstNet 0 16) = some (Net.setMem { post firstNet 0 16 with pc := .call } takenMem) := by
  have clear : firstNet.mp.mem (processedAt (0x1028 : Usz .host)) = 0 := by decide +kernel
  rw [@netPoll_peek .host (post firstNet 0 16) ⟨0x1028, 16, 0⟩ [] rfl rfl (by decide)]
  change some (Net.setMem { post firstNet 0 16 with
    pc := if firstNet.mp.mem (processedAt (0x1028 : Usz .host)) = 0 then .call else .seen } takenMem) = _
  rw [if_pos clear]

theorem poll_freed : netPoll calledNet = some { calledNet with
    mp := { firstMp with mem := freedMem }, frees := [⟨0x1028, some 0, 0⟩], pc := .seen } := by
  have next : nextOf takenMem (0x1000 : Usz .host) = 0x1000 := by decide +kernel
  have prev : prevOf takenMem (0x1000 : Usz .host) = 0x1000 := by decide +kernel
  rw [@netPoll_free .host calledNet ⟨0x1028, 16, 0⟩ [] rfl rfl]
  change (mpFree ⟨0x1000, takenMem, 64, 0⟩ 0x1028).map _ = _
  rw [free_only next prev]
  rfl

/-- The request is passed over when its second completion comes. -/
theorem poll_passed : netPoll (post freedNet 0 (-62)) = some (Net.setMem { post freedNet 0 (-62) with pc := .seen }
    (write freedMem (processedAt (0x1028 : Usz .host)) [1])) := by
  have set : freedMem (processedAt (0x1028 : Usz .host)) ≠ 0 := by decide +kernel
  rw [@netPoll_peek .host (post freedNet 0 (-62)) ⟨0x1028, -62, 0⟩ [] rfl rfl (by decide)]
  change some (Net.setMem { post freedNet 0 (-62) with
    pc := if freedMem (processedAt (0x1028 : Usz .host)) = 0 then .call else .seen } _) = _
  rw [if_neg set]
  rfl

/-- A request and both of its completions. -/
def pairActs : List (NetAct .host) :=
  [.recv chA 0x500 16 2 2, .post 0 16, .poll, .poll, .poll, .poll, .post 0 (-62), .poll, .poll]

theorem runs_served_pair : ∃ s : Net .host, runs netStep pairActs (netStart 0x1000 fun _ => 0) = some s ∧ Served s := by
  apply runs_served (by decide)
  have own : ∀ {s : Net .host} {res : Int}, s.cq.head? = some ⟨0x1028, res, 0⟩ → s.holder 0x1028 = some 0 →
      NetOk .poll s := by
    rintro s res head last - cqe found i holder
    obtain rfl : (⟨0x1028, res, 0⟩ : Cqe .host) = cqe := Option.some.inj (head.symm.trans found)
    exact .inl (Option.some.inj (last.symm.trans holder)).symm
  refine .cons (by decide : (2 : Nat) ≠ 1) recv_fresh (.cons trivial rfl ?_)
  refine .cons (own rfl rfl) poll_taken (.cons nofun rfl ?_)
  refine .cons nofun poll_freed (.cons nofun rfl (.cons trivial rfl ?_))
  exact .cons (own rfl rfl) poll_passed (.cons nofun rfl trivial)

/-- The second completion of the first request is posted when its block is given to
another. -/
def staleActs : List (NetAct .host) :=
  [.recv chA 0x500 16 2 2, .post 0 16, .poll, .poll, .poll, .poll, .recv chB 0x600 16 2 2, .post 0 (-62), .poll, .poll]

/-- The second completion of a request is taken for the request that got its block. -/
theorem stale_completion :
    ∃ s, runs netStep staleActs (netStart (0x1000 : Usz .host) fun _ => 0) = some s ∧ ¬Served s := by
  let reqB : AsyncReq .host := ⟨chB.addr, 0x600, 16, chB.fRecvCb⟩
  let mp₄ : Mp .host := ⟨0x1000, write (listDel freedMem (0x1010 : Usz .host)) 0x1028 (List.replicate 40 0), 64, 0⟩
  have next₃ : nextOf freedMem (0x1000 : Usz .host) = 0x1010 := by decide +kernel
  have size₃ : sizeOf freedMem (0x1010 : Usz .host) = 64 := by decide +kernel
  let s₄ := submitted freedNet mp₄ 0x1028 reqB 2
  have polls₂ : runs netStep [.post 0 16, .poll, .poll] firstNet = some calledNet := by
    simp only [runs, netStep, Option.bind_some, poll_taken]
    rfl
  have free₃ : runs netStep [.poll, .poll] calledNet = some freedNet := by
    simp only [runs, netStep, Option.bind_some, poll_freed]
    rfl
  have recv₄ : netStep (.recv chB 0x600 16 2 2) freedNet = some s₄ := by
    have given : mpCalloc freedNet.mp (sizeofAsyncReq .host) = some (0x1028, mp₄) := calloc_again next₃ size₃ 64
    simp only [netStep, netAsyncRecv, given, Option.bind_eq_bind, Option.bind_some]
    rfl
  have clear₄ : s₄.mp.mem (processedAt (0x1028 : Usz .host)) = 0 := by decide +kernel
  obtain ⟨s₅, polls₅, stale⟩ : ∃ s₅, runs netStep [.post 0 (-62), .poll, .poll] s₄ = some s₅ ∧
      ∃ c ∈ s₅.calls, c.owner = some 1 ∧ c.cause = 0 := by
    have taken : netPoll (post s₄ 0 (-62)) = some (Net.setMem { post s₄ 0 (-62) with pc := .call }
        (write s₄.mp.mem (processedAt (0x1028 : Usz .host)) [1])) := by
      rw [@netPoll_peek .host (post s₄ 0 (-62)) ⟨0x1028, -62, 0⟩ [] rfl rfl (by decide)]
      change some (Net.setMem { post s₄ 0 (-62) with
        pc := if s₄.mp.mem (processedAt (0x1028 : Usz .host)) = 0 then .call else .seen } _) = _
      rw [if_pos clear₄]
      rfl
    simp only [runs, netStep, Option.bind_some, taken]
    exact ⟨_, rfl, _, List.mem_append_right _ List.mem_cons_self, rfl, rfl⟩
  refine ⟨s₅, ?_, ?_⟩
  · have parts : staleActs = [.recv chA 0x500 16 2 2] ++ ([.post 0 16, .poll, .poll] ++ ([.poll, .poll] ++
        ([.recv chB 0x600 16 2 2] ++ [.post 0 (-62), .poll, .poll]))) := rfl
    have one : ∀ {act : NetAct .host} {s t}, netStep act s = some t → runs netStep [act] s = some t := by
      intro act s t step
      rw [runs, step]
      rfl
    rw [parts, runs_append, one recv_fresh, Option.bind_some, runs_append, polls₂, Option.bind_some, runs_append, free₃,
      Option.bind_some, runs_append, one recv₄, Option.bind_some, polls₅]
  · intro served
    obtain ⟨c, member, owner, cause⟩ := stale
    have own := (served.calls c member).1
    rw [owner, cause] at own
    cases own

end Stale

end AvaModule.Comm
