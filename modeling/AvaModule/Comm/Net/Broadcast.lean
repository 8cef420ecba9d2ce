import AvaModule.Comm.Net.Sync
import AvaModule.Lib.Memory
import Mathlib.Logic.Function.Basic
import Mathlib.Tactic.ByContra

/-! `net_broadcast`, which gathers the answers until its time is over. What `sendto` and
`recvfrom` give and the readings of the clock are inputs. -/
namespace AvaModule.Comm
open Function Memory

variable {T : Target} {rx : Nat → Option Datagram} {clock : Nat → U64} {timeoutUs : U32} {resps : Nat → Resp}
  {sendRet : Int} {n : Nat}

def maxIpNum : Nat := 255

def maxRespBufSize : Nat := 1024

/-- An IPv4 address. -/
structure InAddr where
  a : Byte
  b : Byte
  c : Byte
  d : Byte

/-- `inet_ntop` -/
def inetNtop (addr : InAddr) : String :=
  ".".intercalate [toString addr.a.toNat, toString addr.b.toNat, toString addr.c.toNat, toString addr.d.toNat]

/-- What a `recvfrom` with a positive result takes from the socket. -/
structure Datagram where
  addr : InAddr
  data : List Byte
  nonempty : data ≠ []

/-- `net_resp_t` -/
structure Resp where
  ip : String
  buf : Nat → Byte

/-- A datagram in an entry, cut where `buf` ends. -/
def Resp.fill (resp : Resp) (datagram : Datagram) : Resp :=
  ⟨inetNtop datagram.addr, write resp.buf 0 (datagram.data.take maxRespBufSize)⟩

/-- The array of the caller with what lies behind it, and the places that were written to, for
the record. -/
structure Gather where
  tries : Nat
  respCnt : Nat
  resps : Nat → Resp
  stored : List Nat

def Gather.receive (g : Gather) : Option Datagram → Gather
  | some datagram =>
      ⟨g.tries + 1, g.respCnt + 1, update g.resps g.respCnt ((g.resps g.respCnt).fill datagram), g.stored ++ [g.respCnt]⟩
  | none => { g with tries := g.tries + 1 }

/-- The condition of the loop with the `i`-th reading; `begin_ts` is an `usz`. -/
def Going (T : Target) (clock : Nat → U64) (timeoutUs : U32) (i : Nat) : Prop :=
  let beginTs : Usz T := (clock 0).setWidth T.bits
  clock i - beginTs.setWidth 64 < timeoutUs.setWidth 64

instance (i : Nat) : Decidable (Going T clock timeoutUs i) := inferInstanceAs (Decidable (_ < _))

def gathering (T : Target) (rx : Nat → Option Datagram) (clock : Nat → U64) (timeoutUs : U32) : Loop Gather Gather where
  turn := fun g =>
    let g := g.receive (rx g.tries)
    if Going T clock timeoutUs g.tries then some (.next g) else some (.done g)

/-- `sendRet` is the result of `sendto`. -/
def netBroadcast (T : Target) (sendRet : Int) (rx : Nat → Option Datagram) (clock : Nat → U64) (timeoutUs : U32)
    (resps : Nat → Resp) : Option (Int × Gather) :=
  if sendRet ≤ 0 then some (sendRet, ⟨0, 0, resps, []⟩)
  else do
    let g ← (gathering T rx clock timeoutUs).run ⟨0, 0, resps, []⟩
    return (g.respCnt, g)

section Gathered

/-- The datagrams of the first attempts. -/
def received (rx : Nat → Option Datagram) (n : Nat) : List Datagram := (List.range n).filterMap rx

theorem received_succ (rx : Nat → Option Datagram) (n : Nat) :
    received rx (n + 1) = received rx n ++ (rx n).toList := by
  rw [received, List.range_succ, List.filterMap_append]
  cases next : rx n <;> simp [received, next]

theorem received_const (datagram : Datagram) (n : Nat) :
    received (fun _ => some datagram) n = List.replicate n datagram := by
  induction n with
  | zero => rfl
  | succ n ih =>
    rw [received_succ, ih, List.replicate_succ']
    rfl

theorem received_prefix {m : Nat} (le : m ≤ n) : received rx m <+: received rx n := by
  obtain ⟨k, rfl⟩ := Nat.exists_eq_add_of_le le
  rw [received, received, List.range_add, List.filterMap_append]
  exact List.prefix_append _ _

/-- The entry shows the address and the whole of the data. -/
def Holds (resp : Resp) (datagram : Datagram) : Prop :=
  resp.ip = inetNtop datagram.addr ∧ datagram.data <+: read resp.buf 0 maxRespBufSize

theorem fill_holds (resp : Resp) (datagram : Datagram) :
    Holds (resp.fill datagram) datagram ↔ datagram.data.length ≤ maxRespBufSize := by
  constructor
  · rintro ⟨_, whole⟩
    have length := whole.length_le
    rwa [read_length] at length
  · intro short
    refine ⟨rfl, List.prefix_iff_eq_take.mpr ?_⟩
    rw [read_take short, Resp.fill, List.take_of_length_le short, read_write]

/-- After some attempts, the datagrams lie one after another. -/
structure Gathered (rx : Nat → Option Datagram) (g : Gather) : Prop where
  count : g.respCnt = (received rx g.tries).length
  places : g.stored = List.range g.respCnt
  entries : ∀ k datagram, (received rx g.tries)[k]? = some datagram → ∃ resp : Resp, g.resps k = resp.fill datagram

theorem Gathered.receive {g : Gather} (gathered : Gathered rx g) : Gathered rx (g.receive (rx g.tries)) := by
  obtain ⟨count, places, entries⟩ := gathered
  have next := received_succ rx g.tries
  cases answer : rx g.tries with
  | none =>
    have same : received rx (g.tries + 1) = received rx g.tries := by simpa [answer] using next
    exact ⟨same ▸ count, places, same ▸ entries⟩
  | some datagram =>
    rw [answer, Option.toList_some] at next
    constructor
    · change g.respCnt + 1 = (received rx (g.tries + 1)).length
      rw [next, List.length_append, count]
      rfl
    · change g.stored ++ [g.respCnt] = _
      rw [places, ← List.range_succ]
      rfl
    · intro k other at_k
      change (received rx (g.tries + 1))[k]? = _ at at_k
      change ∃ resp : Resp, update g.resps g.respCnt _ k = _
      rw [next] at at_k
      by_cases last : k = g.respCnt
      · rw [last, count, List.getElem?_append_right (Nat.le_refl _), Nat.sub_self] at at_k
        obtain rfl : datagram = other := Option.some.inj at_k
        rw [last, update_self]
        exact ⟨_, rfl⟩
      · have before : k < (received rx g.tries).length := by
          have lt := (List.getElem?_eq_some_iff.mp at_k).1
          rw [List.length_append, List.length_singleton] at lt
          omega
        rw [update_of_ne last]
        rw [List.getElem?_append_left before] at at_k
        exact entries k other at_k

/-- As long as the time is not over, there is another attempt. -/
def Reached (T : Target) (clock : Nat → U64) (timeoutUs : U32) (n : Nat) : Prop :=
  ∀ i, 0 < i → i < n → Going T clock timeoutUs i

theorem gathering_run {g : Gather} (gathered : Gathered rx g) (reached : Reached T clock timeoutUs (g.tries + 1))
    (over' : ∃ i, g.tries < i ∧ ¬Going T clock timeoutUs i) :
    ∃ last, (gathering T rx clock timeoutUs).run g = some last ∧ Gathered rx last ∧ Reached T clock timeoutUs last.tries ∧
      0 < last.tries ∧ ¬Going T clock timeoutUs last.tries := by
  obtain ⟨i, later, past⟩ := over'
  obtain ⟨k, rfl⟩ := Nat.exists_eq_add_of_lt later
  have tries (g : Gather) : (g.receive (rx g.tries)).tries = g.tries + 1 := by
    cases rx g.tries <;> rfl
  induction k generalizing g with
  | zero =>
    refine ⟨g.receive (rx g.tries), ?_, gathered.receive, tries g ▸ reached, tries g ▸ Nat.succ_pos _, tries g ▸ past⟩
    rw [Loop.run_eq]
    simp [gathering, tries g, past]
  | succ k ih =>
    by_cases going : Going T clock timeoutUs (g.tries + 1)
    · have further : Reached T clock timeoutUs ((g.receive (rx g.tries)).tries + 1) := by
        intro i pos lt
        rw [tries g] at lt
        rcases Nat.lt_succ_iff_lt_or_eq.mp lt with before | rfl
        · exact reached i pos before
        · exact going
      rw [Loop.run_eq]
      simp only [gathering, tries g, going, if_true, Option.bind_eq_bind, Option.bind_some]
      refine ih gathered.receive further ?_ ?_
      · rw [tries g]
        omega
      · rw [tries g]
        convert past using 2
        omega
    · refine ⟨g.receive (rx g.tries), ?_, gathered.receive, tries g ▸ reached, tries g ▸ Nat.succ_pos _, tries g ▸ going⟩
      rw [Loop.run_eq]
      simp [gathering, tries g, going]

end Gathered

section Law

/-- Entries are filled in within the array only, as many as are returned, and each of them with the datagram that was
received for it. -/
structure BroadcastRight (rx : Nat → Option Datagram) (ret : Int) (g : Gather) : Prop where
  inside : ∀ k ∈ g.stored, k < maxIpNum
  count : ret = g.stored.length ∧ g.stored.Nodup
  entries : ∀ k ∈ g.stored, ∃ datagram, (received rx g.tries)[k]? = some datagram ∧ Holds (g.resps k) datagram

/-- The attempts that are made bring no more datagrams than the array holds, and none that is longer than an entry. -/
def Few (T : Target) (rx : Nat → Option Datagram) (clock : Nat → U64) (timeoutUs : U32) : Prop :=
  ∀ n, Reached T clock timeoutUs n →
    (received rx n).length ≤ maxIpNum ∧ ∀ datagram ∈ received rx n, datagram.data.length ≤ maxRespBufSize

/-- Once `sendto` was accepted, the places are the first ones, for as many datagrams as came. -/
theorem broadcast_gathers (accepted : 0 < sendRet) (over' : ∃ i, 0 < i ∧ ¬Going T clock timeoutUs i) :
    ∃ g, netBroadcast T sendRet rx clock timeoutUs resps = some ((g.respCnt : Int), g) ∧
      (BroadcastRight rx g.respCnt g ↔ Few T rx clock timeoutUs) := by
  have start : Gathered rx ⟨0, 0, resps, []⟩ := ⟨rfl, rfl, fun k datagram none => by cases none⟩
  have first : Reached T clock timeoutUs 1 := fun i pos lt => absurd pos (by omega)
  obtain ⟨g, run, gathered, reached, pos, past⟩ := gathering_run start first over'
  obtain ⟨count, places, entries⟩ := gathered
  refine ⟨g, ?_, fun right n reached' => ?_, fun few => ?_⟩
  · rw [netBroadcast, if_neg (Int.not_le.mpr accepted), run]
    rfl
  · have le : n ≤ g.tries := by
      by_contra more
      exact past (reached' g.tries pos (Nat.lt_of_not_le more))
    have prior : received rx n <+: received rx g.tries := received_prefix le
    constructor
    · refine Nat.le_trans prior.length_le ?_
      rw [← count]
      by_contra many
      have full := right.inside maxIpNum (by rw [places]; exact List.mem_range.mpr (Nat.lt_of_not_le many))
      exact Nat.lt_irrefl _ full
    · intro datagram came
      obtain ⟨k, at_k⟩ := List.mem_iff_getElem?.mp (prior.subset came)
      have lt := (List.getElem?_eq_some_iff.mp at_k).1
      obtain ⟨other, same, holds⟩ := right.entries k (by rw [places, count]; exact List.mem_range.mpr lt)
      obtain rfl : datagram = other := Option.some.inj (at_k.symm.trans same)
      obtain ⟨resp, filled⟩ := entries k datagram at_k
      rw [filled] at holds
      exact (fill_holds resp datagram).mp holds
  · obtain ⟨le, short⟩ := few g.tries reached
    rw [← count] at le
    constructor
    · intro k mem
      rw [places] at mem
      exact Nat.lt_of_lt_of_le (List.mem_range.mp mem) le
    · rw [places, List.length_range]
      exact ⟨rfl, List.nodup_range⟩
    · intro k mem
      rw [places, count] at mem
      have lt := List.mem_range.mp mem
      have here := List.getElem?_eq_getElem lt
      obtain ⟨resp, filled⟩ := entries k _ here
      refine ⟨_, here, ?_⟩
      rw [filled]
      exact (fill_holds resp _).mpr (short _ (List.getElem_mem lt))

/-- `net_broadcast` returns and keeps to its array just when `sendto` gave no error and, if
something was sent, at most as many datagrams come in time as the array holds, none longer than an entry. -/
theorem broadcast_right (over' : ∃ i, 0 < i ∧ ¬Going T clock timeoutUs i) :
    (∃ ret g, netBroadcast T sendRet rx clock timeoutUs resps = some (ret, g) ∧ BroadcastRight rx ret g) ↔
      0 ≤ sendRet ∧ (0 < sendRet → Few T rx clock timeoutUs) := by
  by_cases accepted : 0 < sendRet
  · obtain ⟨g, run, right⟩ : ∃ g, netBroadcast T sendRet rx clock timeoutUs resps = some ((g.respCnt : Int), g) ∧
        (BroadcastRight rx g.respCnt g ↔ Few T rx clock timeoutUs) := broadcast_gathers accepted over'
    rw [run]
    constructor
    · rintro ⟨ret, g', same, kept⟩
      obtain ⟨rfl, rfl⟩ := Prod.mk.inj (Option.some.inj same)
      exact ⟨Int.le_of_lt accepted, fun _ => right.mp kept⟩
    · rintro ⟨_, few⟩
      exact ⟨_, _, rfl, right.mpr (few accepted)⟩
  · have refused : netBroadcast T sendRet rx clock timeoutUs resps = some (sendRet, ⟨0, 0, resps, []⟩) :=
      if_pos (Int.not_lt.mp accepted)
    rw [refused]
    constructor
    · rintro ⟨ret, g, same, _, ⟨count, _⟩, _⟩
      obtain ⟨rfl, rfl⟩ := Prod.mk.inj (Option.some.inj same)
      exact ⟨Int.le_of_eq count.symm, fun pos => absurd pos accepted⟩
    · rintro ⟨nonneg, _⟩
      have zero : sendRet = 0 := Int.le_antisymm (Int.not_lt.mp accepted) nonneg
      refine ⟨_, _, rfl, ?_, ⟨zero, List.nodup_nil⟩, ?_⟩
      · intro k mem
        cases mem
      · intro k mem
        cases mem

/-- A clock that advances by one microsecond between its readings. -/
def ticking (i : Nat) : U64 := BitVec.ofNat 64 i

def answer : Datagram := ⟨⟨192, 168, 1, 7⟩, [1, 2, 3], by decide⟩

/-- Nobody answers. -/
theorem broadcast_right_silent :
    (∃ ret g, netBroadcast .host 4 (fun _ => none) ticking 1 (fun _ => ⟨"", fun _ => 0⟩) = some (ret, g) ∧
        BroadcastRight (fun _ => none) ret g) ↔
      (0 : Int) ≤ 4 ∧ ((0 : Int) < 4 → Few .host (fun _ => none) ticking 1) :=
  broadcast_right ⟨1, by decide, by decide⟩

/-- An answer each microsecond for longer than the array lasts. -/
theorem broadcast_overflows : ∃ ret g,
    netBroadcast .host 4 (fun _ => some answer) ticking 300 (fun _ => ⟨"", fun _ => 0⟩) = some (ret, g) ∧
      ¬BroadcastRight (fun _ => some answer) ret g := by
  have over' : ∃ i, 0 < i ∧ ¬Going .host ticking 300 i := ⟨300, by decide, by decide⟩
  obtain ⟨g, run, right⟩ :=
    @broadcast_gathers .host (fun _ => some answer) ticking 300 (fun _ => ⟨"", fun _ => 0⟩) 4 (by decide) over'
  refine ⟨_, g, run, fun kept => ?_⟩
  have going (i : Nat) (lt : i < 256) : Going .host ticking 300 i := by
    have zero : ((ticking 0).setWidth Target.host.bits).setWidth 64 = 0#64 := by decide
    have reading : (ticking i).toNat = i := by
      rw [ticking, BitVec.toNat_ofNat]
      omega
    unfold Going
    dsimp only
    rw [zero, BitVec.sub_zero, BitVec.lt_def, reading]
    exact Nat.lt_of_lt_of_le lt (by decide)
  have few := (right.mp kept 256 fun i _ lt => going i lt).1
  rw [received_const, List.length_replicate] at few
  exact absurd few (by decide)

end Law

end AvaModule.Comm
