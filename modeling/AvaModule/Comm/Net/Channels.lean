import AvaModule.Ds.Traverse
import AvaModule.Lib.Transition
import Mathlib.Data.List.Pairwise

/-! The channels of comm/net.h on Linux and the descriptors they own. What the system calls answer is given; the
kernel keeps the descriptors that are open. -/
namespace AvaModule.Comm
open ListHead Memory DoublyLinked Transition Function

variable {T : Target}

def meinval : Int := 1

/-- `net_type_e` -/
inductive NetType where
  | null
  | udp
  | tcp
  deriving DecidableEq

/-- `struct sockaddr_in`; `port` is in the order of the network. -/
structure SockaddrIn where
  port : BitVec 16
  addr : BitVec 32

/-- The descriptors that are open, and those that were closed while they were not. -/
structure Kernel where
  fds : List (BitVec 32)
  wrong : List (BitVec 32)

def openSocket (k : Kernel) (fd : BitVec 32) : Kernel := if fd.slt 0 then k else { k with fds := fd :: k.fds }

def closeSocket (k : Kernel) (fd : BitVec 32) : Kernel :=
  if fd ∈ k.fds then { k with fds := k.fds.erase fd } else { k with wrong := fd :: k.wrong }

/-- What the calls into the system answer. -/
structure Answers where
  socket : BitVec 32
  inetAddr : List Byte → BitVec 32
  bind : SockaddrIn → BitVec 32
  connect : SockaddrIn → BitVec 32

/-- `net_t` as far as the channels need it: `root` is the address of `ch_root`. `chs` is kept for the record: the
channels that were added. -/
structure Channels (T : Target) where
  eType : NetType
  root : Usz T
  mem : Nat → Byte
  kernel : Kernel
  chs : List (Usz T)

section Fields
variable (m : Nat → Byte) (ch : Usz T)

/-- Behind `ch_node` and `e_mode`. -/
def dstIpAt : Nat := ch.toNat + 2 * wordBytes T + 4

def srcIpAt : Nat := dstIpAt ch + 16

def dstPortAt : Nat := srcIpAt ch + 16

def srcPortAt : Nat := dstPortAt ch + 2

def fdAt : Nat := srcPortAt ch + 2

/-- `sizeof(net_ch_t)`: the two callbacks come behind `fd`, which takes a word with the padding after it. -/
def sizeofCh (T : Target) : Nat := 2 * wordBytes T + 40 + wordBytes T + 2 * wordBytes T

def ipOf (at_ : Nat) : List Byte := (read m at_ 16).takeWhile (· ≠ 0)

def portOf (at_ : Nat) : BitVec 16 := BitVec.ofNat 16 (LittleEndian.decode (read m at_ 2))

def fdOf : BitVec 32 := BitVec.ofNat 32 (LittleEndian.decode (read m (fdAt ch) 4))

def setFd (fd : BitVec 32) : Nat → Byte := write m (fdAt ch) (LittleEndian.encode 4 fd.toNat)

end Fields

def htons (x : BitVec 16) : BitVec 16 := x <<< 8 ||| x >>> 8

def netInit (eType : NetType) (root : Usz T) (mem : Nat → Byte) (kernel : Kernel) : Channels T :=
  ⟨eType, root, listInit mem root, kernel, []⟩

/-- `bind`, where a source is given, and then `connect`: what the first of them that fails answers. -/
def dialCh (m : Nat → Byte) (ch : Usz T) (os : Answers) : BitVec 32 :=
  let dstAddr : SockaddrIn := ⟨htons (portOf m (dstPortAt ch)), os.inetAddr (ipOf m (dstIpAt ch))⟩
  let srcAddr : SockaddrIn := ⟨htons (portOf m (srcPortAt ch)), os.inetAddr (ipOf m (srcIpAt ch))⟩
  let ret := if ipOf m (srcIpAt ch) ≠ [] ∧ portOf m (srcPortAt ch) ≠ 0 then os.bind srcAddr else 0
  if ret.slt 0 then ret else os.connect dstAddr

/-- The descriptor of a channel that cannot be bound or connected is closed again. -/
def netAddCh (net : Channels T) (ch : Usz T) (os : Answers) : Int × Channels T :=
  match net.eType with
  | .null => (-meinval, net)
  | .udp | .tcp =>
    let kernel := openSocket net.kernel os.socket
    let mem := setFd net.mem ch os.socket
    let ret := dialCh mem ch os
    if ret.slt 0 then (ret.toInt, { net with mem, kernel := closeSocket kernel (fdOf mem ch) })
    else (0, { net with mem := listAdd mem ch net.root, kernel, chs := ch :: net.chs })

/-- The body of the loop of `net_destroy`; `ch_node` comes first in a channel. -/
def closeNode (node : Usz T) (s : (Nat → Byte) × Kernel) : Option ((Nat → Byte) × Kernel) :=
  some (s.1, closeSocket s.2 (fdOf s.1 (containerOf node 0)))

def netDestroy (net : Channels T) : Option Kernel :=
  (listForEach net.root closeNode (net.mem, net.kernel)).map Prod.snd

/-- A channel is added, or a byte is stored by someone else. -/
inductive ChAct (T : Target) where
  | add (ch : Usz T) (os : Answers)
  | store (i : Nat) (byte : Byte)

def chStep (act : ChAct T) (net : Channels T) : Option (Channels T) :=
  match act with
  | .add ch os => some (netAddCh net ch os).2
  | .store i byte => some { net with mem := write net.mem i [byte] }

/-- Two channels do not overlap. -/
def AwayCh (c d : Usz T) : Prop := c.toNat + sizeofCh T ≤ d.toNat ∨ d.toNat + sizeofCh T ≤ c.toNat

instance : Std.Symm (AwayCh (T := T)) := ⟨fun _ _ away => Or.symm away⟩

/-- The channels overlap neither each other nor `ch_root`. -/
structure Spaced (root : Usz T) (chs : List (Usz T)) : Prop where
  root : ∀ c ∈ chs, c.toNat + sizeofCh T ≤ root.toNat ∨ root.toNat + 2 * wordBytes T ≤ c.toNat
  apart : chs.Pairwise AwayCh

/-- The kernel hands out no descriptor that is open, and connects none that is not; `ch_root`, and the `ch_node` and
`fd` of a channel that was added, are left to the library. -/
def Orderly (act : ChAct T) (net : Channels T) : Prop :=
  match act with
  | .add ch os =>
      Spaced net.root (ch :: net.chs) ∧ (os.socket.slt 0 = false → os.socket ∉ net.kernel.fds) ∧
        (os.socket.slt 0 = true → ∀ addr, (os.connect addr).slt 0 = true)
  | .store i _ =>
      ¬Within net.root i ∧ ∀ c ∈ net.chs, ¬Within c i ∧ (i < fdAt c ∨ fdAt c + 4 ≤ i)

section Frames
variable {m m' : Nat → Byte} {ch : Usz T} {fd : BitVec 32}

theorem fdOf_congr (same : ∀ i, fdAt ch ≤ i → i < fdAt ch + 4 → m' i = m i) : fdOf m' ch = fdOf m ch := by
  have bytes : read m' (fdAt ch) 4 = read m (fdAt ch) 4 := read_congr fun i lt => same _ (Nat.le_add_right ..) (by omega)
  rw [fdOf, bytes, fdOf]

theorem fdOf_setFd : fdOf (setFd m ch fd) ch = fd := by
  have bytes := @read_write Byte m (LittleEndian.encode 4 fd.toNat) (fdAt ch)
  rw [LittleEndian.encode_length] at bytes
  rw [fdOf, setFd, bytes]
  exact LittleEndian.ofNat_decode_encode (n := 4) rfl fd

theorem setFd_outside {i : Nat} (away : i < fdAt ch ∨ fdAt ch + 4 ≤ i) : setFd m ch fd i = m i := by
  apply write_outside
  rwa [LittleEndian.encode_length]

/-- The descriptor lies in the channel, behind its list head. -/
theorem fdAt_inside : ch.toNat + 2 * wordBytes T ≤ fdAt ch ∧ fdAt ch + 4 ≤ ch.toNat + sizeofCh T := by
  have word : 4 ≤ wordBytes T := by cases T <;> decide
  unfold fdAt srcPortAt dstPortAt srcIpAt dstIpAt sizeofCh
  omega

end Frames

section Closing
variable {k : Kernel} {fd : BitVec 32} {fds : List (BitVec 32)}

theorem closeSocket_open (held : k.fds.Perm (fd :: fds)) :
    (closeSocket k fd).fds.Perm fds ∧ (closeSocket k fd).wrong = k.wrong := by
  have member : fd ∈ k.fds := held.mem_iff.mpr List.mem_cons_self
  rw [closeSocket, if_pos member]
  exact ⟨((List.perm_cons_erase member).symm.trans held).cons_inv, rfl⟩

/-- Closing each of these descriptors once leaves the others open. -/
theorem closeSocket_all {others : List (BitVec 32)} (held : k.fds.Perm (fds ++ others)) :
    (fds.foldl closeSocket k).fds.Perm others ∧ (fds.foldl closeSocket k).wrong = k.wrong := by
  induction fds generalizing k with
  | nil => exact ⟨held, rfl⟩
  | cons fd fds ih =>
    obtain ⟨rest, same⟩ := closeSocket_open held
    rw [List.foldl_cons, ← same]
    exact ih rest

end Closing

section Space
variable {root ch c q : Usz T} {chs : List (Usz T)} {i : Nat}

theorem Spaced.tail (spaced : Spaced root (ch :: chs)) : Spaced root chs :=
  ⟨fun c member => spaced.root c (List.mem_cons_of_mem ch member), (List.pairwise_cons.mp spaced.apart).2⟩

/-- No list head lies on the descriptor of a channel. -/
theorem Spaced.fd_away (spaced : Spaced root chs) (c_mem : c ∈ chs) (q_mem : q ∈ root :: chs)
    (lo : fdAt c ≤ i) (hi : i < fdAt c + 4) : ¬Within q i := by
  obtain ⟨behind, inside⟩ := @fdAt_inside T c
  have large : 2 * wordBytes T ≤ sizeofCh T := by unfold sizeofCh; omega
  unfold Within
  rcases List.mem_cons.mp q_mem with rfl | q_mem
  · have away := spaced.root c c_mem
    omega
  · by_cases same : q = c
    · subst same
      omega
    · have away := spaced.apart.forall q_mem c_mem same
      unfold AwayCh at away
      omega

theorem Spaced.fds_apart (spaced : Spaced root (ch :: chs)) (member : c ∈ chs) :
    fdAt c + 4 ≤ fdAt ch ∨ fdAt ch + 4 ≤ fdAt c := by
  have away := (List.pairwise_cons.mp spaced.apart).1 c member
  have one := @fdAt_inside T c
  have two := @fdAt_inside T ch
  unfold AwayCh at away
  omega

theorem Spaced.detached (spaced : Spaced root (ch :: chs)) :
    Detached (update (fun _ => none) root (some chs)) ch := by
  have positive : 2 * wordBytes T ≤ sizeofCh T ∧ 0 < wordBytes T := ⟨by unfold sizeofCh; omega, wordBytes_pos⟩
  rintro r q ⟨nodes, value, member⟩
  have away : ch.toNat + 2 * wordBytes T ≤ q.toNat ∨ q.toNat + 2 * wordBytes T ≤ ch.toNat := by
    by_cases same : r = root
    · subst same
      rw [update_self] at value
      cases value
      rcases List.mem_cons.mp member with rfl | member
      · have away := spaced.root ch List.mem_cons_self
        omega
      · have away := (List.pairwise_cons.mp spaced.apart).1 q member
        unfold AwayCh at away
        omega
    · rw [update_of_ne same] at value
      cases value
  refine ⟨?_, fun _ => away⟩
  rintro rfl
  omega

end Space

/-- The list in memory holds the channels that were added, and their descriptors are open beside `others`. -/
structure Tracked (others : List (BitVec 32)) (net : Channels T) : Prop where
  lists : WellFormed net.mem (update (fun _ => none) net.root (some net.chs))
  spaced : Spaced net.root net.chs
  held : net.kernel.fds.Perm (net.chs.map (fdOf net.mem) ++ others)
  valid : ∀ fd ∈ net.kernel.fds, fd.slt 0 = false
  wrong : ∀ fd ∈ net.kernel.wrong, fd.slt 0 = true

section Steps
variable {others : List (BitVec 32)} {net net' : Channels T} {ch root : Usz T} {mem mem' : Nat → Byte}

theorem Tracked.ring (tracked : Tracked others net) : Ring (nextOf net.mem) (prevOf net.mem) net.root net.chs :=
  tracked.lists.ring (update_self ..)

theorem Tracked.start {eType : NetType} (valid : ∀ fd ∈ others, fd.slt 0 = false) :
    Tracked others (netInit eType root mem ⟨others, []⟩) :=
  ⟨(WellFormed.start mem).applies (.init Detached.start), ⟨fun _ member => (by cases member), .nil⟩, .refl _, valid,
    fun _ member => (by cases member)⟩

/-- Stores beside the list heads and the descriptors change nothing. -/
theorem Tracked.frame (tracked : Tracked others net) (heads : ∀ p ∈ net.root :: net.chs, ∀ i, Within p i → mem' i = net.mem i)
    (fds : ∀ c ∈ net.chs, ∀ i, fdAt c ≤ i → i < fdAt c + 4 → mem' i = net.mem i) :
    Tracked others { net with mem := mem' } := by
  have wf := tracked.lists
  have same : net.chs.map (fdOf mem') = net.chs.map (fdOf net.mem) :=
    List.map_congr_left fun c member => fdOf_congr (fds c member)
  refine ⟨⟨?_, wf.once, wf.apart⟩, tracked.spaced, same ▸ tracked.held, tracked.valid, tracked.wrong⟩
  intro r nodes value
  refine ring_congr (wf.ring value) fun p member i inside => ?_
  by_cases at_root : r = net.root
  · subst at_root
    rw [update_self] at value
    cases value
    exact heads p member i inside
  · rw [update_of_ne at_root] at value
    cases value

/-- The descriptor of a channel that is in no list is stored. -/
theorem Tracked.stored (tracked : Tracked others net) (spaced : Spaced net.root (ch :: net.chs)) (fd : BitVec 32) :
    Tracked others { net with mem := setFd net.mem ch fd } := by
  apply tracked.frame
  · intro p member i inside
    apply setFd_outside
    by_contra at_fd
    have in_list : p ∈ net.root :: ch :: net.chs := by
      rcases List.mem_cons.mp member with rfl | member
      · exact List.mem_cons_self
      · exact List.mem_cons_of_mem _ (List.mem_cons_of_mem _ member)
    exact spaced.fd_away List.mem_cons_self in_list (by omega) (by omega) inside
  · intro c member i lo hi
    have away := spaced.fds_apart member
    exact setFd_outside (by omega)

theorem dialCh_connects {m : Nat → Byte} {os : Answers} (connected : (dialCh m ch os).slt 0 = false) :
    ∃ addr, (os.connect addr).slt 0 = false := by
  simp only [dialCh] at connected
  split at connected
  all_goals
    split at connected
    next negative => exact absurd (negative.symm.trans connected) (by decide)
    next => exact ⟨_, connected⟩

/-- What `net_add_ch` does where the channel can be connected, and where it cannot. -/
theorem netAddCh_cases (os : Answers) :
    (netAddCh net ch os).2 = net ∨
    (netAddCh net ch os).2 = { net with
      mem := setFd net.mem ch os.socket
      kernel := closeSocket (openSocket net.kernel os.socket) os.socket } ∨
    (∃ addr, (os.connect addr).slt 0 = false) ∧
      (netAddCh net ch os).2 = { net with
        mem := listAdd (setFd net.mem ch os.socket) ch net.root
        kernel := openSocket net.kernel os.socket
        chs := ch :: net.chs } := by
  cases type : net.eType with
  | null => exact .inl (by simp only [netAddCh, type])
  | udp | tcp =>
    refine .inr ?_
    simp only [netAddCh, type]
    split
    next => exact .inl (by rw [fdOf_setFd])
    next connected => exact .inr ⟨dialCh_connects (Bool.eq_false_iff.mpr connected), rfl⟩

theorem Tracked.add {os : Answers} (tracked : Tracked others net) (orderly : Orderly (.add ch os) net) :
    Tracked others (netAddCh net ch os).2 := by
  obtain ⟨spaced, fresh, stuck⟩ := orderly
  have stored := tracked.stored spaced os.socket
  rcases @netAddCh_cases T net ch os with same | closed | ⟨⟨addr, connected⟩, added⟩
  · rw [same]
    exact tracked
  · rw [closed]
    cases negative : os.socket.slt 0 with
    | true =>
      have away : os.socket ∉ net.kernel.fds := fun member => by
        rw [tracked.valid _ member] at negative
        cases negative
      simp only [openSocket, negative, if_true, closeSocket, if_neg away]
      exact ⟨stored.lists, stored.spaced, stored.held, tracked.valid,
        List.forall_mem_cons.mpr ⟨negative, tracked.wrong⟩⟩
    | false =>
      have back : closeSocket (openSocket net.kernel os.socket) os.socket = net.kernel := by
        simp only [openSocket, negative, Bool.false_eq_true, if_false, closeSocket, List.mem_cons_self, if_true,
          List.erase_cons_head]
      rw [back]
      exact ⟨stored.lists, stored.spaced, stored.held, tracked.valid, tracked.wrong⟩
  · rw [added]
    have positive : os.socket.slt 0 = false := by
      cases negative : os.socket.slt 0 with
      | false => rfl
      | true => rw [stuck negative addr] at connected; cases connected
    have ring := stored.ring
    have first : nextOf (setFd net.mem ch os.socket) net.root = net.chs.headD net.root := ring.first_eq
    have apart_fd : ∀ c ∈ ch :: net.chs, ∀ i, fdAt c ≤ i → i < fdAt c + 4 →
        listAdd (setFd net.mem ch os.socket) ch net.root i =
          setFd net.mem ch os.socket i := by
      intro c member i lo hi
      have away : ∀ q ∈ net.root :: ch :: net.chs, ¬Within q i := fun q inside => spaced.fd_away member inside lo hi
      rw [listAdd, first]
      refine listAddBetween_outside (away _ List.mem_cons_self) (away _ (by simp)) (away _ ?_)
      have target := after_mem net.root [] net.chs
      rw [List.nil_append] at target
      rcases List.mem_cons.mp target with at_root | member
      · rw [at_root]
        exact List.mem_cons_self
      · exact List.mem_cons_of_mem _ (List.mem_cons_of_mem _ member)
    have grown := stored.lists.add (update_self ..) spaced.detached
    rw [update_idem] at grown
    have fds : (ch :: net.chs).map (fdOf (listAdd (setFd net.mem ch os.socket) ch net.root)) =
        os.socket :: net.chs.map (fdOf (setFd net.mem ch os.socket)) := by
      rw [List.map_congr_left fun c member => fdOf_congr (apart_fd c member), List.map_cons, fdOf_setFd]
    simp only [openSocket, positive, Bool.false_eq_true, if_false]
    refine ⟨grown, spaced, ?_, List.forall_mem_cons.mpr ⟨positive, tracked.valid⟩, tracked.wrong⟩
    dsimp only
    rw [fds]
    exact stored.held.cons os.socket

theorem Tracked.step {act : ChAct T} (tracked : Tracked others net) (orderly : Orderly act net) :
    ∃ net', chStep act net = some net' ∧ Tracked others net' := by
  cases act with
  | add ch os => exact ⟨_, rfl, tracked.add orderly⟩
  | store i byte =>
    obtain ⟨root, chs⟩ := orderly
    have elsewhere : ∀ j, j ≠ i → write net.mem i [byte] j = net.mem j := by
      intro j other
      apply write_outside
      rw [List.length_singleton]
      omega
    refine ⟨_, rfl, tracked.frame ?_ ?_⟩
    · intro p member j inside
      apply elsewhere
      rintro rfl
      rcases List.mem_cons.mp member with rfl | member
      · exact root inside
      · exact (chs p member).1 inside
    · intro c member j lo hi
      apply elsewhere
      have away := (chs c member).2
      omega

theorem closeNode_all (m : Nat → Byte) (chs : List (Usz T)) (k : Kernel) :
    chs.foldlM (fun s node => closeNode node s) (m, k) = some (m, (chs.map (fdOf m)).foldl closeSocket k) := by
  induction chs generalizing k with
  | nil => rfl
  | cons ch chs ih =>
    have at_start : containerOf ch 0 = ch := BitVec.sub_zero ch
    rw [List.foldlM_cons, List.map_cons, List.foldl_cons, ← ih, closeNode, at_start]
    rfl

/-- The loop over the channels closes their descriptors, from the last one added on. -/
theorem Tracked.destroy (tracked : Tracked others net) :
    netDestroy net = some ((net.chs.map (fdOf net.mem)).foldl closeSocket net.kernel) := by
  have spares : Spares closeNode (net.root :: net.chs) := fun _ _ _ done _ _ _ _ => by cases done; rfl
  have same (p : Usz T) : id (id p) = p := rfl
  have visits := forth_eq same spares (net.mem, net.kernel) tracked.ring
  rw [List.map_id, closeNode_all] at visits
  rw [netDestroy, listForEach, visits, Option.map_some]

/-- Whatever channels are added, with whatever the system calls answer, the open descriptors are those of the
channels in the list beside those that were open before; `net_destroy` closes each of them once, leaves the others
open, and nothing is ever closed that is not open, but for the -1 of a `socket` that failed. -/
theorem channels_closed {acts : List (ChAct T)} {eType : NetType} (valid : ∀ fd ∈ others, fd.slt 0 = false)
    (admits : Admits chStep Orderly acts (netInit eType root mem ⟨others, []⟩)) :
    ∃ net, runs chStep acts (netInit eType root mem ⟨others, []⟩) = some net ∧
      Ring (nextOf net.mem) (prevOf net.mem) net.root net.chs ∧
      net.kernel.fds.Perm (net.chs.map (fdOf net.mem) ++ others) ∧
      ∃ k, netDestroy net = some k ∧ k.fds.Perm others ∧ ∀ fd ∈ k.wrong, fd.slt 0 = true := by
  obtain ⟨net, run, tracked⟩ := runs_total (P := Tracked others) (fun tracked orderly => tracked.step orderly)
    (Tracked.start valid) admits
  obtain ⟨left, wrong⟩ := closeSocket_all tracked.held
  exact ⟨net, run, tracked.ring, tracked.held, _, tracked.destroy, left, wrong ▸ tracked.wrong⟩

/-- One channel that connects, a store beside it, and one that does not connect; descriptor 3 was open before. -/
def twoChannels : List (ChAct .mcu) :=
  [.add 0x100 ⟨7, fun _ => 0, fun _ => 0, fun _ => 0⟩, .store 0x400 1, .add 0x200 ⟨8, fun _ => 0, fun _ => 0, fun _ => -1⟩]

theorem channels_closed_two :
    ∃ net, runs chStep twoChannels (netInit .udp 0x10 (fun _ => 0) ⟨[3], []⟩) = some net ∧
      Ring (nextOf net.mem) (prevOf net.mem) net.root net.chs ∧
      net.kernel.fds.Perm (net.chs.map (fdOf net.mem) ++ [3]) ∧
      ∃ k, netDestroy net = some k ∧ k.fds.Perm [3] ∧ ∀ fd ∈ k.wrong, fd.slt 0 = true := by
  let good : Answers := ⟨7, fun _ => 0, fun _ => 0, fun _ => 0⟩
  have first : Spaced (0x10 : Usz .mcu) [0x100] := ⟨List.forall_mem_singleton.mpr (.inr (by decide)), List.pairwise_singleton ..⟩
  have both : Spaced (0x10 : Usz .mcu) [0x200, 0x100] :=
    ⟨List.forall_mem_cons.mpr ⟨.inr (by decide), first.root⟩,
      .cons (List.forall_mem_singleton.mpr (.inr (by decide))) first.apart⟩
  let one := (netAddCh (netInit .udp (0x10 : Usz .mcu) (fun _ => 0) ⟨[3], []⟩) 0x100 good).2
  have place : one.root = 0x10 := by decide +kernel
  have listed : one.chs = [0x100] := by decide +kernel
  have opened : one.kernel.fds = [7, 3] := by decide +kernel
  have beside : Orderly (.store 0x400 1) one := by
    refine ⟨?_, fun c member => ?_⟩
    · rw [place]
      exact fun inside => absurd inside.2 (by decide)
    · obtain rfl := List.mem_singleton.mp (listed ▸ member)
      exact ⟨fun inside => absurd inside.2 (by decide), .inr (by decide)⟩
  refine channels_closed (List.forall_mem_singleton.mpr (by decide))
    (.cons ⟨first, ?_, ?_⟩ rfl (.cons beside rfl ⟨⟨?_, ?_, ?_⟩, ?_⟩))
  · exact fun _ member => absurd (List.mem_singleton.mp member) (by decide)
  · exact fun negative => absurd negative (by decide)
  · change Spaced one.root (0x200 :: one.chs)
    rw [place, listed]
    exact both
  · change _ → _ ∉ one.kernel.fds
    rw [opened]
    decide
  · exact fun negative => absurd negative (by decide)
  · exact fun _ _ => trivial

end Steps

end AvaModule.Comm
