import AvaModule.Comm.Net.Spin
import Mathlib.Algebra.Ring.Nat

/-! What `net_send` and `net_recv` write to the log, and whether it can be read back. -/
namespace AvaModule.Comm
open LittleEndian (encode encode_inj encode_length)

variable {T : Target} {m m' : NetLogMeta} {bytes payload rest : List Byte}

section Format

/-- An operation and the bytes it transferred. -/
structure NetEntry where
  ts : U64
  eOp : NetOp
  dstIp : U32
  dstPort : BitVec 16
  payload : List Byte

def NetLogMeta.entry (m : NetLogMeta) (payload : List Byte) : NetEntry := ⟨m.ts, m.eOp, m.dstIp, m.dstPort, payload⟩

/-- A log that is read record by record. -/
inductive Parses : List Byte → List NetEntry → Prop where
  | nil : Parses [] []
  | record {m : NetLogMeta} {payload rest : List Byte} {entries : List NetEntry} (size : payload.length = m.size.toNat)
      (parses : Parses rest entries) : Parses (m.bytes ++ (payload ++ rest)) (m.entry payload :: entries)

variable {entries : List NetEntry}

theorem NetLogMeta.bytes_length (m : NetLogMeta) : m.bytes.length = sizeofNetLogMeta := by
  simp [NetLogMeta.bytes, sizeofNetLogMeta]

theorem NetLogMeta.bytes_inj (same : m.bytes = m'.bytes) : m = m' := by
  obtain ⟨same, size⟩ := List.append_inj' same (by simp)
  obtain ⟨same, port⟩ := List.append_inj' same (by simp)
  obtain ⟨same, ip⟩ := List.append_inj' same (by simp)
  obtain ⟨ts, op⟩ := List.append_inj' same (by simp)
  have op : m.eOp.toU32 = m'.eOp.toU32 := encode_inj (n := 4) rfl op
  ext1
  · exact encode_inj (n := 8) rfl ts
  · revert op
    cases m.eOp <;> cases m'.eOp <;> decide
  · exact encode_inj (n := 4) rfl ip
  · exact encode_inj (n := 2) rfl port
  · exact encode_inj (n := 4) rfl size

/-- What can follow the header of a record. -/
theorem Parses.inv (parses : Parses (m.bytes ++ bytes) entries) :
    ∃ payload rest entries', bytes = payload ++ rest ∧ payload.length = m.size.toNat ∧
      entries = m.entry payload :: entries' ∧ Parses rest entries' := by
  generalize whole : m.bytes ++ bytes = log at parses
  cases parses with
  | nil =>
    have length := congrArg List.length whole
    rw [List.length_append, m.bytes_length, sizeofNetLogMeta, List.length_nil] at length
    omega
  | record size parses =>
    obtain ⟨same, rfl⟩ := List.append_inj whole (by rw [NetLogMeta.bytes_length, NetLogMeta.bytes_length])
    obtain rfl := NetLogMeta.bytes_inj same
    exact ⟨_, _, _, rfl, size, rfl, parses⟩

def NetEntry.length (entry : NetEntry) : Nat := sizeofNetLogMeta + entry.payload.length

theorem Parses.length (parses : Parses bytes entries) : bytes.length = (entries.map NetEntry.length).sum := by
  induction parses with
  | nil => rfl
  | record size parses ih =>
    rw [List.length_append, List.length_append, NetLogMeta.bytes_length, ih, List.map_cons, List.sum_cons, NetEntry.length,
      Nat.add_assoc]
    rfl

end Format

section Calls
variable {ch : SyncCh} {ts : U64} {eOp : NetOp} {buf : Nat → Byte} {room ret : Usz T} {made : List (Flush T)}

/-- A call on a channel in a synchronous mode, with what its environment does. -/
inductive SyncCall (T : Target) where
  | send (ch : SyncCh) (txBuf : Nat → Byte) (size ret : Usz T) (ts : U64)
  | recv (ch : SyncCh) (rxBuf : Nat → Byte) (cap : Usz T) (timeoutUs : U32) (results : Nat → Usz T)
      (clock : Nat → U64) (ts : U64)

def SyncCall.run : SyncCall T → Option (Usz T × List (Flush T))
  | .send ch txBuf size ret ts => some (netSend ch txBuf size ret ts)
  | .recv ch rxBuf cap timeoutUs results clock ts => netRecv ch rxBuf cap timeoutUs results clock ts

/-- The bytes that an operation with the result `ret` transferred: none if it failed. -/
def transferred (buf : Nat → Byte) (ret : Usz T) : List Byte := (List.range ret.toInt.toNat).map buf

def SyncCall.entry (ret : Usz T) : SyncCall T → NetEntry
  | .send ch txBuf _ _ ts => ⟨ts, .send, ch.dstIp, ch.dstPort, transferred txBuf ret⟩
  | .recv ch rxBuf _ _ _ _ ts => ⟨ts, .recv, ch.dstIp, ch.dstPort, transferred rxBuf ret⟩

/-- A sequence of calls: the calls of `f_flush` that they make, and what they did. -/
inductive Logs : List (SyncCall T) → List (Flush T) → List NetEntry → Prop where
  | nil : Logs [] [] []
  | call {call : SyncCall T} {ret : Usz T} {made flushes : List (Flush T)} {calls : List (SyncCall T)}
      {entries : List NetEntry} (run : call.run = some (ret, made)) (logs : Logs calls flushes entries) :
      Logs (call :: calls) (made ++ flushes) (call.entry ret :: entries)

/-- No length exceeds its buffer, and the log is read back as it happened. -/
structure LogRight (flushes : List (Flush T)) (entries : List NetEntry) : Prop where
  inside : ∀ flush ∈ flushes, flush.len.toNat ≤ flush.room
  parses : Parses (flushes.flatMap Flush.bytes) entries

/-- A result that both of its uses show as it is. -/
structure Sane (room ret : Usz T) : Prop where
  nonneg : 0 ≤ ret.toInt
  inside : ret.toNat ≤ room.toNat
  narrow : ret.toNat < 2 ^ 32

/-- A positive result is obtained before the deadline, and fits in the buffer. -/
def Arrives (deadline : U64) (recv : Nat → Usz T) (clock : Nat → U64) (cap : Usz T) : Prop :=
  ∃ i, (∀ j < i, recvInt recv j ≤ 0) ∧ (∀ j ≤ i, reading clock 0 0 j < deadline) ∧ 0 < recvInt recv i ∧
    recvInt recv i ≤ cap.toNat

/-- The results of the socket calls are such that the log can be trusted. -/
def SyncCall.Fine : SyncCall T → Prop
  | .send _ _ size ret _ => Sane size ret
  | .recv ch _ cap timeoutUs results clock _ =>
      match ch.eMode with
      | .syncYield => Sane cap (results 0)
      | .syncSpin => Arrives (clock 0 + (us2ns timeoutUs).setWidth 64) results clock cap

theorem arrives_iff {deadline : U64} {recv : Nat → Usz T} {clock : Nat → U64} {cap : Usz T} {ret : Int} {n : Nat}
    (left : (spin deadline recv clock).run (0, 0) = some (ret, n)) :
    Arrives deadline recv clock cap ↔ 0 < ret ∧ ret ≤ cap.toNat := by
  obtain ⟨_, none_before, in_time, outcome⟩ := spin_left left
  dsimp only at none_before in_time outcome
  constructor
  · rintro ⟨i, none, early, some, fits⟩
    have le : n ≤ i := by
      by_contra past
      exact absurd (none_before i (Nat.zero_le i) (Nat.lt_of_not_le past)) (Int.not_le.mpr some)
    rcases outcome with ⟨_, some', rfl⟩ | ⟨late, _⟩
    · rcases Nat.eq_or_lt_of_le le with rfl | lt
      · exact ⟨some, fits⟩
      · exact absurd (none n lt) (Int.not_le.mpr some')
    · exact absurd (early n le) late
  · rintro ⟨some, fits⟩
    rcases outcome with ⟨early, _, rfl⟩ | ⟨_, rfl⟩
    · refine ⟨n, fun j lt => none_before j (Nat.zero_le j) lt, fun j le => ?_, some, fits⟩
      rcases Nat.eq_or_lt_of_le le with rfl | lt
      · exact early
      · exact in_time j (Nat.zero_le j) lt
    · exact absurd some (by decide)

/-- The results of the loop, as an `isz`. -/
theorem toInt_spin {deadline : U64} {recv : Nat → Usz T} {clock : Nat → U64} {r : Int} {n : Nat}
    (left : (spin deadline recv clock).run (0, 0) = some (r, n)) : (BitVec.ofInt T.bits r).toInt = r ∧ r ≠ 0 ∧ r < 2 ^ 31 := by
  have bits : (2 : Int) ^ 31 ≤ 2 ^ (T.bits - 1) := by cases T <;> decide
  obtain ⟨lower, upper, some⟩ : -2 ^ 31 ≤ r ∧ r < 2 ^ 31 ∧ r ≠ 0 := by
    obtain ⟨_, _, _, outcome⟩ := spin_left left
    dsimp only at outcome
    rcases outcome with ⟨_, some, rfl⟩ | ⟨_, rfl⟩
    · exact ⟨BitVec.le_toInt _, BitVec.toInt_lt, Int.ne_of_gt some⟩
    · decide
  refine ⟨BitVec.toInt_ofInt_eq_self (by cases T <;> decide) ?_ ?_, some, upper⟩
  · exact Int.le_trans (Int.neg_le_neg bits) lower
  · exact Int.lt_of_lt_of_le upper bits

theorem toInt_nonneg (nonneg : 0 ≤ ret.toInt) : ret.toInt = ret.toNat := by
  have bound := ret.isLt
  rw [BitVec.toInt_eq_toNat_cond] at nonneg ⊢
  split at nonneg
  · next small => rw [if_pos small]
  · omega

/-- In every mode the same is written, for the result of the call. -/
theorem SyncCall.run_spec {call : SyncCall T} (run : call.run = some (ret, made)) :
    ∃ ch ts eOp buf room, made = flushes ch ts eOp buf room ret ∧
      call.entry ret = ⟨ts, eOp, ch.dstIp, ch.dstPort, transferred buf ret⟩ ∧ (call.Fine ↔ Sane room ret) := by
  cases call with
  | send ch txBuf size ret' ts =>
    have same : netSend ch txBuf size ret' ts = (ret', flushes ch ts .send txBuf size ret') := by
      unfold netSend
      cases ch.eMode <;> rfl
    simp only [SyncCall.run, same, Option.some.injEq, Prod.mk.injEq] at run
    obtain ⟨rfl, rfl⟩ := run
    exact ⟨ch, ts, .send, txBuf, size, rfl, rfl, Iff.rfl⟩
  | recv ch rxBuf cap timeoutUs results clock ts =>
    simp only [SyncCall.run, netRecv] at run
    unfold SyncCall.Fine
    dsimp only
    cases mode : ch.eMode with
    | syncYield =>
      simp only [mode, Option.some.injEq, Prod.mk.injEq] at run
      obtain ⟨rfl, rfl⟩ := run
      exact ⟨ch, ts, .recv, rxBuf, cap, rfl, rfl, Iff.rfl⟩
    | syncSpin =>
      rw [mode] at run
      obtain ⟨⟨r, n⟩, left, run⟩ := Option.bind_eq_some_iff.mp run
      dsimp only at run
      obtain ⟨rfl, rfl⟩ := Prod.mk.inj (Option.some.inj run)
      obtain ⟨self, some, upper⟩ := toInt_spin left
      refine ⟨ch, ts, .recv, rxBuf, cap, rfl, rfl, (arrives_iff left).trans ⟨?_, ?_⟩⟩
      · rintro ⟨pos, fits⟩
        have same : (BitVec.ofInt T.bits r).toInt = (BitVec.ofInt T.bits r).toNat := toInt_nonneg (by omega)
        exact ⟨by omega, by omega, by omega⟩
      · rintro ⟨nonneg, inside, _⟩
        have same := toInt_nonneg nonneg
        omega

end Calls

section Log
variable {ch : SyncCh} {ts : U64} {eOp : NetOp} {buf : Nat → Byte} {room ret : Usz T} {made : List (Flush T)}
  {calls : List (SyncCall T)} {entries : List NetEntry}

theorem range_getD (l : List Byte) : (List.range l.length).map (fun i => l.getD i 0) = l := by
  refine List.ext_getElem (by simp) fun i _ lt => ?_
  simp [lt]

theorem flushes_bytes : (flushes ch ts eOp buf room ret).flatMap Flush.bytes =
    (NetLogMeta.mk ts eOp ch.dstIp ch.dstPort (ret.signExtend 32)).bytes ++ (List.range ret.toNat).map buf := by
  obtain ⟨m, m_eq⟩ : ∃ m, m = NetLogMeta.mk ts eOp ch.dstIp ch.dstPort (ret.signExtend 32) := ⟨_, rfl⟩
  have length : (BitVec.ofNat T.bits sizeofNetLogMeta).toNat = m.bytes.length := by
    rw [m.bytes_length]
    cases T <;> rfl
  have whole := range_getD m.bytes
  rw [← length] at whole
  rw [← m_eq]
  simp only [flushes, List.flatMap_cons, List.flatMap_nil, List.append_nil, Flush.bytes, ← m_eq]
  rw [whole]

theorem size_toNat : (ret.signExtend 32).toNat = ret.toNat % 2 ^ 32 := by
  rw [BitVec.signExtend_eq_setWidth_of_le ret (by cases T <;> decide), BitVec.toNat_setWidth]

/-- No operation transfers more than is written for it. -/
theorem toNat_toInt_le : ret.toInt.toNat ≤ ret.toNat := by
  rw [BitVec.toInt_eq_toNat_cond]
  split <;> omega

theorem Logs.length_le {flushes : List (Flush T)} (logs : Logs calls flushes entries) :
    (entries.map NetEntry.length).sum ≤ (flushes.flatMap Flush.bytes).length := by
  induction logs with
  | nil => exact Nat.le_refl 0
  | call run logs ih =>
    obtain ⟨ch, ts, eOp, buf, room, rfl, entry, _⟩ := SyncCall.run_spec run
    rw [List.flatMap_append, List.length_append, flushes_bytes, List.length_append, NetLogMeta.bytes_length, entry,
      List.map_cons, List.sum_cons, NetEntry.length, transferred, List.length_map, List.length_map, List.length_range,
      List.length_range]
    exact Nat.add_le_add (Nat.add_le_add_left toNat_toInt_le _) ih

/-- The first operation of a log. A wrong length cannot be made good by what follows. -/
theorem logRight_cons {later : List (Flush T)}
    (le : (entries.map NetEntry.length).sum ≤ (later.flatMap Flush.bytes).length) :
    LogRight (flushes ch ts eOp buf room ret ++ later)
      (⟨ts, eOp, ch.dstIp, ch.dstPort, transferred buf ret⟩ :: entries) ↔ Sane room ret ∧ LogRight later entries := by
  constructor
  · rintro ⟨inside, parses⟩
    rw [List.flatMap_append, flushes_bytes, List.append_assoc] at parses
    obtain ⟨payload, rest, entries', whole, size, same, parses⟩ := parses.inv
    obtain ⟨first, rfl⟩ := List.cons.inj same
    obtain rfl : transferred buf ret = payload := congrArg NetEntry.payload first
    have length := congrArg List.length whole
    rw [size_toNat] at size
    simp only [List.length_append, List.length_map, List.length_range, transferred] at length size
    rw [parses.length] at length
    have written : ret.toInt.toNat ≤ ret.toNat := toNat_toInt_le
    have nonneg : 0 ≤ ret.toInt := by
      rw [BitVec.toInt_eq_toNat_cond] at written length ⊢
      split at length <;> omega
    have toNat := toInt_nonneg nonneg
    obtain ⟨_, rfl⟩ := List.append_inj whole (by simp [transferred, toNat])
    refine ⟨⟨nonneg, ?_, by omega⟩, ?_, parses⟩
    · exact inside ⟨buf, ret, room.toNat⟩ (List.mem_append_left _ (List.mem_cons_of_mem _ List.mem_cons_self))
    · exact fun flush mem => inside flush (List.mem_append_right _ mem)
  · rintro ⟨⟨nonneg, fits, narrow⟩, inside, parses⟩
    constructor
    · intro flush mem
      rcases List.mem_append.mp mem with first | later
      · rcases List.mem_cons.mp first with rfl | second
        · exact Nat.le_of_eq (toNat_length (by cases T <;> decide))
        · obtain rfl := List.mem_singleton.mp second
          exact fits
      · exact inside flush later
    · have moved : transferred buf ret = (List.range ret.toNat).map buf := by
        rw [transferred, toInt_nonneg nonneg, Int.toNat_natCast]
      have size : (transferred buf ret).length = (ret.signExtend 32).toNat := by
        rw [moved, List.length_map, List.length_range, size_toNat, Nat.mod_eq_of_lt narrow]
      rw [List.flatMap_append, flushes_bytes, List.append_assoc, ← moved]
      exact .record (m := ⟨ts, eOp, ch.dstIp, ch.dstPort, ret.signExtend 32⟩) size parses

/-- The log of any sequence of calls is right just when the socket calls give no error and no
timeout, and no more than fits in the buffer and in the record. -/
theorem log_right {flushes : List (Flush T)} (logs : Logs calls flushes entries) :
    LogRight flushes entries ↔ ∀ call ∈ calls, call.Fine := by
  induction logs with
  | nil =>
    constructor
    · intro _ call mem
      cases mem
    · intro _
      refine ⟨fun flush mem => ?_, Parses.nil⟩
      cases mem
  | call run logs ih =>
    obtain ⟨ch, ts, eOp, buf, room, rfl, entry, fine⟩ := SyncCall.run_spec run
    rw [entry, logRight_cons logs.length_le, ih, List.forall_mem_cons, fine]

def channel (eMode : NetMode) : SyncCh := ⟨eMode, 0x0100007f, 8080⟩

/-- Two bytes are sent, and three come back. -/
def exchange : List (SyncCall .host) :=
  [.send (channel .syncYield) (fun _ => 7) 2 2 5,
    .recv (channel .syncYield) (fun i => BitVec.ofNat 8 i) 16 1000 (fun _ => 3) (fun _ => 0) 8]

theorem log_right_exchange : ∃ flushes entries, Logs exchange flushes entries ∧
    entries.map NetEntry.payload = [[7, 7], [0, 1, 2]] ∧ LogRight flushes entries := by
  have logs : Logs exchange _ _ := .call rfl (.call rfl .nil)
  refine ⟨_, _, logs, by decide, (log_right logs).mpr ?_⟩
  rw [exchange, List.forall_mem_cons, List.forall_mem_cons]
  exact ⟨⟨by decide, by decide, by decide⟩, ⟨by decide, by decide, by decide⟩, nofun⟩

/-- A `recv` that times out. -/
def recvNothing : SyncCall .host := .recv (channel .syncYield) (fun _ => 0) 16 1000 (fun _ => -1) (fun _ => 0) 5

/-- It is logged with the length -1. -/
theorem log_wrong_timeout : ∃ flushes entries, Logs [recvNothing] flushes entries ∧ ¬LogRight flushes entries := by
  refine ⟨_, _, .call rfl .nil, fun right => ?_⟩
  obtain ⟨sane, _⟩ := (logRight_cons (Logs.nil (T := .host)).length_le).mp right
  exact absurd sane.nonneg (by decide)

end Log

end AvaModule.Comm
