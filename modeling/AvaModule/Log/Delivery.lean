import AvaModule.Log.Runs

/-! The binary log in synchronous mode delivers what was accepted, whole and in order. -/
namespace AvaModule.RingLog
open MpscRing Memory Transition

variable {T : Target} {cfg : LogCfg T} {nproducers : Nat} {s : Run T}

def Run.payloads (s : Run T) : List (List Byte) := s.accepted.map Prod.snd

/-- A flush, or a write in a slot the ring has, of a payload that fits `flush_buf`. -/
def BinCall (cfg : LogCfg T) (nproducers : Nat) (call : Call T) : Prop :=
  match call with
  | .writeBin _ id data => id.toNat < nproducers ∧ data.length ≤ cfg.flushCap.toNat ∧
      sizeofEntry T + data.length < T.modulus
  | .flushBin => True
  | _ => False

/-- The record is larger than `cap`, or `mpsc_acquire` returns -1. -/
def Dropped (log : Log T) (id : Usz T) (data : List Byte) : Prop :=
  log.cfg.cap.toNat < sizeofEntry T + data.length ∨
    ∃ mpsc, mpscAcquire (mpscReg log.mpsc id.toNat) id.toNat (BitVec.ofNat _ (sizeofEntry T + data.length)) = some (none, mpsc)

theorem logWriteBin_stored {log log' : Log T} {ts : BitVec 64} {id : Usz T} {data : List Byte} {stored : Bool}
    (word : sizeofEntry T + data.length < T.modulus) (run : logWriteBin log ts id data = some (stored, log')) :
    stored = false ↔ Dropped log id data := by
  have total : (BitVec.ofNat T.bits (sizeofEntry T) + BitVec.ofNat T.bits data.length) =
      BitVec.ofNat T.bits (sizeofEntry T + data.length) := (BitVec.ofNat_add _ _).symm
  have stored := writeRecord_stored run
  rw [total, gt_iff_lt, BitVec.lt_def, toNat_length word] at stored
  exact stored

/-- What `f_flush` was handed is what was accepted first, a flush hands over the rest,
and a write is dropped only if its record does not fit, and then leaves the ring as it was. -/
structure Delivers (s : Run T) (cfg : LogCfg T) (nproducers : Nat) : Prop where
  order : s.log.flushed <+: s.payloads
  flush : ∃ t, callStep .flushBin s = some t ∧ t.log.flushed = s.payloads ∧ t.payloads = s.payloads
  drop : ∀ ts id data, BinCall cfg nproducers (.writeBin ts id data) →
    ∃ stored log', logWriteBin s.log ts id data = some (stored, log') ∧
      (stored = false ↔ Dropped s.log id data) ∧ (stored = false → Untouched s.log.mpsc log'.mpsc)

structure DeliveryInv (s : Run T) (cfg : LogCfg T) : Prop where
  run : RunInv s
  config : s.log.cfg = cfg
  idle : s.log.busy = false
  whole : s.log.flushed ++ s.pending.map Prod.snd = s.payloads
  short : ∀ record ∈ s.accepted, record.2.length ≤ cfg.flushCap.toNat

section Steps
variable (cells : 0 < cfg.cap.toNat) (field : cfg.cap.toNat ≤ (offsetMask T).toNat) (sync : cfg.eMode = .sync)

include cells field in
theorem DeliveryInv.spared (inv : DeliveryInv s cfg) {ts : BitVec 64} {id : Usz T} {data : List Byte}
    (proper : BinCall cfg nproducers (.writeBin ts id data)) :
    SparedWrite s.log (binRecord ts id data) := by
  obtain ⟨_, _, word⟩ := proper
  refine ⟨toNat_length ?_, word, ?_⟩
  · exact Nat.lt_of_le_of_lt (Nat.le_add_left _ _) word
  · intro fits
    have cap := inv.run.waiting.cap
    have cap' := inv.config
    rcases inv.run.waiting.ring with holds | ⟨dry, _⟩
    · obtain ⟨rp, off⟩ := holds.inside
      rw [cap, cap'] at rp off
      rw [cap'] at fits ⊢
      exact .of_le field off fits (Nat.le_of_lt rp)
    · rw [dry.cap, cap'] at cap
      rw [← cap] at cells
      simp at cells

/-- The list of the records handed over is the list of their payloads. -/
theorem forall₂_payloads {records : List (Record T)} {lists : List (List Byte)}
    (each : List.Forall₂ (fun record bytes => bytes = record.2) records lists) :
    lists = records.map Prod.snd := by
  induction each with
  | nil => rfl
  | cons same _ ih => rw [same, ih, List.map_cons]

include sync in
theorem DeliveryInv.flush (inv : DeliveryInv s cfg) :
    ∃ t, callStep .flushBin s = some t ∧ t.log.flushed = s.payloads ∧ t.payloads = s.payloads ∧
      DeliveryInv t cfg := by
  have all : batch s.log s.pending = s.pending := by
    rw [batch, if_neg (by simp [inv.idle]), inv.config, sync]
  have fits : ∀ record ∈ batch s.log s.pending, binFit s.log.cfg record := by
    intro record member
    rw [all] at member
    rw [binFit, inv.config]
    exact inv.short record (List.mem_of_mem_drop member)
  obtain ⟨log', run, flushed⟩ := flushBinPass_flushes.loop inv.run.waiting fits
  obtain ⟨lists, append, each⟩ := flushed.handed
  rw [all] at each
  have delivered : log'.flushed = s.payloads := by
    rw [append, forall₂_payloads each, inv.whole]
  refine ⟨{ s with log := log' }, congrArg (Option.map _) run, delivered, rfl, inv.run.flushed flushed,
    flushed.cfg.trans inv.config, ?_, ?_, inv.short⟩
  · have busy := flushed.busy (by rw [inv.config, sync])
    exact busy.trans inv.idle
  · have none : Run.pending { s with log := log' } = [] := by
      apply List.drop_eq_nil_of_le
      rw [delivered, Run.payloads, List.length_map]
    rw [none, delivered]
    simp [Run.payloads]

include cells field in
theorem DeliveryInv.write (inv : DeliveryInv s cfg) {ts : BitVec 64} {id : Usz T} {data : List Byte}
    (proper : BinCall cfg nproducers (.writeBin ts id data)) :
    ∃ stored log', logWriteBin s.log ts id data = some (stored, log') ∧
      DeliveryInv (s.accept (binRecord ts id data) (stored, log')) cfg ∧
      (stored = false → Untouched s.log.mpsc log'.mpsc) := by
  obtain ⟨stored, mpsc, run, inv', untouched⟩ := inv.run.write (inv.spared cells field proper)
  refine ⟨stored, _, run, ⟨inv', inv.config, inv.idle, ?_, ?_⟩, untouched⟩
  · cases stored with
    | false => exact inv.whole
    | true =>
      have pending : Run.pending (s.accept (binRecord ts id data) (true, { s.log with mpsc })) =
          s.pending ++ [binRecord ts id data] := List.drop_append_of_le_length inv.run.count
      rw [pending, List.map_append, ← List.append_assoc]
      have whole := inv.whole
      simp only [Run.payloads, Run.accept, if_true, List.map_append] at whole ⊢
      rw [whole]
  · cases stored with
    | false => exact inv.short
    | true =>
      intro record member
      rcases List.mem_append.mp member with old | new
      · exact inv.short record old
      · rw [List.mem_singleton.mp new]
        exact proper.2.1

include cells field sync in
theorem DeliveryInv.step (inv : DeliveryInv s cfg) {call : Call T} (proper : BinCall cfg nproducers call) :
    ∃ t, callStep call s = some t ∧ DeliveryInv t cfg := by
  cases call with
  | writeBin ts id data =>
    obtain ⟨stored, log', run, inv', _⟩ := inv.write cells field proper
    exact ⟨_, congrArg (Option.map _) run, inv'⟩
  | flushBin =>
    obtain ⟨t, run, _, _, inv'⟩ := inv.flush sync
    exact ⟨t, run, inv'⟩
  | write | flush | complete => cases proper

include cells field sync in
theorem DeliveryInv.delivers (inv : DeliveryInv s cfg) : Delivers s cfg nproducers where
  order := ⟨_, inv.whole⟩
  flush := by
    obtain ⟨t, run, delivered, same, _⟩ := inv.flush sync
    exact ⟨t, run, delivered, same⟩
  drop := by
    intro ts id data proper
    obtain ⟨stored, log', run, _, untouched⟩ := inv.write cells field proper
    exact ⟨stored, log', run, logWriteBin_stored proper.2.2 run, untouched⟩

end Steps

/-- Whatever writes and flushes are made, every call returns, and the byte strings handed to `f_flush` are the payloads of
the writes that were not dropped, each whole, once and in order. -/
theorem bin_calls_deliver {calls : List (Call T)} {buf flushBuf : Nat → Byte}
    (cells : 0 < cfg.cap.toNat) (field : cfg.cap.toNat ≤ (offsetMask T).toNat) (sync : cfg.eMode = .sync)
    (proper : ∀ call ∈ calls, BinCall cfg nproducers call) :
    ∃ s, runs callStep calls (runStart cfg buf flushBuf nproducers) = some s ∧ Delivers s cfg nproducers := by
  have start : DeliveryInv (runStart cfg buf flushBuf nproducers) cfg := by
    refine ⟨.start cfg buf flushBuf nproducers ?_, rfl, rfl, rfl, nofun⟩
    exact Nat.le_trans field (Nat.le_of_lt mask_lt_offsetMax)
  have admits : ∀ s, Admits callStep (fun call _ => BinCall cfg nproducers call) calls s := by
    induction calls with
    | nil => exact fun _ => trivial
    | cons call calls ih =>
      intro s
      exact ⟨proper call List.mem_cons_self,
        fun t _ => ih (fun other member => proper other (List.mem_cons_of_mem call member)) t⟩
  obtain ⟨s, run, inv⟩ := runs_total (P := fun s => DeliveryInv s cfg)
    (fun inv proper => inv.step cells field sync proper) start (admits _)
  exact ⟨s, run, inv.delivers cells field sync⟩

/-- The third write does not fit, and is dropped. -/
theorem bin_calls_deliver_three :
    ∃ s : Run .host, runs callStep [.writeBin 0 0 [1, 2], .flushBin, .writeBin 1 0 [], .writeBin 2 0 [3]]
        (runStart ⟨.sync, 30, 8⟩ (fun _ => 0) (fun _ => 0) 1) = some s ∧
      Delivers s ⟨.sync, 30, 8⟩ 1 :=
  bin_calls_deliver (by decide) (by decide) rfl (by simp [BinCall]; decide)

end AvaModule.RingLog
