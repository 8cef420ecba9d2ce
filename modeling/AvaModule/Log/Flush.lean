import AvaModule.Log.Records
import AvaModule.Lib.Transition
import Mathlib.Data.List.Forall2

/-! The flush loops over the records that wait, and runs of the calls of a log. -/
namespace AvaModule.RingLog
open MpscRing Memory

variable {T : Target} {log log' : Log T} {record : Record T} {records rest : List (Record T)}
  {pass : Log T → Option (Bool × Log T)} {fit : LogCfg T → Record T → Prop}
  {good : Record T → List Byte → Prop}

/-- The records one flush hands over: all of them, or in asynchronous mode the first,
or none while a transfer is under way. -/
def batch (log : Log T) (records : List (Record T)) : List (Record T) :=
  if log.busy then []
  else match log.cfg.eMode with
    | .sync => records
    | .async => records.take 1

/-- The stores of a call stay inside `flush_buf`. -/
def Bounded (log log' : Log T) : Prop :=
  ∃ more, log'.touched = log.touched ++ more ∧ ∀ i ∈ more, i < log.cfg.flushCap.toNat

/-- One pass ends the loop over an empty ring, and else hands the first record over. -/
structure Flushes (pass : Log T → Option (Bool × Log T)) (fit : LogCfg T → Record T → Prop)
    (good : Record T → List Byte → Prop) : Prop where
  none : ∀ {log}, Waiting log [] →
    ∃ mpsc, pass log = some (false, { log with mpsc }) ∧ Waiting { log with mpsc } []
  first : ∀ {log record rest}, Waiting log (record :: rest) → fit log.cfg record →
    ∃ log' bytes, pass log = some (true, log') ∧ Waiting log' rest ∧ Handed log log' bytes ∧
      good record bytes

def binFit (cfg : LogCfg T) (record : Record T) : Prop := record.2.length ≤ cfg.flushCap.toNat

theorem flushBinPass_flushes :
    Flushes (T := T) flushBinPass binFit (fun record bytes => bytes = record.2) where
  none := by
    intro log waiting
    obtain ⟨mpsc, header, waiting'⟩ := waiting.readEntry_none
    refine ⟨mpsc, ?_, waiting'⟩
    simp only [flushBinPass, header, Option.bind_eq_bind, Option.bind_some]
    rfl
  first := by
    intro log record rest waiting fit
    obtain ⟨log', run, waiting', handed⟩ := waiting.flushBinPass fit
    exact ⟨log', record.2, run, waiting', handed, rfl⟩

section Loop

/-- `while (!lo->busy)` -/
theorem flushLoop_busy (busy : log.busy = true) : flushLoop pass log = some log := by
  rw [flushLoop, Loop.run_eq]
  simp only [busy, if_true]
  rfl

theorem flushLoop_pass {again : Bool} (idle : log.busy = false) (run : pass log = some (again, log')) :
    flushLoop pass log = if again then flushLoop pass log' else some log' := by
  rw [flushLoop, Loop.run_eq]
  simp only [idle, run]
  cases again <;> rfl

/-- What a flush leaves, when what it hands over fits `flush_buf`. -/
structure Flushed (log log' : Log T) (records : List (Record T)) (good : Record T → List Byte → Prop) :
    Prop where
  cfg : log'.cfg = log.cfg
  waiting : Waiting log' (records.drop (batch log records).length)
  handed : ∃ lists, log'.flushed = log.flushed ++ lists ∧ List.Forall₂ good (batch log records) lists
  bounded : Bounded log log'
  busy : log.cfg.eMode = .sync → log'.busy = log.busy

/-- The loop ends, and hands over the batch. -/
theorem Flushes.loop (flushes : Flushes pass fit good) (waiting : Waiting log records)
    (fits : ∀ record ∈ batch log records, fit log.cfg record) :
    ∃ log', flushLoop pass log = some log' ∧ Flushed log log' records good := by
  induction records generalizing log with
  | nil =>
    have nothing : batch log [] = [] := by
      unfold batch
      split
      · rfl
      · split <;> rfl
    cases busy : log.busy with
    | true =>
      refine ⟨log, flushLoop_busy busy, rfl, ?_, ⟨[], ?_, ?_⟩, ⟨[], by simp, nofun⟩, fun _ => rfl⟩
      · simpa using waiting
      · simp
      · rw [nothing]
        exact .nil
    | false =>
      obtain ⟨mpsc, run, waiting'⟩ := flushes.none waiting
      refine ⟨{ log with mpsc }, flushLoop_pass busy run, rfl, ?_, ⟨[], ?_, ?_⟩, ⟨[], by simp, nofun⟩,
        fun _ => rfl⟩
      · simpa using waiting'
      · simp
      · rw [nothing]
        exact .nil
  | cons record rest ih =>
    cases busy : log.busy with
    | true =>
      have nothing : batch log (record :: rest) = [] := if_pos busy
      refine ⟨log, flushLoop_busy busy, rfl, ?_, ⟨[], ?_, ?_⟩, ⟨[], by simp, nofun⟩, fun _ => rfl⟩
      · rwa [nothing]
      · simp
      · rw [nothing]
        exact .nil
    | false =>
      have idle : ¬log.busy = true := by simp [busy]
      cases mode : log.cfg.eMode with
      | sync =>
        have all : batch log (record :: rest) = record :: rest := by
          rw [batch, if_neg idle, mode]
        rw [all] at fits
        obtain ⟨log', bytes, run, waiting', handed, fine⟩ := flushes.first waiting (fits _ List.mem_cons_self)
        have idle' : log'.busy = false := by simp [handed.busy, mode]
        have mode' : log'.cfg.eMode = .sync := by rw [handed.cfg, mode]
        have all' : batch log' rest = rest := by
          rw [batch, if_neg (by simp [idle']), mode']
        obtain ⟨log'', loop, flushed⟩ := ih waiting' (by
          intro other member
          rw [all'] at member
          rw [handed.cfg]
          exact fits other (List.mem_cons_of_mem record member))
        obtain ⟨lists, append, each⟩ := flushed.handed
        obtain ⟨more, touched, inside⟩ := handed.touched
        obtain ⟨more', touched', inside'⟩ := flushed.bounded
        refine ⟨log'', ?_, flushed.cfg.trans handed.cfg, ?_, ⟨bytes :: lists, ?_, ?_⟩, ⟨more ++ more', ?_, ?_⟩, ?_⟩
        · rw [flushLoop_pass busy run]
          exact loop
        · have left := flushed.waiting
          rw [all'] at left
          rw [all]
          simpa using left
        · rw [append, handed.flushed, List.append_assoc]
          rfl
        · rw [all]
          rw [all'] at each
          exact .cons fine each
        · rw [touched', touched, List.append_assoc]
        · intro i member
          rcases List.mem_append.mp member with front | back
          · exact inside i front
          · rw [← handed.cfg]
            exact inside' i back
        · intro _
          rw [flushed.busy mode', idle', busy]
      | async =>
        have one : batch log (record :: rest) = [record] := by
          rw [batch, if_neg idle, mode]
          rfl
        rw [one] at fits
        obtain ⟨log', bytes, run, waiting', handed, fine⟩ := flushes.first waiting (fits _ List.mem_cons_self)
        have busy' : log'.busy = true := by simp [handed.busy, mode]
        refine ⟨log', ?_, handed.cfg, ?_, ⟨[bytes], handed.flushed, ?_⟩, handed.touched, ?_⟩
        · rw [flushLoop_pass busy run]
          exact flushLoop_busy busy'
        · rw [one]
          exact waiting'
        · rw [one]
          exact .cons fine .nil
        · intro sync
          rw [mode] at sync
          cases sync

end Loop

end AvaModule.RingLog
