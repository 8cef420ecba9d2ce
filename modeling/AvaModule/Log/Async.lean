import AvaModule.Log.Model
import AvaModule.Lib.Transition

/-! The steps of a flush in asynchronous mode, the interrupt that ends a transfer, and
the producers in between. `f_flush` starts a transfer; `busy` is set once it returns. -/
namespace AvaModule.RingLog
open MpscRing Memory Transition

variable {T : Target}

/-- Where the one consumer is. `text` tells `log_flush` from `log_flush_bin`. -/
inductive FlushPc (T : Target) where
  | out
  | check (text : Bool)
  | header (text : Bool)
  | print (entry : Entry T)
  | payload (text : Bool) (entry : Entry T) (base : Usz T)
  | flush (text : Bool) (totalSize : Usz T)
  | setBusy (text : Bool)

/-- `outstanding` says that a transfer is under way, `overwritten` that a store reached
`flush_buf` during one. No call reads them. -/
structure Async (T : Target) where
  log : Log T
  pc : FlushPc T
  outstanding : Bool
  overwritten : Bool

/-- `complete` is the interrupt; `ring` is whatever the producers do to the ring. -/
inductive FlushAct (T : Target) where
  | call (text : Bool)
  | next
  | complete
  | ring (mpsc : Mpsc T)

/-- A store through `flush_buf`. -/
def Async.stored (s : Async T) (log : Log T) : Async T :=
  { s with log := log, overwritten := s.overwritten || s.outstanding }

def flushNext (s : Async T) : Option (Async T) :=
  match s.pc with
  | .out => none
  | .check text => some { s with pc := if s.log.busy then .out else .header text }
  | .header text =>
      match readEntry s.log with
      | none => none
      | some (none, log) => some { s with log := log, pc := .out }
      | some (some entry, log) =>
          some { s with log := log, pc := if text then .print entry else .payload false entry 0 }
  | .print entry =>
      let line := entryText entry
      some { s.stored (s.log.store 0 (truncated s.log.cfg.flushCap.toNat line)) with
        pc := .payload true entry (BitVec.ofNat _ line.length) }
  | .payload text entry base =>
      match readInto s.log base entry.size with
      | none => none
      | some (n, log) => some { s.stored log with pc := .flush text (base + n) }
  | .flush text totalSize =>
      some { s with log := fFlush s.log totalSize, pc := .setBusy text, outstanding := true }
  | .setBusy text => some { s with log := setBusy s.log, pc := .check text }

def asyncStep (act : FlushAct T) (s : Async T) : Option (Async T) :=
  match act with
  | .call text =>
      match s.pc with
      | .out => some { s with pc := .check text }
      | _ => none
  | .next => flushNext s
  | .complete =>
      if s.outstanding then some { s with log := { s.log with busy := false }, outstanding := false }
      else none
  | .ring mpsc => some { s with log := { s.log with mpsc := mpsc } }

def asyncStart (cfg : LogCfg T) (buf flushBuf : Nat → Byte) (nproducers : Nat) : Async T :=
  ⟨logInit cfg buf flushBuf nproducers, .out, false, false⟩

/-- The flag is about to be set. -/
def FlushPc.Setting (pc : FlushPc T) : Prop :=
  match pc with
  | .setBusy _ => True
  | _ => False

/-- The consumer reads a record, and stores it through `flush_buf`. -/
def FlushPc.Filling (pc : FlushPc T) : Prop :=
  match pc with
  | .header _ | .print _ | .payload .. => True
  | _ => False

section Steps
variable {s t : Async T} {act : FlushAct T}

theorem readEntry_frame {log log' : Log T} {entry : Option (Entry T)} (run : readEntry log = some (entry, log')) :
    ∃ mpsc, log' = { log with mpsc } := by
  obtain ⟨⟨bytes, mpsc⟩, _, run⟩ := Option.bind_eq_some_iff.mp run
  cases run
  exact ⟨mpsc, rfl⟩

theorem readInto_frame {log log' : Log T} {base size n : Usz T} (run : readInto log base size = some (n, log')) :
    ∃ mpsc bytes, log' = Log.store { log with mpsc } base.toNat bytes := by
  obtain ⟨⟨bytes, mpsc⟩, _, run⟩ := Option.bind_eq_some_iff.mp run
  cases run
  exact ⟨mpsc, bytes, rfl⟩

/-- What the steps of a flush that read and store leave alone. -/
structure Filled (s t : Async T) : Prop where
  busy : t.log.busy = s.log.busy
  cfg : t.log.cfg = s.log.cfg
  outstanding : t.outstanding = s.outstanding
  overwritten : s.outstanding = false → t.overwritten = s.overwritten
  setting : ¬t.pc.Setting

theorem flushNext_filling (filling : s.pc.Filling) (run : flushNext s = some t) : Filled s t := by
  obtain ⟨log, pc, outstanding, overwritten⟩ := s
  cases pc with
  | out | check | flush | setBusy => cases filling
  | header text =>
    cases read : readEntry log with
    | none =>
      simp only [flushNext, read] at run
      cases run
    | some result =>
      obtain ⟨entry, log'⟩ := result
      obtain ⟨mpsc, rfl⟩ := readEntry_frame read
      cases entry with
      | none =>
        simp only [flushNext, read, Option.some.injEq] at run
        subst run
        exact ⟨rfl, rfl, rfl, fun _ => rfl, nofun⟩
      | some entry =>
        simp only [flushNext, read, Option.some.injEq] at run
        subst run
        refine ⟨rfl, rfl, rfl, fun _ => rfl, ?_⟩
        cases text <;> exact nofun
  | print entry =>
    cases run
    refine ⟨rfl, rfl, rfl, ?_, nofun⟩
    intro none
    obtain rfl : outstanding = false := none
    exact Bool.or_false _
  | payload text entry base =>
    cases read : readInto log base entry.size with
    | none =>
      simp only [flushNext, read] at run
      cases run
    | some result =>
      obtain ⟨n, log'⟩ := result
      obtain ⟨mpsc, bytes, rfl⟩ := readInto_frame read
      simp only [flushNext, read, Option.some.injEq] at run
      subst run
      refine ⟨rfl, rfl, rfl, ?_, nofun⟩
      intro none
      obtain rfl : outstanding = false := none
      exact Bool.or_false _

/-- Alone, the steps make up the passes of `log_flush_bin`. -/
theorem flushBinPass_steps {again : Bool} {log' : Log T} (pc : s.pc = .header false)
    (run : flushBinPass s.log = some (again, log')) :
    ∃ n t, runs asyncStep (List.replicate n .next) s = some t ∧ t.log = log' ∧
      t.pc = if again then .check false else .out := by
  obtain ⟨⟨entry, log⟩, header, run⟩ := Option.bind_eq_some_iff.mp run
  cases entry with
  | none =>
    cases run
    refine ⟨1, { s with log := log', pc := .out }, ?_, rfl, rfl⟩
    simp only [List.replicate, runs, asyncStep, flushNext, pc, header, Option.bind_some]
  | some entry =>
    obtain ⟨⟨n, filled⟩, body, run⟩ := Option.bind_eq_some_iff.mp run
    cases run
    let read := { s with log := log, pc := .payload false entry 0 }
    have first : flushNext s = some read := by
      simp only [flushNext, pc, header]
      rfl
    have second : flushNext read = some { read.stored filled with pc := .flush false n } := by
      have sum : (0 : Usz T) + n = n := BitVec.zero_add n
      simp only [read, flushNext, body]
      rw [sum]
    refine ⟨4, { read.stored filled with
      log := setBusy (fFlush filled n), pc := .check false, outstanding := true }, ?_, rfl, rfl⟩
    simp only [List.replicate, runs, asyncStep, first, second, Option.bind_some]
    rfl

/-- And those of `log_flush`. -/
theorem flushPass_steps {again : Bool} {log' : Log T} (pc : s.pc = .header true)
    (run : flushPass s.log = some (again, log')) :
    ∃ n t, runs asyncStep (List.replicate n .next) s = some t ∧ t.log = log' ∧
      t.pc = if again then .check true else .out := by
  obtain ⟨⟨entry, log⟩, header, run⟩ := Option.bind_eq_some_iff.mp run
  cases entry with
  | none =>
    cases run
    refine ⟨1, { s with log := log', pc := .out }, ?_, rfl, rfl⟩
    simp only [List.replicate, runs, asyncStep, flushNext, pc, header, Option.bind_some]
  | some entry =>
    obtain ⟨⟨n, filled⟩, body, run⟩ := Option.bind_eq_some_iff.mp run
    cases run
    let text := entryText entry
    let printed := log.store 0 (truncated log.cfg.flushCap.toNat text)
    let read := { s with log := log, pc := .print entry }
    let stored := { read.stored printed with pc := .payload true entry (BitVec.ofNat _ text.length) }
    have first : flushNext s = some read := by
      simp only [flushNext, pc, header]
      rfl
    have second : flushNext read = some stored := rfl
    have third : flushNext stored =
        some { stored.stored filled with pc := .flush true (BitVec.ofNat _ text.length + n) } := by
      simp only [stored, printed, text, Async.stored, flushNext, body]
    refine ⟨5, { stored.stored filled with
      log := setBusy (fFlush filled (BitVec.ofNat _ text.length + n)), pc := .check true, outstanding := true },
      ?_, rfl, rfl⟩
    simp only [List.replicate, runs, asyncStep, first, second, third, Option.bind_some]
    rfl

end Steps

/-- While a transfer is under way the flag is set or about to be; nothing is filled in
before it has ended. -/
structure AsyncInv (s : Async T) : Prop where
  mode : s.log.cfg.eMode = .async
  clean : s.overwritten = false
  transfer : s.outstanding = true → s.log.busy = true ∨ s.pc.Setting
  filling : s.pc.Filling → s.log.busy = false ∧ s.outstanding = false

section Invariant
variable {s t : Async T} {act : FlushAct T}

theorem AsyncInv.fill (inv : AsyncInv s) (filling : s.pc.Filling) (run : flushNext s = some t) :
    AsyncInv t := by
  obtain ⟨busy, none⟩ := inv.filling filling
  obtain ⟨busy', cfg, outstanding, overwritten, _⟩ := flushNext_filling filling run
  have none' : t.outstanding = false := outstanding.trans none
  refine ⟨by rw [cfg, inv.mode], (overwritten none).trans inv.clean, ?_, fun _ => ⟨busy'.trans busy, none'⟩⟩
  intro under
  rw [none'] at under
  cases under

theorem AsyncInv.next (inv : AsyncInv s) (run : flushNext s = some t) : AsyncInv t := by
  cases pc : s.pc with
  | out =>
    rw [flushNext, pc] at run
    cases run
  | header | print | payload => exact inv.fill (by rw [pc]; trivial) run
  | check text =>
    obtain ⟨mode, clean, transfer, _⟩ := inv
    rw [pc] at transfer
    rw [flushNext, pc] at run
    cases run
    cases busy : s.log.busy with
    | true => exact ⟨mode, clean, fun _ => .inl busy, nofun⟩
    | false =>
      have none : s.outstanding = false := by
        by_contra under
        rcases transfer (by simpa using under) with set | setting
        · rw [busy] at set
          cases set
        · cases setting
      refine ⟨mode, clean, ?_, fun _ => ⟨busy, none⟩⟩
      intro under
      rw [none] at under
      cases under
  | flush text totalSize =>
    rw [flushNext, pc] at run
    cases run
    exact ⟨inv.mode, inv.clean, fun _ => .inr trivial, nofun⟩
  | setBusy text =>
    rw [flushNext, pc] at run
    cases run
    exact ⟨inv.mode, inv.clean, fun _ => .inl (by simp [setBusy, inv.mode]), nofun⟩

theorem AsyncInv.step (inv : AsyncInv s) (run : asyncStep act s = some t) : AsyncInv t := by
  cases act with
  | call text =>
    obtain ⟨mode, clean, transfer, filling⟩ := inv
    cases pc : s.pc <;> simp only [asyncStep, pc] at run <;> cases run
    refine ⟨mode, clean, ?_, nofun⟩
    intro under
    rcases transfer under with busy | setting
    · exact .inl busy
    · rw [pc] at setting
      cases setting
  | next => exact inv.next run
  | complete =>
    by_cases under : s.outstanding = true
    · rw [asyncStep, if_pos under] at run
      cases run
      exact ⟨inv.mode, inv.clean, nofun, fun _ => ⟨rfl, rfl⟩⟩
    · rw [asyncStep, if_neg under] at run
      cases run
  | ring mpsc =>
    cases run
    exact ⟨inv.mode, inv.clean, inv.transfer, inv.filling⟩

theorem AsyncInv.start {cfg : LogCfg T} (async : cfg.eMode = .async) (buf flushBuf : Nat → Byte)
    (nproducers : Nat) : AsyncInv (asyncStart cfg buf flushBuf nproducers) :=
  ⟨async, rfl, nofun, nofun⟩

/-- `flush_buf` is not written while a transfer is under way, whenever it ends. -/
theorem runs_clean {cfg : LogCfg T} {acts : List (FlushAct T)} {buf flushBuf : Nat → Byte} {nproducers : Nat}
    (async : cfg.eMode = .async) (run : runs asyncStep acts (asyncStart cfg buf flushBuf nproducers) = some s) :
    s.overwritten = false :=
  (runs_preserve (P := AsyncInv) (fun inv next => inv.step next) (.start async buf flushBuf nproducers) run).clean

end Invariant

section Pace
variable {s t : Async T} {act : FlushAct T} {cfg : LogCfg T} {acts : List (FlushAct T)}
  {buf flushBuf : Nat → Byte} {nproducers : Nat}

/-- A transfer ends only after the flush that started it has set the flag. -/
def EndsAfterSet (act : FlushAct T) (s : Async T) : Prop :=
  match act with
  | .complete => ¬s.pc.Setting
  | _ => True

/-- The flag, set or about to be, stands for a transfer under way. -/
structure Paced (s : Async T) : Prop where
  inv : AsyncInv s
  busy : s.log.busy = true → s.outstanding = true
  setting : s.pc.Setting → s.outstanding = true

/-- The buffer is never overwritten, and a log with nothing under way can be flushed. -/
structure NeverStuck (s : Async T) : Prop where
  clean : s.overwritten = false
  free : s.outstanding = false → s.pc = .out → s.log.busy = false

theorem Paced.next (paced : Paced s) (run : flushNext s = some t) : Paced t := by
  have inv := paced.inv.next run
  cases pc : s.pc with
  | out =>
    rw [flushNext, pc] at run
    cases run
  | header | print | payload =>
    obtain ⟨busy, _, outstanding, _, setting⟩ := flushNext_filling (by rw [pc]; trivial) run
    refine ⟨inv, ?_, fun set => absurd set setting⟩
    rw [busy, outstanding]
    exact paced.busy
  | check text =>
    rw [flushNext, pc] at run
    cases run
    refine ⟨inv, paced.busy, ?_⟩
    cases s.log.busy <;> exact nofun
  | flush text totalSize =>
    rw [flushNext, pc] at run
    cases run
    exact ⟨inv, fun _ => rfl, fun _ => rfl⟩
  | setBusy text =>
    have under := paced.setting (by rw [pc]; trivial)
    rw [flushNext, pc] at run
    cases run
    exact ⟨inv, fun _ => under, nofun⟩

theorem Paced.step (paced : Paced s) (after : EndsAfterSet act s) (run : asyncStep act s = some t) :
    Paced t := by
  have inv := paced.inv.step run
  cases act with
  | call text =>
    cases pc : s.pc <;> simp only [asyncStep, pc] at run <;> cases run
    exact ⟨inv, paced.busy, nofun⟩
  | next => exact paced.next run
  | complete =>
    by_cases under : s.outstanding = true
    · rw [asyncStep, if_pos under] at run
      cases run
      exact ⟨inv, nofun, fun setting => absurd setting after⟩
    · rw [asyncStep, if_neg under] at run
      cases run
  | ring mpsc =>
    cases run
    exact ⟨inv, paced.busy, paced.setting⟩

theorem Paced.neverStuck (paced : Paced s) : NeverStuck s where
  clean := paced.inv.clean
  free := by
    intro none _
    by_contra set
    have under := paced.busy (by simpa using set)
    rw [none] at under
    cases under

/-- Where every transfer ends after the flag is set, no run writes `flush_buf` during a
transfer, and none leaves the flag set for nothing. -/
theorem runs_neverStuck (async : cfg.eMode = .async)
    (admits : Admits asyncStep EndsAfterSet acts (asyncStart cfg buf flushBuf nproducers))
    (run : runs asyncStep acts (asyncStart cfg buf flushBuf nproducers) = some s) : NeverStuck s := by
  have start : Paced (asyncStart cfg buf flushBuf nproducers) :=
    ⟨.start async buf flushBuf nproducers, nofun, nofun⟩
  exact (runs_invariant (fun paced after next => paced.step after next) start admits run).neverStuck

/-- A record is written and handed over; its transfer ends after the flag is set. -/
theorem runs_neverStuck_one :
    ∃ (log : Log .host) (s : Async .host),
      logWriteBin (logInit ⟨.async, 64, 8⟩ (fun _ => 0) (fun _ => 0) 1) 0 0 [7] = some (true, log) ∧
      runs asyncStep [.ring log.mpsc, .call false, .next, .next, .next, .next, .next, .complete, .next]
        (asyncStart ⟨.async, 64, 8⟩ (fun _ => 0) (fun _ => 0) 1) = some s ∧
      s.log.flushed = [[7]] ∧ NeverStuck s := by
  obtain ⟨log, written, ⟨s, run, admits, flushed⟩⟩ : ∃ log : Log .host,
      logWriteBin (logInit ⟨.async, 64, 8⟩ (fun _ => 0) (fun _ => 0) 1) 0 0 [7] = some (true, log) ∧
      ∃ s, runs asyncStep [.ring log.mpsc, .call false, .next, .next, .next, .next, .next, .complete, .next]
        (asyncStart ⟨.async, 64, 8⟩ (fun _ => 0) (fun _ => 0) 1) = some s ∧
      Admits asyncStep EndsAfterSet
        [.ring log.mpsc, .call false, .next, .next, .next, .next, .next, .complete, .next]
        (asyncStart ⟨.async, 64, 8⟩ (fun _ => 0) (fun _ => 0) 1) ∧
      s.log.flushed = [[7]] := by
    refine ⟨_, rfl, _, rfl, ?_, by decide +kernel⟩
    iterate 7 refine .cons trivial rfl ?_
    exact .cons nofun rfl (.cons trivial rfl trivial)
  exact ⟨log, s, written, run, flushed, runs_neverStuck rfl admits run⟩

end Pace

section Stuck
variable {s t : Async T} {act : FlushAct T} {flushed : List (List Byte)}

/-- The flag is set, no interrupt is to come, and no flush gets past the check. -/
structure Stuck (s : Async T) (flushed : List (List Byte)) : Prop where
  busy : s.log.busy = true
  none : s.outstanding = false
  pc : s.pc = .out ∨ ∃ text, s.pc = .check text
  flushed : s.log.flushed = flushed

theorem Stuck.step (stuck : Stuck s flushed) (run : asyncStep act s = some t) : Stuck t flushed := by
  obtain ⟨busy, none, pc, same⟩ := stuck
  cases act with
  | call text =>
    rcases pc with pc | ⟨other, pc⟩ <;> simp only [asyncStep, pc] at run <;> cases run
    exact ⟨busy, none, .inr ⟨text, rfl⟩, same⟩
  | next =>
    rcases pc with pc | ⟨text, pc⟩ <;> simp only [asyncStep, flushNext, pc, busy] at run <;> cases run
    exact ⟨busy, none, .inl rfl, same⟩
  | complete =>
    rw [asyncStep, none] at run
    cases run
  | ring mpsc =>
    cases run
    exact ⟨busy, none, pc, same⟩

/-- Once the flag is set for nothing, no later call flushes anything. -/
theorem stuck_forever {acts : List (FlushAct T)} (stuck : Stuck s flushed)
    (run : runs asyncStep acts s = some t) : Stuck t flushed :=
  runs_preserve (P := fun s => Stuck s flushed) (fun stuck next => stuck.step next) stuck run

/-- The transfer of a short record ends before `f_flush` returns: the flag is set for
nothing, for good. -/
theorem flush_stuck :
    ∃ (log : Log .host) (s : Async .host),
      logWriteBin (logInit ⟨.async, 64, 8⟩ (fun _ => 0) (fun _ => 0) 1) 0 0 [7] = some (true, log) ∧
      runs asyncStep [.ring log.mpsc, .call false, .next, .next, .next, .next, .complete, .next, .next]
        (asyncStart ⟨.async, 64, 8⟩ (fun _ => 0) (fun _ => 0) 1) = some s ∧
      s.outstanding = false ∧ s.pc = .out ∧ s.log.busy = true ∧ ¬NeverStuck s := by
  refine ⟨_, _, rfl, rfl, rfl, rfl, rfl, ?_⟩
  intro never
  exact absurd (never.free rfl rfl) (by decide)

end Stuck

end AvaModule.RingLog
