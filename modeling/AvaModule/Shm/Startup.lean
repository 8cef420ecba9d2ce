import AvaModule.Shm.Model

/-! The creator's stores in `spsc_init_buf` interleaved with an opener that already
writes. Each store is a step; the opener's calls run as in the ring's own step
model. The opener's plain loads of `cap` and `e_policy` are made at its load of
`rp`: before the last store `rp` is zero at every point, and after it both are
fixed, so a later load would see the same. -/
namespace AvaModule.Shm
open SpscRing Transition Counter

variable {T : Target} {cap : Usz T}

/-- The creator's next store. -/
inductive InitPc where
  | ePolicy
  | cap
  | rp
  | wp
  | done
  deriving DecidableEq, Repr

structure Boot (T : Target) where
  pc : InitPc
  ring : St T

/-- The creator has found `cap` to be a power of two, in a zero-filled segment. -/
def boot : Boot T := ⟨.ePolicy, start zeroFilled⟩

/-- The creator reads only after its `shm_init` has returned. -/
inductive BootAct (T : Target) where
  | init
  | opener (act : Act T)
  | creator (act : Act T)

def initStep (cap : Usz T) (b : Boot T) : Option (Boot T) :=
  match b.pc with
  | .ePolicy => some { pc := .cap, ring := { b.ring with ePolicy := .reject } }
  | .cap => some { pc := .rp, ring := { b.ring with cap := cap } }
  | .rp => some { pc := .wp, ring := { b.ring with rp := 0 } }
  | .wp => some { pc := .done, ring := { b.ring with wp := 0 } }
  | .done => none

def bootStep (cap : Usz T) (act : BootAct T) (b : Boot T) : Option (Boot T) :=
  match act with
  | .init => initStep cap b
  | .opener (.write src) => (writeStep b.ring src).map (⟨b.pc, ·⟩)
  | .opener .writer => (writerStep b.ring).map (⟨b.pc, ·⟩)
  | .creator (.read size) => if b.pc = .done then (readStep b.ring size).map (⟨b.pc, ·⟩) else none
  | .creator .reader => if b.pc = .done then (readerStep b.ring).map (⟨b.pc, ·⟩) else none
  | _ => none

/-- The opener stores `wp` only after the creator's last store. -/
def PublishOk (act : BootAct T) (b : Boot T) : Prop :=
  match act, b.ring.writer with
  | .opener .writer, .copy _ _ size i => size.toNat ≤ i → b.pc = .done
  | _, _ => True

/-- Nothing is accepted yet and both counters are zero. -/
structure Fresh (s : St T) : Prop where
  accepted : s.accepted = []
  returned : s.returned = []
  reader : s.reader = .idle

/-- Before the store of `cap` every request is refused. -/
structure Closed (s : St T) : Prop extends Fresh s where
  cap : s.cap = 0
  wp : s.wp = 0
  rp : s.rp = 0
  writer : s.writer = .idle ∨ ∃ src, s.writer = .loadRp src 0 ∧ src.length < T.modulus

def BootInv (b : Boot T) : Prop :=
  b.ring.ePolicy ≠ .overwrite ∧
    match b.pc with
    | .ePolicy | .cap => Closed b.ring
    | .rp | .wp => Fresh b.ring ∧ Inv b.ring 0 0
    | .done => ∃ R E, Inv b.ring R E

theorem Closed.policy {s : St T} (closed : Closed s) (policy : s.ePolicy ≠ .overwrite) (n : Usz T) :
    spscPolicy s.ePolicy s.cap s.wp s.rp n = (0, none) := by
  have free : s.cap - (s.wp - s.rp) = 0 := by simp [closed.cap, closed.wp, closed.rp]
  simp only [spscPolicy, free]
  by_cases fits : n ≤ 0
  · rw [if_pos fits]
    simpa using fits
  · rw [if_neg fits]
    cases kind : s.ePolicy with
    | truncate => rfl
    | overwrite => exact absurd kind policy
    | reject => rfl

/-- The store of `cap` opens the ring. -/
theorem Closed.opens {s : St T} (closed : Closed s) (pow : ∃ k, cap.toNat = 2 ^ k) :
    Inv { s with cap := cap } 0 0 where
  pow := pow
  at_wp := by simp [closed.accepted, closed.wp, word]
  at_rp := by simp [closed.rp, word]
  behind := Nat.zero_le _
  space := by simp [closed.accepted]
  live := by simp [closed.accepted]
  writer := by
    rcases closed.writer with idle | ⟨src, loading, short⟩
    · simp [WriterInv, idle]
    · simp [WriterInv, loading, closed.wp, short]
  reader := by simp [ReaderInv, closed.reader]
  delivered := by
    simp only [closed.returned]
    exact .nil
  ends := Nat.le_refl 0
  exact := by simp [closed.returned]

theorem writeStep_boot {s t : St T} (run : writeStep s src = some t) :
    s.writer = .idle ∧ src.length < T.modulus ∧ t = { s with writer := .loadRp src s.wp } := by
  unfold writeStep at run
  split at run
  · next idle =>
    split at run
    · next short => exact ⟨idle, short, (Option.some.inj run).symm⟩
    · cases run
  · cases run

/-- A step of the writer that does not store `wp` leaves the record of both sides alone. -/
theorem writerStep_fresh {s t : St T} (fresh : Fresh s) (run : writerStep s = some t)
    (silent : ∀ src wp size i, s.writer = .copy src wp size i → i < size.toNat) : Fresh t := by
  obtain ⟨accepted, returned, reader⟩ := fresh
  unfold writerStep at run
  split at run
  · cases run
  · dsimp only at run
    split at run
    all_goals
      cases run
      exact ⟨accepted, returned, reader⟩
  · cases run
    exact ⟨accepted, returned, reader⟩
  · next src wp size i pc =>
    rw [if_pos (silent _ _ _ _ pc)] at run
    cases run
    exact ⟨accepted, returned, reader⟩

theorem Inv.at_start {s : St T} (inv : Inv s R E) (nothing : s.accepted = []) : Inv s 0 0 := by
  have behind := inv.behind
  have ends := inv.ends
  rw [nothing, List.length_nil] at behind
  obtain rfl : R = 0 := by omega
  obtain rfl : E = 0 := by omega
  exact inv

theorem initStep_inv (pow : ∃ k, cap.toNat = 2 ^ k) {b b' : Boot T} (inv : BootInv b)
    (run : initStep cap b = some b') : BootInv b' := by
  obtain ⟨policy, inv⟩ := inv
  obtain ⟨pc, s⟩ := b
  cases pc with
  | ePolicy =>
    cases run
    exact ⟨nofun, { inv with }⟩
  | cap =>
    cases run
    exact ⟨policy, ⟨inv.accepted, inv.returned, inv.reader⟩, inv.opens pow⟩
  | rp =>
    cases run
    have zero : s.rp = 0 := inv.2.at_rp
    have same : { s with rp := 0 } = s := by rw [← zero]
    exact ⟨policy, same ▸ inv⟩
  | wp =>
    cases run
    have zero : s.wp = 0 := by
      rw [inv.2.at_wp, inv.1.accepted]
      rfl
    have same : { s with wp := 0 } = s := by rw [← zero]
    exact ⟨policy, 0, 0, same ▸ inv.2⟩
  | done => cases run

theorem openerWrite_inv {b : Boot T} {t : St T} (inv : BootInv b)
    (run : writeStep b.ring src = some t) : BootInv ⟨b.pc, t⟩ := by
  obtain ⟨policy, inv⟩ := inv
  obtain ⟨idle, short, same⟩ := writeStep_boot run
  have closed : Closed b.ring → Closed t := by
    intro closed
    rw [same]
    exact { closed with writer := .inr ⟨src, by simp [closed.wp], short⟩ }
  refine ⟨by rw [same]; exact policy, ?_⟩
  obtain ⟨pc, s⟩ := b
  cases pc with
  | ePolicy => exact closed inv
  | cap => exact closed inv
  | rp | wp =>
    obtain ⟨fresh, inv⟩ := inv
    have fresh' : Fresh t := by
      rw [same]
      exact { fresh with }
    obtain ⟨_, _, inv', _⟩ := writeStep_advanced inv run
    exact ⟨fresh', Inv.at_start inv' fresh'.accepted⟩
  | done =>
    obtain ⟨R, E, inv⟩ := inv
    obtain ⟨R', E', inv', _⟩ := writeStep_advanced inv run
    exact ⟨R', E', inv'⟩

/-- Before the store of `cap` a call of the opener ends with nothing written. -/
theorem Closed.writerStep {s t : St T} (closed : Closed s) (policy : s.ePolicy ≠ .overwrite)
    (run : writerStep s = some t) : Closed t ∧ t.ePolicy = s.ePolicy := by
  rcases closed.writer with idle | ⟨src, loading, _⟩
  · simp [SpscRing.writerStep, idle] at run
  · have refused := closed.policy policy (BitVec.ofNat _ src.length)
    rw [closed.wp] at refused
    simp only [SpscRing.writerStep, loading, refused, beginWrite, if_pos, Option.some.injEq] at run
    subst run
    exact ⟨{ closed with writer := .inl rfl }, rfl⟩

theorem openerWriter_inv {b : Boot T} {t : St T} (inv : BootInv b)
    (ok : PublishOk (.opener .writer) b) (run : writerStep b.ring = some t) : BootInv ⟨b.pc, t⟩ := by
  obtain ⟨policy, inv⟩ := inv
  have allowed : ActOk (.writer : Act T) b.ring := fun overwrite => absurd overwrite policy
  obtain ⟨pc, s⟩ := b
  have silent : pc ≠ .done → ∀ src wp size i, s.writer = .copy src wp size i → i < size.toNat := by
    intro running src wp size i copying
    by_contra full
    simp only [PublishOk, copying] at ok
    exact running (ok (Nat.le_of_not_lt full))
  cases pc with
  | ePolicy | cap =>
    obtain ⟨closed, same⟩ := Closed.writerStep inv policy run
    exact ⟨same ▸ policy, closed⟩
  | rp | wp =>
    obtain ⟨fresh, inv⟩ := inv
    have fresh' := writerStep_fresh fresh run (silent nofun)
    obtain ⟨_, _, inv', _, _, _, same⟩ := step_advanced inv allowed run
    exact ⟨same ▸ policy, fresh', Inv.at_start inv' fresh'.accepted⟩
  | done =>
    obtain ⟨R, E, inv⟩ := inv
    obtain ⟨R', E', inv', _, _, _, same⟩ := step_advanced inv allowed run
    exact ⟨same ▸ policy, R', E', inv'⟩

theorem creator_inv {b : Boot T} {t : St T} {act : Act T} (inv : BootInv b) (ready : b.pc = .done)
    (run : SpscRing.step act b.ring = some t) : BootInv ⟨b.pc, t⟩ := by
  obtain ⟨policy, inv⟩ := inv
  obtain ⟨pc, s⟩ := b
  cases ready
  obtain ⟨R, E, inv⟩ := inv
  obtain ⟨R', E', inv', _, _, _, same⟩ :=
    step_advanced inv (fun overwrite => absurd overwrite policy) run
  exact ⟨same ▸ policy, R', E', inv'⟩

theorem bootStep_inv (pow : ∃ k, cap.toNat = 2 ^ k) {b b' : Boot T} (inv : BootInv b)
    (ok : PublishOk act b) (run : bootStep cap act b = some b') : BootInv b' := by
  cases act with
  | init => exact initStep_inv pow inv run
  | opener act =>
    cases act with
    | write src =>
      obtain ⟨t, next, rfl⟩ := Option.map_eq_some_iff.mp run
      exact openerWrite_inv inv next
    | writer =>
      obtain ⟨t, next, rfl⟩ := Option.map_eq_some_iff.mp run
      exact openerWriter_inv inv ok next
    | read size => cases run
    | reader => cases run
  | creator act =>
    cases act with
    | write src => cases run
    | writer => cases run
    | read size =>
      simp only [bootStep] at run
      split at run
      · next ready =>
        obtain ⟨t, next, rfl⟩ := Option.map_eq_some_iff.mp run
        exact creator_inv inv ready (show SpscRing.step (.read size) b.ring = some t from next)
      · cases run
    | reader =>
      simp only [bootStep] at run
      split at run
      · next ready =>
        obtain ⟨t, next, rfl⟩ := Option.map_eq_some_iff.mp run
        exact creator_inv inv ready (show SpscRing.step .reader b.ring = some t from next)
      · cases run

/-- The step model's ring holds what is accepted and not yet passed by the reader. -/
theorem Inv.holds {s : St T} (inv : Inv s R E) : Holds s.toSpsc R (s.accepted.drop R) where
  pow := inv.pow
  at_rp := inv.at_rp
  at_wp := by
    rw [inv.at_wp, List.length_drop]
    congr 1
    have := inv.behind
    omega
  bound := by
    have := inv.space
    rw [List.length_drop]
    omega
  cells := by
    intro i lt
    rw [List.length_drop] at lt
    have value := inv.live (R + i) (Nat.le_add_right R i) (by omega)
    rw [List.getElem?_eq_getElem (by omega), Option.some.injEq] at value
    rw [List.getElem_drop, value]

/-- In every run whose writes publish only after the creator's last store, what the
reader has returned and what a read would return now are together, in order, all
that was accepted. -/
theorem boot_delivers (pow : isPowerOf2 cap) (admits : Admits (bootStep cap) PublishOk acts boot)
    (run : runs (bootStep cap) acts boot = some b) :
    b.ring.returned.flatten ++ (spscReadBuf b.ring.toSpsc (spscAvail b.ring.toSpsc)).1 =
      b.ring.accepted := by
  have closed : Closed (start zeroFilled : St T) := ⟨⟨rfl, rfl, rfl⟩, rfl, rfl, rfl, .inl rfl⟩
  have first : BootInv (boot : Boot T) := ⟨(nomatch ·), closed⟩
  have inv : BootInv b := runs_invariant (fun inv ok next => bootStep_inv (isPowerOf2_toNat pow) inv ok next)
    first admits run
  obtain ⟨policy, inv⟩ := inv
  have open_ : ∀ {R E}, Inv b.ring R E → b.ring.returned.flatten ++
      (spscReadBuf b.ring.toSpsc (spscAvail b.ring.toSpsc)).1 = b.ring.accepted := by
    intro R E inv
    obtain ⟨t, read, _⟩ := (Inv.holds inv).readBuf (spscAvail b.ring.toSpsc)
    rw [read, (Inv.holds inv).avail, List.take_length, inv.exact policy]
    exact List.take_append_drop R b.ring.accepted
  have still : Closed b.ring → b.ring.returned.flatten ++
      (spscReadBuf b.ring.toSpsc (spscAvail b.ring.toSpsc)).1 = b.ring.accepted := by
    intro closed
    simp [closed.accepted, closed.returned, spscReadBuf, spscAvail, closed.wp, closed.rp]
  cases phase : b.pc with
  | ePolicy | cap =>
    rw [phase] at inv
    exact still inv
  | rp | wp =>
    rw [phase] at inv
    exact open_ inv.2
  | done =>
    rw [phase] at inv
    obtain ⟨R, E, inv⟩ := inv
    exact open_ inv

/-- A byte written after the four stores is read. -/
theorem boot_delivers_after_init :
    ∃ b : Boot .host, runs (bootStep 8) [.init, .init, .init, .init, .opener (.write [7]),
        .opener .writer, .opener .writer, .opener .writer, .creator (.read 1), .creator .reader,
        .creator .reader, .creator .reader] boot = some b ∧ b.ring.returned = [[7]] ∧
      b.ring.returned.flatten ++ (spscReadBuf b.ring.toSpsc (spscAvail b.ring.toSpsc)).1 =
        b.ring.accepted := by
  obtain ⟨b, run, got⟩ : ∃ b : Boot .host, runs (bootStep 8) [.init, .init, .init, .init,
      .opener (.write [7]), .opener .writer, .opener .writer, .opener .writer, .creator (.read 1),
      .creator .reader, .creator .reader, .creator .reader] boot = some b ∧ b.ring.returned = [[7]] :=
    ⟨_, rfl, rfl⟩
  have admits : Admits (bootStep 8) PublishOk [.init, .init, .init, .init, .opener (.write [7]),
      .opener .writer, .opener .writer, .opener .writer, .creator (.read 1), .creator .reader,
      .creator .reader, .creator .reader] (boot : Boot .host) := by
    iterate 6 refine .cons trivial rfl ?_
    iterate 2 refine .cons (fun _ => rfl) rfl ?_
    iterate 4 refine .cons trivial rfl ?_
    trivial
  exact ⟨b, run, got, boot_delivers (by decide) admits run⟩

/-- The opener writes between the stores of `cap` and `wp`: its call takes the byte,
the store of `wp` forgets it, and the reader finds an empty ring. -/
theorem boot_loses :
    ∃ b : Boot .host, runs (bootStep 8) [.init, .init, .opener (.write [7]), .opener .writer,
        .opener .writer, .opener .writer, .init, .init, .creator (.read 1), .creator .reader] boot = some b ∧
      b.pc = .done ∧ b.ring.writer = .idle ∧ b.ring.reader = .idle ∧ b.ring.accepted = [7] ∧
      b.ring.returned = [[]] ∧
      b.ring.returned.flatten ++ (spscReadBuf b.ring.toSpsc (spscAvail b.ring.toSpsc)).1 ≠
        b.ring.accepted := by
  refine ⟨_, rfl, rfl, rfl, rfl, rfl, rfl, ?_⟩
  decide

end AvaModule.Shm
