import AvaModule.Ds.Mp.Inside

/-! Every interleaving of threads that call one pool: one thread at a time is under the lock, and the calls hand
back what they hand back when they are made one after the other. -/
namespace AvaModule.MemPool
open ListHead Memory DoublyLinked Tiling Transition Locked

variable {I : Type} {T : Target}

/-- What a thread relies on while it is not under the lock. -/
def Owns (cells : List (Cell I T)) (i : I) : Pc T → Prop
  | .spin op _ | .pause op _ _ => OpOk cells i op
  | .zero ptr cap _ => ⟨i, ptr, cap⟩ ∈ cells
  | _ => True

/-- The thread has the cell, and stores into it or zeroes it. -/
structure Touches (s : Threads I T) (i : I) (act : Act T) (x : Cell I T) : Prop where
  member : x ∈ s.cells
  holder : x.holder = i
  why : (∃ k byte, act = .store x.ptr k byte) ∨ ∃ k, s.pc i = .zero x.ptr x.cap k

/-- Only bytes of the cell differ. -/
def Confined (x : Cell I T) (m m' : Nat → Byte) : Prop :=
  ∀ a, (a < x.ptr.toNat ∨ x.ptr.toNat + x.cap.toNat ≤ a) → m' a = m a

/-- A step of a thread that is not under the lock, and does not take it. -/
structure Outer (s t : Threads I T) (i : I) (act : Act T) : Prop where
  before : ¬(s.pc i).Inside
  after : ¬(t.pc i).Inside
  owns : Owns s.cells i (t.pc i)
  mem : ∃ m, t.mp = { s.mp with mem := m } ∧ (m = s.mp.mem ∨ ∃ x, Touches s i act x ∧ Confined x s.mp.mem m)
  lets : ∀ x : Cell I T, act ≠ .call (.free x.ptr) → LetsBe x (s.pc i) → LetsBe x (t.pc i)
  others : ∀ j ≠ i, t.pc j = s.pc j
  cells : t.cells = s.cells
  done : t.done = s.done

variable [DecidableEq I] {s t : Threads I T} {i j : I} {act : Act T} {mem : Nat → Byte}
  {blks₀ blks blks' : List (Blk T)} {addr : Usz T} {q : Pool T}

structure Enters (s t : Threads I T) (i : I) (op : Op T) (backoff : Nat) : Prop where
  at_pc : s.pc i = .spin op backoff
  free : s.mp.lock = 0
  next : t = { s.goto i (.enter op) with mp := { s.mp with lock := 1 } }

structure Leaves (s t : Threads I T) (i : I) (op : Op T) (ptr : Usz T) (pc : Pc T) : Prop where
  at_pc : s.pc i = .unlock op ptr
  next : t = { s with mp := spinUnlock s.mp, done := s.done ++ [(op, ptr)] }.goto i pc
  out : pc = .idle ∨ ∃ r, op = .alloc r ∧ ptr ≠ 0 ∧ pc = .zero ptr r.cap 0

section Cases

theorem holding_mem {ptr : Usz T} {cell : Cell I T} (found : s.holding i ptr = some cell) :
    cell ∈ s.cells ∧ cell.holder = i ∧ cell.ptr = ptr := by
  rw [Threads.holding] at found
  exact ⟨List.mem_of_find?_eq_some found, by simpa using List.find?_some found⟩

omit [DecidableEq I] in
theorem confined_byte {x : Cell I T} {m : Nat → Byte} {k : Nat} {byte : Byte} (lt : k < x.cap.toNat) :
    Confined x m (write m (x.ptr.toNat + k) [byte]) := by
  intro a away
  apply write_outside
  rw [List.length_singleton]
  omega

theorem Outer.goto {pc : Pc T} (before : ¬(s.pc i).Inside) (after : ¬pc.Inside) (owns : Owns s.cells i pc)
    (lets : ∀ x : Cell I T, act ≠ .call (.free x.ptr) → LetsBe x (s.pc i) → LetsBe x pc) :
    Outer s (s.goto i pc) i act := by
  have here : (s.goto i pc).pc i = pc := Function.update_self ..
  refine ⟨before, ?_, ?_, ⟨s.mp.mem, rfl, .inl rfl⟩, ?_, fun j other => Function.update_of_ne other .., rfl, rfl⟩
  · rw [here]
    exact after
  · rw [here]
    exact owns
  · rw [here]
    exact lets

/-- A call begins, or is over at once. -/
theorem call_cases {op : Op T} (idle : s.pc i = .idle) (next : s.call i op = some t) : Outer s t i (.call op) := by
  have before : ¬(s.pc i).Inside := by
    rw [idle]
    exact id
  cases op with
  | alloc r =>
    obtain ⟨small, next⟩ := Option.ite_none_right_eq_some.mp next
    obtain rfl := Option.some.inj next
    exact .goto before id small fun _ _ _ => trivial
  | free ptr =>
    simp only [Threads.call] at next
    split at next
    · obtain rfl := Option.some.inj next
      refine ⟨before, before, ?_, ⟨s.mp.mem, rfl, .inl rfl⟩, fun _ _ kept => kept, fun _ _ => rfl, rfl, rfl⟩
      rw [idle]
      trivial
    next some =>
      obtain ⟨held, next⟩ := Option.ite_none_right_eq_some.mp next
      obtain rfl := Option.some.inj next
      obtain ⟨cell, found⟩ := Option.isSome_iff_exists.mp held
      obtain ⟨member, rfl, rfl⟩ := holding_mem found
      refine .goto before id ⟨some, cell.cap, member⟩ fun x other _ same => other ?_
      rw [same]

theorem store_cases {ptr : Usz T} {k : Nat} {byte : Byte} (idle : s.pc i = .idle) (next : s.store i ptr k byte = some t) :
    Outer s t i (.store ptr k byte) := by
  have before : ¬(s.pc i).Inside := by
    rw [idle]
    exact id
  simp only [Threads.store] at next
  split at next
  · cases next
  next cell found =>
    obtain ⟨lt, next⟩ := Option.ite_none_right_eq_some.mp next
    obtain rfl := Option.some.inj next
    obtain ⟨member, holder, rfl⟩ := holding_mem found
    refine ⟨before, before, ?_, ⟨_, rfl, .inr ⟨cell, ⟨member, holder, .inl ⟨k, byte, rfl⟩⟩, ?_⟩⟩, fun _ _ kept => kept,
      fun _ _ => rfl, rfl, rfl⟩
    · change Owns s.cells i (s.pc i)
      rw [idle]
      trivial
    · exact confined_byte lt

/-- A step is one of a thread outside of the lock, takes the lock, goes on under it, or gives it back. -/
theorem threadStep_cases (owns : Owns s.cells i (s.pc i)) (next : threadStep (i, act) s = some t) :
    Outer s t i act ∨ (∃ op backoff, Enters s t i op backoff) ∨
      ((s.pc i).Inside ∧ (∀ op ptr, s.pc i ≠ .unlock op ptr) ∧ ∃ spurious, s.go i spurious = some t) ∨
      ∃ op ptr pc, Leaves s t i op ptr pc := by
  cases act with
  | call op =>
    obtain ⟨idle, next⟩ := Option.ite_none_right_eq_some.mp next
    exact .inl (call_cases idle next)
  | store ptr k byte =>
    obtain ⟨idle, next⟩ := Option.ite_none_right_eq_some.mp next
    exact .inl (store_cases idle next)
  | go spurious =>
    have next : s.go i spurious = some t := next
    have moving := next
    simp only [Threads.go] at next
    cases at_pc : s.pc i with
    | idle =>
      rw [at_pc] at next
      cases next
    | spin op backoff =>
      have before : ¬(s.pc i).Inside := by
        rw [at_pc]
        exact id
      rw [at_pc] at next owns
      dsimp only at next
      split at next
      next free =>
        obtain rfl := Option.some.inj next
        exact .inr (.inl ⟨op, backoff, at_pc, free.1, rfl⟩)
      next =>
        obtain rfl := Option.some.inj next
        exact .inl (.goto before id owns fun x _ kept => by rw [at_pc] at kept; exact kept)
    | pause op backoff left =>
      have before : ¬(s.pc i).Inside := by
        rw [at_pc]
        exact id
      rw [at_pc] at next owns
      cases left with
      | zero =>
        obtain rfl := Option.some.inj next
        exact .inl (.goto before id owns fun x _ kept => by rw [at_pc] at kept; exact kept)
      | succ left =>
        obtain rfl := Option.some.inj next
        exact .inl (.goto before id owns fun x _ kept => by rw [at_pc] at kept; exact kept)
    | zero ptr cap k =>
      have before : ¬(s.pc i).Inside := by
        rw [at_pc]
        exact id
      rw [at_pc] at next owns
      dsimp only at next
      split at next
      next lt =>
        obtain rfl := Option.some.inj next
        have here : ((s.withMem (write s.mp.mem (ptr.toNat + k) [0])).goto i (.zero ptr cap (k + 1))).pc i =
            .zero ptr cap (k + 1) := Function.update_self ..
        refine .inl ⟨before, ?_, ?_, ⟨_, rfl, .inr ⟨⟨i, ptr, cap⟩, ⟨owns, rfl, .inr ⟨k, at_pc⟩⟩, ?_⟩⟩,
          ?_, fun j other => Function.update_of_ne other .., rfl, rfl⟩
        · rw [here]
          exact id
        · rw [here]
          exact owns
        · exact confined_byte (x := ⟨i, ptr, cap⟩) lt
        · intro x _ kept
          rw [at_pc] at kept
          rw [here]
          exact kept
      next =>
        obtain rfl := Option.some.inj next
        exact .inl (.goto before id trivial fun _ _ _ => trivial)
    | unlock op ptr =>
      rw [at_pc] at next
      refine .inr (.inr (.inr ⟨op, ptr, ?_⟩))
      cases op with
      | free p =>
        obtain rfl := Option.some.inj next
        exact ⟨.idle, at_pc, rfl, .inl rfl⟩
      | alloc r =>
        obtain ⟨cap, zeroed⟩ := r
        cases zeroed with
        | false =>
          obtain rfl := Option.some.inj next
          exact ⟨.idle, at_pc, rfl, .inl rfl⟩
        | true =>
          obtain rfl := Option.some.inj next
          by_cases null : ptr = 0
          · exact ⟨.idle, at_pc, by rw [if_pos null], .inl rfl⟩
          · exact ⟨.zero ptr cap 0, at_pc, by rw [if_neg null], .inr ⟨_, rfl, null, rfl⟩⟩
    | enter | look | found | whole | cut | sizeRest | sizeFront | place | seek | link | bump | sizeFresh | grow =>
      exact .inr (.inr (.inl ⟨trivial, fun _ _ other => (by cases other), spurious, moving⟩))

end Cases

/-- What holds in every state: the log, made alone, leaves a pool with the blocks `blks₀`, and there are the
blocks `blks`, which are the same while no thread is under the lock. -/
structure Facts (mem : Nat → Byte) (s : Threads I T) (q : Pool T) (blks₀ blks : List (Blk T)) : Prop where
  serial : runs answered s.done (poolStart s.mp.addr mem) = some q
  alone : PoolInv q.mp blks₀
  place : q.mp.addr = s.mp.addr
  aloneLive : q.live.Perm (liveOf s.mp.addr blks₀)
  inv : PoolInv (spinUnlock s.mp) blks
  live : (s.cells.map Cell.pair).Perm (liveOf s.mp.addr blks)
  turns : Exclusive (fun i (s : Threads I T) => (s.pc i).Inside) (fun s => s.mp.lock ≠ 0) s
  quiet : s.mp.lock = 0 → blks = blks₀
  owns : ∀ i, Owns s.cells i (s.pc i)
  sec : ∀ i, Section s.mp s.cells i blks₀ blks (s.pc i)

section Step

omit [DecidableEq I] in
theorem Section.outside {mp : Mp T} {cells : List (Cell I T)} {pc : Pc T} (out : ¬pc.Inside) :
    Section mp cells i blks₀ blks pc := by
  cases pc with
  | idle | spin | pause | zero => trivial
  | _ => exact absurd trivial out

omit [DecidableEq I] in
theorem Section.lock {mp : Mp T} {cells : List (Cell I T)} {pc : Pc T} {lock : BitVec 32}
    (sec : Section mp cells i blks₀ blks pc) : Section { mp with lock } cells i blks₀ blks pc := by
  cases pc <;> exact sec

omit [DecidableEq I] in
theorem Owns.of_inside {cells : List (Cell I T)} {pc : Pc T} (inside : pc.Inside) : Owns cells i pc := by
  cases pc with
  | idle | spin | pause | zero => exact inside.elim
  | _ => trivial

omit [DecidableEq I] in
theorem Owns.mono {cells cells' : List (Cell I T)} {pc : Pc T} (owns : Owns cells i pc)
    (kept : ∀ x ∈ cells, x.holder = i → x ∈ cells') : Owns cells' i pc := by
  have ok : ∀ op, OpOk cells i op → OpOk cells' i op := by
    intro op ok
    cases op with
    | alloc r => exact ok
    | free ptr =>
      obtain ⟨some, cap, member⟩ := ok
      exact ⟨some, cap, kept _ member rfl⟩
  cases pc with
  | spin op backoff => exact ok op owns
  | pause op backoff left => exact ok op owns
  | zero ptr cap k => exact kept _ owns rfl
  | _ => trivial

omit [DecidableEq I] in
/-- The section of a thread does not see what another one stores into its own bytes. -/
theorem Section.fill {x : Cell I T} {m : Nat → Byte} {pc : Pc T} (inv : PoolInv (spinUnlock s.mp) blks)
    (live : (s.cells.map Cell.pair).Perm (liveOf s.mp.addr blks)) (member : x ∈ s.cells) (differ : x.holder ≠ i)
    (confined : Confined x s.mp.mem m) (sec : Section s.mp s.cells i blks₀ blks pc) :
    Section { s.mp with mem := m } s.cells i blks₀ blks pc := by
  have words := header_words (T := T)
  obtain ⟨c, c_mem, c_owner, at_c, place, fits⟩ := cell_block inv live member
  have layout : Layout s.mp.addr s.mp.off.toNat blks := inv.layout
  have inside := layout.tiles.inside c_mem
  rw [Blk.addr] at place
  cases pc with
  | sizeFront r blk =>
    obtain ⟨pre, b, post, cutting, word⟩ := sec
    refine ⟨pre, b, post, cutting, ?_⟩
    have now := cutting.now
    subst now
    have size := blockSize_eq cutting.found.small
    have tail := cutting.tail
    have other : c ≠ { b with owner := some r.cap } := by
      intro same
      have one : x.ptr = b.payload s.mp.addr := by
        rw [at_c, same]
        rfl
      exact differ (congrArg Cell.holder (cell_eq inv live member cutting.mine one))
    have split : (b.ptr s.mp.addr + r.blockSize).toNat = b.addr s.mp.addr + r.blockSize.toNat :=
      inv.rest_toNat (b := { b with owner := some r.cap }) (by dsimp only; omega)
    have same : sizeOf m (b.ptr s.mp.addr + r.blockSize) = sizeOf s.mp.mem (b.ptr s.mp.addr + r.blockSize) := by
      apply load_congr
      intro a lo hi
      apply confined
      rw [split, Blk.addr] at lo hi
      rcases layout.tiles.apart c_mem (c := { b with owner := some r.cap }) (by simp) with same | before | behind
      · exact absurd same other
      · exact .inr (by dsimp only at *; omega)
      · exact .inl (by dsimp only at *; omega)
    exact (congrArg BitVec.toNat same).trans word
  | grow r =>
    obtain ⟨same, small, none, room, word⟩ := sec
    refine ⟨same, small, none, room, ?_⟩
    have at_end : (s.mp.buf + s.mp.off).toNat = bufAddr s.mp.addr + s.mp.off.toNat := inv.end_toNat
    refine Eq.trans ?_ word
    apply load_congr
    intro a lo hi
    apply confined
    change (s.mp.buf + s.mp.off).toNat + 2 * wordBytes T ≤ a at lo
    rw [at_end] at lo
    exact .inr (by omega)
  | _ => exact sec

theorem Facts.outer (facts : Facts mem s q blks₀ blks) (step : Outer s t i act) : Facts mem t q blks₀ blks := by
  obtain ⟨m, mp, changed⟩ := step.mem
  have addr : t.mp.addr = s.mp.addr := by rw [mp]
  have lock : t.mp.lock = s.mp.lock := by rw [mp]
  have same_inside : ∀ j, (t.pc j).Inside ↔ (s.pc j).Inside := by
    intro j
    by_cases own : j = i
    · rw [own]
      exact ⟨fun there => absurd there step.after, fun here => absurd here step.before⟩
    · rw [step.others j own]
  refine ⟨?_, facts.alone, facts.place.trans addr.symm, ?_, ?_, ?_, ?_, ?_, ?_, ?_⟩
  · rw [step.done, addr]
    exact facts.serial
  · rw [addr]
    exact facts.aloneLive
  · rw [mp]
    rcases changed with rfl | ⟨x, touches, confined⟩
    · exact facts.inv
    · have member : (x.ptr, x.cap) ∈ liveOf s.mp.addr blks :=
        facts.live.mem_iff.mp (List.mem_map_of_mem (f := Cell.pair) touches.member)
      exact facts.inv.fill member confined
  · rw [step.cells, addr]
    exact facts.live
  · refine facts.turns.kept (i := i) (.stays (same_inside i) ?_) fun {j} _ => same_inside j
    rw [lock]
  · rw [lock]
    exact facts.quiet
  · intro j
    rw [step.cells]
    by_cases own : j = i
    · rw [own]
      exact step.owns
    · rw [step.others j own]
      exact facts.owns j
  · intro j
    by_cases own : j = i
    · rw [own]
      exact .outside step.after
    · rw [step.others j own, step.cells, mp]
      rcases changed with rfl | ⟨x, touches, confined⟩
      · exact facts.sec j
      · exact (facts.sec j).fill facts.inv facts.live touches.member (fun same => own (same.symm.trans touches.holder)) confined

theorem Facts.enter {op : Op T} {backoff : Nat} (facts : Facts mem s q blks₀ blks) (step : Enters s t i op backoff) :
    Facts mem t q blks₀ blks := by
  have same := facts.quiet step.free
  have owns := facts.owns i
  rw [step.at_pc] at owns
  have free : ∀ j, ¬(s.pc j).Inside := fun j there => facts.turns.taken.mpr ⟨j, there⟩ step.free
  have next := step.next
  subst next
  have others : ∀ {j}, j ≠ i → Function.update s.pc i (.enter op) j = s.pc j := fun differ => Function.update_of_ne differ ..
  have here : Function.update s.pc i (.enter op) i = .enter op := Function.update_self ..
  have locked : (1 : BitVec 32) ≠ 0 := by decide
  refine ⟨facts.serial, facts.alone, facts.place, facts.aloneLive, facts.inv, facts.live, ?_, fun none => absurd none locked,
    ?_, ?_⟩
  · refine facts.turns.kept (i := i) (.enters (fun taken => taken step.free) ?_ locked) ?_
    · change (Function.update s.pc i (.enter op) i).Inside
      rw [here]
      trivial
    · intro j differ
      change (Function.update s.pc i (.enter op) j).Inside ↔ _
      rw [others differ]
  · intro j
    change Owns s.cells j (Function.update s.pc i (.enter op) j)
    by_cases own : j = i
    · rw [own, here]
      trivial
    · rw [others own]
      exact facts.owns j
  · intro j
    change Section { s.mp with lock := 1 } s.cells j blks₀ blks (Function.update s.pc i (.enter op) j)
    by_cases own : j = i
    · rw [own, here]
      exact ⟨same, owns⟩
    · rw [others own]
      exact .outside (free j)

theorem Facts.inner (facts : Facts mem s q blks₀ blks) (here : (s.pc i).Inside) (step : Inner s t i blks₀ blks') :
    Facts mem t q blks₀ blks' := by
  have alone : ∀ {j}, j ≠ i → ¬(s.pc j).Inside := fun differ there => differ (facts.turns.one there here)
  refine ⟨?_, facts.alone, facts.place.trans step.addr.symm, ?_, step.inv, step.live, ?_, ?_, ?_, ?_⟩
  · rw [step.done, step.addr]
    exact facts.serial
  · rw [step.addr]
    exact facts.aloneLive
  · refine facts.turns.kept (i := i) (.stays ⟨fun _ => here, fun _ => step.inside⟩ ?_) ?_
    · rw [step.lock]
    · intro j differ
      rw [step.others j differ]
  · intro free
    rw [step.lock] at free
    exact absurd free (facts.turns.taken.mpr ⟨i, here⟩)
  · intro j
    by_cases own : j = i
    · rw [own]
      exact .of_inside step.inside
    · rw [step.others j own]
      exact (facts.owns j).mono fun x member holder => step.cells x member fun same => own (holder.symm.trans same)
  · intro j
    by_cases own : j = i
    · rw [own]
      exact step.sec
    · rw [step.others j own]
      exact .outside (alone own)

theorem Facts.leave {op : Op T} {ptr : Usz T} {pc : Pc T} (facts : Facts mem s q blks₀ blks) (step : Leaves s t i op ptr pc) :
    ∃ q', Facts mem t q' blks blks := by
  have sec := facts.sec i
  rw [step.at_pc] at sec
  obtain ⟨ends, got⟩ := sec
  have inside : (s.pc i).Inside := by
    rw [step.at_pc]
    trivial
  have alone : ∀ {j}, j ≠ i → ¬(s.pc j).Inside := fun differ there => differ (facts.turns.one there inside)
  obtain ⟨q', answer, kept, place, live⟩ := ends q facts.alone facts.place facts.aloneLive
  have out : ¬pc.Inside ∧ Owns s.cells i pc := by
    rcases step.out with rfl | ⟨r, rfl, some, rfl⟩
    · exact ⟨id, trivial⟩
    · exact ⟨id, got some⟩
  have next := step.next
  subst next
  have others : ∀ {j}, j ≠ i → Function.update s.pc i pc j = s.pc j := fun differ => Function.update_of_ne differ ..
  have here : Function.update s.pc i pc i = pc := Function.update_self ..
  refine ⟨q', ?_, kept, place, live, facts.inv, facts.live, ?_, fun _ => rfl, ?_, ?_⟩
  · change runs answered (s.done ++ [(op, ptr)]) (poolStart s.mp.addr mem) = some q'
    rw [runs_append, facts.serial]
    change (answered (op, ptr) q).bind (runs answered []) = some q'
    rw [answer]
    rfl
  · refine facts.turns.kept (i := i) (.leaves inside ?_ fun taken => taken rfl) ?_
    · change ¬(Function.update s.pc i pc i).Inside
      rw [here]
      exact out.1
    · intro j differ
      change (Function.update s.pc i pc j).Inside ↔ _
      rw [others differ]
  · intro j
    change Owns s.cells j (Function.update s.pc i pc j)
    by_cases own : j = i
    · rw [own, here]
      exact out.2
    · rw [others own]
      exact facts.owns j
  · intro j
    change Section (spinUnlock s.mp) s.cells j blks blks (Function.update s.pc i pc j)
    by_cases own : j = i
    · rw [own, here]
      exact .outside out.1
    · rw [others own]
      exact .outside (alone own)

theorem Facts.step (facts : Facts mem s q blks₀ blks) (next : threadStep (i, act) s = some t) :
    (∃ q' blks₀' blks', Facts mem t q' blks₀' blks') ∧ t.mp.addr = s.mp.addr := by
  rcases threadStep_cases (facts.owns i) next with outer | ⟨op, backoff, enters⟩ | ⟨inside, locked, spurious, moves⟩ |
    ⟨op, ptr, pc, leaves⟩
  · obtain ⟨m, mp, _⟩ := outer.mem
    exact ⟨⟨_, _, _, facts.outer outer⟩, by rw [mp]⟩
  · exact ⟨⟨_, _, _, facts.enter enters⟩, by rw [enters.next]⟩
  · obtain ⟨u, go, blks', inner⟩ := inside_step facts.inv facts.live (facts.sec i) inside locked spurious
    obtain rfl := Option.some.inj (go.symm.trans moves)
    exact ⟨⟨_, _, _, facts.inner inside inner⟩, inner.addr⟩
  · obtain ⟨q', facts'⟩ := facts.leave leaves
    exact ⟨⟨q', _, _, facts'⟩, by rw [leaves.next]; rfl⟩

theorem Facts.start (I : Type) (room : bufAddr addr + mpSize < T.modulus) :
    Facts (I := I) mem (threadsStart I addr mem) (poolStart addr mem) [] [] := by
  have inv : PoolInv (mpInit ⟨addr, mem, 0, 0⟩) [] := PoolInv.start room rfl rfl
  refine ⟨rfl, inv, rfl, .nil, inv, .nil, ⟨fun here => here.elim, ?_⟩, fun _ => rfl, fun _ => trivial, fun _ => trivial⟩
  exact ⟨fun taken => absurd rfl taken, fun ⟨_, inside⟩ => inside.elim⟩

/-- Some pool and blocks fit what the threads have done. -/
def Shared (addr : Usz T) (mem : Nat → Byte) (s : Threads I T) : Prop :=
  (∃ q blks₀ blks, Facts mem s q blks₀ blks) ∧ s.mp.addr = addr

theorem Shared.step (shared : Shared addr mem s) (next : threadStep (i, act) s = some t) : Shared addr mem t := by
  obtain ⟨⟨q, blks₀, blks, facts⟩, here⟩ := shared
  obtain ⟨facts', same⟩ := facts.step next
  exact ⟨facts', same.trans here⟩

theorem Shared.runs {acts : List (I × Act T)} (shared : Shared addr mem s)
    (run : Transition.runs threadStep acts s = some t) : Shared addr mem t :=
  runs_preserve (P := Shared addr mem) (fun kept next => kept.step next) shared run

theorem Shared.start (I : Type) (room : bufAddr addr + mpSize < T.modulus) :
    Shared addr mem (threadsStart I addr mem) :=
  ⟨⟨_, _, _, Facts.start I room⟩, rfl⟩

/-- In whatever order threads take the statements of their calls, one of them at a time is under the lock, every
call hands back what it hands back when the calls are made one after the other in the order in which they gave the
lock back, and while the lock is free the pool has the blocks that those calls leave. -/
theorem threads_serial {acts : List (I × Act T)} (room : bufAddr addr + mpSize < T.modulus)
    (run : Transition.runs threadStep acts (threadsStart I addr mem) = some s) :
    Exclusive (fun i (s : Threads I T) => (s.pc i).Inside) (fun s => s.mp.lock ≠ 0) s ∧
      ∃ q, Transition.runs answered s.done (poolStart addr mem) = some q ∧
        (s.mp.lock = 0 → ∃ blks, TiledBy ⟨s.mp, s.cells.map Cell.pair⟩ blks ∧ TiledBy q blks) := by
  obtain ⟨⟨q, blks₀, blks, facts⟩, rfl⟩ := (Shared.start I room).runs run
  refine ⟨facts.turns, q, facts.serial, fun free => ⟨blks, ?_, ?_⟩⟩
  · have same : spinUnlock s.mp = s.mp := by rw [spinUnlock, ← free]
    have inv : PoolInv s.mp blks := same ▸ facts.inv
    exact PoolInv.tiledBy (s := ⟨s.mp, s.cells.map Cell.pair⟩) inv facts.live
  · have inv : PoolInv q.mp blks := facts.quiet free ▸ facts.alone
    have live := facts.aloneLive
    rw [← facts.place, ← facts.quiet free] at live
    exact inv.tiledBy live

/-- Two threads ask for blocks, the second while the first has the lock; the first gives its block back. -/
def twoThreads : List (Bool × Act .mcu) :=
  [(false, .call (.alloc ⟨20, false⟩)), (false, .go false), (true, .call (.alloc ⟨8, true⟩)), (true, .go false)] ++
    List.replicate 6 (false, .go false) ++ List.replicate 21 (true, .go false) ++
    [(false, .call (.free 0x1018))] ++ List.replicate 6 (false, .go false)

theorem twoThreads_run : (Transition.runs threadStep twoThreads (threadsStart Bool 0x1000 fun _ => 0)).isSome := by
  decide +kernel

theorem threads_serial_two : ∃ s, Transition.runs threadStep twoThreads (threadsStart Bool 0x1000 fun _ => 0) = some s ∧
    ∃ q, Transition.runs answered s.done (poolStart 0x1000 fun _ => 0) = some q := by
  obtain ⟨s, run⟩ := Option.isSome_iff_exists.mp twoThreads_run
  obtain ⟨_, q, serial, _⟩ := threads_serial (by decide) run
  exact ⟨s, run, q, serial⟩

end Step

end AvaModule.MemPool
