import AvaModule.Ds.Mp.Shared

/-! What the threads of one pool can rely on: their bytes are theirs, and whoever has the lock gives it back. -/
namespace AvaModule.MemPool
open ListHead Memory DoublyLinked Tiling Transition Locked

variable {I : Type} {T : Target} [DecidableEq I] {s t : Threads I T} {i : I} {act : Act T} {mem : Nat → Byte}
  {blks₀ blks : List (Blk T)} {addr : Usz T} {q : Pool T} {x y : Cell I T}

section Bytes

omit [DecidableEq I] in
/-- Two cells share no byte. -/
theorem Facts.cells_apart (facts : Facts mem s q blks₀ blks) (x_mem : x ∈ s.cells) (y_mem : y ∈ s.cells)
    (differ : y.ptr ≠ x.ptr) :
    x.ptr.toNat + x.cap.toNat ≤ y.ptr.toNat ∨ y.ptr.toNat + y.cap.toNat ≤ x.ptr.toNat := by
  obtain ⟨b, b_mem, _, at_b, b_place, b_fits⟩ := cell_block facts.inv facts.live x_mem
  obtain ⟨c, c_mem, _, at_c, c_place, c_fits⟩ := cell_block facts.inv facts.live y_mem
  rw [Blk.addr] at b_place c_place
  rcases facts.inv.layout.tiles.apart b_mem c_mem with rfl | before | behind
  · exact absurd (at_c.trans at_b.symm) differ
  · exact .inl (by omega)
  · exact .inr (by omega)

/-- A step leaves a cell and its bytes alone, unless its holder stores into it or gives it back. -/
theorem Facts.keeps (facts : Facts mem s q blks₀ blks) (member : x ∈ s.cells) (lets : LetsBe x (s.pc x.holder))
    (next : threadStep (i, act) s = some t) (call : (i, act) ≠ (x.holder, .call (.free x.ptr)))
    (store : ∀ k byte, (i, act) ≠ (x.holder, .store x.ptr k byte)) :
    x ∈ t.cells ∧ LetsBe x (t.pc x.holder) ∧
      ∀ k < x.cap.toNat, t.mp.mem (x.ptr.toNat + k) = s.mp.mem (x.ptr.toNat + k) := by
  have others : i ≠ x.holder → (∀ j ≠ i, t.pc j = s.pc j) → LetsBe x (t.pc x.holder) := by
    intro other same
    rw [same _ (Ne.symm other)]
    exact lets
  rcases threadStep_cases (facts.owns i) next with outer | ⟨op, backoff, enters⟩ | ⟨inside, locked, spurious, moves⟩ |
    ⟨op, ptr, pc, leaves⟩
  · refine ⟨outer.cells ▸ member, ?_, ?_⟩
    · by_cases own : i = x.holder
      · subst own
        exact outer.lets x (fun same => call (by rw [same])) lets
      · exact others own outer.others
    · obtain ⟨m, mp, same | ⟨y, touches, confined⟩⟩ := outer.mem
      · rw [mp, same]
        exact fun _ _ => rfl
      · have differ : y.ptr ≠ x.ptr := by
          intro same
          obtain rfl := cell_eq facts.inv facts.live touches.member member same
          rcases touches.why with ⟨k, byte, rfl⟩ | ⟨k, zeroing⟩
          · exact store k byte (by rw [touches.holder])
          · rw [touches.holder, zeroing] at lets
            exact lets rfl
        have apart := facts.cells_apart member touches.member differ
        intro k lt
        rw [mp]
        exact confined _ (by omega)
  · have same : t.cells = s.cells ∧ t.mp.mem = s.mp.mem ∧ t.pc = Function.update s.pc i (.enter op) := by
      rw [enters.next]
      exact ⟨rfl, rfl, rfl⟩
    refine ⟨same.1 ▸ member, ?_, fun k _ => by rw [same.2.1]⟩
    rw [same.2.2]
    by_cases own : i = x.holder
    · subst own
      rw [enters.at_pc] at lets
      rw [Function.update_self]
      exact lets
    · rw [Function.update_of_ne (Ne.symm own)]
      exact lets
  · obtain ⟨u, go, blks', inner⟩ := inside_step facts.inv facts.live (facts.sec i) inside locked spurious
    obtain rfl := Option.some.inj (go.symm.trans moves)
    refine ⟨?_, ?_, inner.still x member⟩
    · by_cases own : i = x.holder
      · exact (inner.keeps x member (own ▸ lets)).1
      · exact inner.cells x member (Ne.symm own)
    · by_cases own : i = x.holder
      · subst own
        exact (inner.keeps x member lets).2
      · exact others own inner.others
  · have same : t.cells = s.cells ∧ t.mp.mem = s.mp.mem ∧ t.pc = Function.update s.pc i pc := by
      rw [leaves.next]
      exact ⟨rfl, rfl, rfl⟩
    refine ⟨same.1 ▸ member, ?_, fun k _ => by rw [same.2.1]⟩
    rw [same.2.2]
    by_cases own : i = x.holder
    · subst own
      rw [leaves.at_pc] at lets
      rw [Function.update_self]
      rcases leaves.out with rfl | ⟨r, _, _, rfl⟩
      · trivial
      · exact lets
    · rw [Function.update_of_ne (Ne.symm own)]
      exact lets

theorem Shared.keeps {acts : List (I × Act T)} (shared : Shared addr mem s) (member : x ∈ s.cells)
    (lets : LetsBe x (s.pc x.holder)) (run : Transition.runs threadStep acts s = some t)
    (call : (x.holder, Act.call (.free x.ptr)) ∉ acts) (store : ∀ k byte, (x.holder, Act.store x.ptr k byte) ∉ acts) :
    x ∈ t.cells ∧ ∀ k < x.cap.toNat, t.mp.mem (x.ptr.toNat + k) = s.mp.mem (x.ptr.toNat + k) := by
  induction acts generalizing s with
  | nil =>
    obtain rfl := Option.some.inj run
    exact ⟨member, fun _ _ => rfl⟩
  | cons move acts ih =>
    obtain ⟨i, act⟩ := move
    obtain ⟨u, next, rest⟩ := Option.bind_eq_some_iff.mp run
    have later := shared.step next
    obtain ⟨⟨q, blks₀, blks, facts⟩, _⟩ := shared
    obtain ⟨member', lets', same⟩ := facts.keeps member lets next
      (fun here => call (here ▸ List.mem_cons_self)) fun k byte here => store k byte (here ▸ List.mem_cons_self)
    obtain ⟨last, bytes⟩ := ih later member' lets' rest
      (fun there => call (List.mem_cons_of_mem _ there)) fun k byte there => store k byte (List.mem_cons_of_mem _ there)
    exact ⟨last, fun k lt => (bytes k lt).trans (same k lt)⟩

/-- In whatever order threads take the statements of their calls, what they have is aligned, lies in the pool and
does not overlap, and what a thread that is in no call has stays its own, with the same bytes, until it stores into
it or gives it back. -/
theorem threads_framed {acts acts' : List (I × Act T)} (room : bufAddr addr + mpSize < T.modulus)
    (run : Transition.runs threadStep acts (threadsStart I addr mem) = some s) (member : x ∈ s.cells)
    (idle : s.pc x.holder = .idle) (run' : Transition.runs threadStep acts' s = some t)
    (call : (x.holder, Act.call (.free x.ptr)) ∉ acts') (store : ∀ k byte, (x.holder, Act.store x.ptr k byte) ∉ acts') :
    Holdings ⟨t.mp, t.cells.map Cell.pair⟩ ∧ x ∈ t.cells ∧
      ∀ k < x.cap.toNat, t.mp.mem (x.ptr.toNat + k) = s.mp.mem (x.ptr.toNat + k) := by
  have shared := (Shared.start I room).runs run
  obtain ⟨⟨q, blks₀, blks, facts⟩, _⟩ := shared.runs run'
  have inv : RunInv ⟨spinUnlock t.mp, t.cells.map Cell.pair⟩ := ⟨blks, facts.inv, facts.live⟩
  obtain ⟨aligned, inside, apart⟩ := inv.holdings
  exact ⟨⟨aligned, inside, apart⟩, shared.keeps member (by rw [idle]; trivial) run' call store⟩

/-- The second thread's block, while the first gives its own back. -/
theorem threads_framed_two : ∃ s t, Transition.runs threadStep (twoThreads.take 31) (threadsStart Bool 0x1000 fun _ => 0) = some s ∧
    Transition.runs threadStep (twoThreads.drop 31) s = some t ∧
    Holdings ⟨t.mp, t.cells.map Cell.pair⟩ ∧ (⟨true, 0x1040, 8⟩ : Cell Bool .mcu) ∈ t.cells ∧
      ∀ k < 8, t.mp.mem (0x1040 + k) = s.mp.mem (0x1040 + k) := by
  have both : ((Transition.runs threadStep (twoThreads.take 31) (threadsStart Bool 0x1000 fun _ => 0)).any fun s =>
      (⟨true, 0x1040, 8⟩ : Cell Bool .mcu) ∈ s.cells ∧ s.pc true = .idle ∧
        (Transition.runs threadStep (twoThreads.drop 31) s).isSome) = true := by
    decide +kernel
  obtain ⟨s, run, facts⟩ := (Option.any_eq_true _ _).mp both
  obtain ⟨member, idle, rest⟩ := of_decide_eq_true facts
  obtain ⟨t, run'⟩ := Option.isSome_iff_exists.mp rest
  exact ⟨s, t, run, run', threads_framed (x := ⟨true, 0x1040, 8⟩) (by decide) run member idle run' (by simp [twoThreads])
    fun k byte => by simp [twoThreads]⟩

end Bytes

section Release

/-- The most blocks there can be. -/
def blocksMax (T : Target) : Nat := mpSize / headerLen T

/-- An address as a number of the blocks that can lie behind it. -/
def behind (addr node : Usz T) : Nat := (bufAddr addr + mpSize - node.toNat) / headerLen T

/-- The statements that a thread under the lock has before it at most, up to `SPIN_UNLOCK`. -/
def stepsLeft (addr : Usz T) : Pc T → Nat
  | .idle | .spin .. | .pause .. | .zero .. | .unlock .. => 0
  | .link .. | .whole .. | .grow .. => 1
  | .sizeFresh .. => 2
  | .bump .. => 3
  | .seek _ _ _ pos => if pos = addr then 2 else 3 + behind addr pos
  | .place .. => 4 + blocksMax T
  | .sizeFront .. => 5 + blocksMax T
  | .sizeRest .. => 6 + blocksMax T
  | .cut .. => 7 + blocksMax T
  | .found .. => 8 + blocksMax T
  | .look _ node => if node = addr then 4 else 9 + blocksMax T + behind addr node
  | .enter .. => 10 + 2 * blocksMax T

theorem PoolInv.behind_block {mp : Mp T} {pre post : List (Blk T)} {b c : Blk T} (inv : PoolInv mp (pre ++ b :: post))
    (later : c ∈ post) : behind mp.addr (c.ptr mp.addr) < behind mp.addr (b.ptr mp.addr) := by
  have pos := header_pos (T := T)
  have c_mem : c ∈ pre ++ b :: post := by simp [later]
  have order := ((tiles_middle.mp inv.layout.tiles).2.inside later).1
  have size := (inv.layout.sizes b (by simp)).2
  have bound := inv.layout.end_le c_mem
  have c_size := (inv.layout.sizes c c_mem).2
  rw [behind, behind, inv.layout.ptr_toNat c_mem, inv.layout.ptr_toNat (b := b) (by simp), Blk.addr, Blk.addr,
    Nat.div_lt_iff_lt_mul pos]
  have step : bufAddr mp.addr + mpSize - (bufAddr mp.addr + c.start) + headerLen T ≤
      bufAddr mp.addr + mpSize - (bufAddr mp.addr + b.start) := by omega
  have floor := Nat.div_add_mod (bufAddr mp.addr + mpSize - (bufAddr mp.addr + b.start)) (headerLen T)
  have small := Nat.mod_lt (bufAddr mp.addr + mpSize - (bufAddr mp.addr + b.start)) pos
  rw [Nat.mul_comm] at floor
  omega

theorem PoolInv.behind_le {mp : Mp T} {b : Blk T} (inv : PoolInv mp blks) (member : b ∈ blks) :
    behind mp.addr (b.ptr mp.addr) ≤ blocksMax T := by
  rw [behind, inv.layout.ptr_toNat member, Blk.addr]
  exact Nat.div_le_div_right (by omega)

/-- The loop is at its root, or at a block of those that it has yet to pass. -/
theorem PoolInv.after_mem {mp : Mp T} {pre post : List (Blk T)} (inv : PoolInv mp (pre ++ post)) :
    after mp.addr post = mp.addr ∨ ∃ b ∈ post, after mp.addr post = b.ptr mp.addr ∧ b.ptr mp.addr ≠ mp.addr := by
  rcases inv.after_cases with ⟨root, _⟩ | ⟨front, b, rest, rfl, _, _, place, differ, _⟩
  · exact .inl root
  · exact .inr ⟨b, by simp, place, differ⟩

section Lower
variable (inv : PoolInv (spinUnlock s.mp) blks)
include inv

omit [DecidableEq I] in
theorem first_left (r : Request T) : stepsLeft s.mp.addr (.look r (nextOf s.mp.mem s.mp.root)) < 10 + 2 * blocksMax T := by
  have whole : PoolInv (spinUnlock s.mp) ([] ++ blks) := inv
  have first : nextOf s.mp.mem s.mp.root = after s.mp.addr blks := inv.first_after
  rw [first, stepsLeft]
  rcases whole.after_mem with root | ⟨b, member, place, differ⟩
  · rw [if_pos (show after s.mp.addr blks = s.mp.addr from root)]
    omega
  · have few := inv.behind_le member
    rw [show after s.mp.addr blks = b.ptr s.mp.addr from place]
    change behind s.mp.addr (b.ptr s.mp.addr) ≤ _ at few
    split <;> omega

omit [DecidableEq I] in
theorem place_left (op : Op T) (ptr block : Usz T) :
    stepsLeft s.mp.addr (.seek op ptr block (nextOf s.mp.mem s.mp.root)) < 4 + blocksMax T := by
  have whole : PoolInv (spinUnlock s.mp) ([] ++ blks) := inv
  have first : nextOf s.mp.mem s.mp.root = after s.mp.addr blks := inv.first_after
  rw [first, stepsLeft]
  rcases whole.after_mem with root | ⟨b, member, place, differ⟩
  · rw [if_pos (show after s.mp.addr blks = s.mp.addr from root)]
    omega
  · have few := inv.behind_le member
    rw [show after s.mp.addr blks = b.ptr s.mp.addr from place]
    change behind s.mp.addr (b.ptr s.mp.addr) ≤ _ at few
    split <;> omega

omit [DecidableEq I] in
theorem left_most {pc : Pc T} (sec : Section s.mp s.cells i blks₀ blks pc) :
    stepsLeft s.mp.addr pc ≤ 10 + 2 * blocksMax T := by
  have near : ∀ pre post : List (Blk T), blks = pre ++ post → after s.mp.addr post = s.mp.addr ∨
      behind s.mp.addr (after s.mp.addr post) ≤ blocksMax T := by
    rintro pre post rfl
    rcases inv.after_mem with root | ⟨b, member, place, _⟩
    · exact .inl root
    · right
      rw [show after s.mp.addr post = b.ptr s.mp.addr from place]
      exact inv.behind_le (by simp [member])
  cases pc with
  | look r node =>
    obtain ⟨_, _, pre, post, eq, rfl, _⟩ := sec
    rw [stepsLeft]
    rcases near pre post eq with root | few
    · rw [if_pos root]
      omega
    · split <;> omega
  | seek op ptr block pos =>
    obtain ⟨pre, c, post, linking, passed, rest, rfl, rfl⟩ := sec
    have eq := linking.now
    rw [List.append_assoc] at eq
    rw [stepsLeft]
    rcases near passed (rest ++ c :: post) eq with root | few
    · rw [if_pos root]
      omega
    · split <;> omega
  | _ =>
    simp only [stepsLeft]
    omega

omit [DecidableEq I] in
/-- A turn of a loop over the list comes nearer to its end. -/
theorem turn_left {pre post : List (Blk T)} {node : Usz T} (eq : blks = pre ++ post) (at_node : node = after s.mp.addr post)
    (differ : node ≠ s.mp.addr) :
    nextOf s.mp.mem node = s.mp.addr ∨ behind s.mp.addr (nextOf s.mp.mem node) < behind s.mp.addr node := by
  subst eq at_node
  rcases inv.after_cases with ⟨root, _⟩ | ⟨front, b, rest, rfl, _, _, place, _, next⟩
  · exact absurd root differ
  · have place : after s.mp.addr (front ++ b :: rest) = b.ptr s.mp.addr := place
    have next : nextOf s.mp.mem (b.ptr s.mp.addr) = after s.mp.addr rest := next
    have inv' : PoolInv (spinUnlock s.mp) ((pre ++ front) ++ b :: rest) := by
      rw [List.append_assoc]
      exact inv
    have later : PoolInv (spinUnlock s.mp) ((pre ++ front ++ [b]) ++ rest) := by
      rw [List.append_assoc _ [b]]
      exact inv'
    rw [place, next]
    rcases later.after_mem with root | ⟨c, member, at_c, _⟩
    · exact .inl root
    · right
      rw [show after s.mp.addr rest = c.ptr s.mp.addr from at_c]
      exact inv'.behind_block member

/-- Under the lock, every statement leaves fewer before it. -/
theorem go_lowers {spurious : Bool} (sec : Section s.mp s.cells i blks₀ blks (s.pc i)) (inside : (s.pc i).Inside)
    (locked : ∀ op ptr, s.pc i ≠ .unlock op ptr) (next : s.go i spurious = some t) :
    stepsLeft s.mp.addr (t.pc i) < stepsLeft s.mp.addr (s.pc i) := by
  have at_goto : ∀ (u : Threads I T) pc, (u.goto i pc).pc i = pc := fun u pc => Function.update_self ..
  simp only [Threads.go] at next
  cases at_pc : s.pc i with
  | idle | spin | pause | zero =>
    rw [at_pc] at inside
    exact inside.elim
  | enter op =>
    rw [at_pc] at next
    cases op with
    | alloc r =>
      obtain rfl := Option.some.inj next
      rw [at_goto]
      exact first_left inv r
    | free ptr =>
      obtain rfl := Option.some.inj next
      rw [at_goto]
      simp only [stepsLeft]
      omega
  | look r node =>
    rw [at_pc] at next sec
    obtain ⟨_, _, pre, post, eq, at_node, _⟩ := sec
    dsimp only at next
    by_cases root : node = s.mp.addr
    · rw [if_pos (show node = s.mp.root from root)] at next
      obtain rfl := Option.some.inj next
      rw [at_goto]
      simp only [stepsLeft, if_pos root]
      omega
    · rw [if_neg (show node ≠ s.mp.root from root)] at next
      split at next
      · obtain rfl := Option.some.inj next
        rw [at_goto]
        simp only [stepsLeft, if_neg root]
        rcases turn_left inv eq at_node root with last | fewer
        · rw [if_pos last]
          omega
        · split <;> omega
      · obtain rfl := Option.some.inj next
        rw [at_goto]
        simp only [stepsLeft, if_neg root]
        omega
  | found r blk =>
    rw [at_pc] at next
    dsimp only at next
    split at next
    all_goals
      obtain rfl := Option.some.inj next
      rw [at_goto]
      simp only [stepsLeft]
      omega
  | place op ptr block =>
    rw [at_pc] at next
    obtain rfl := Option.some.inj next
    rw [at_goto]
    exact place_left inv op ptr block
  | seek op ptr block pos =>
    rw [at_pc] at next sec
    obtain ⟨pre, c, post, linking, passed, rest, rfl, at_pos⟩ := sec
    have eq := linking.now
    rw [List.append_assoc] at eq
    dsimp only at next
    split at next
    next go =>
      have differ : pos ≠ s.mp.addr := go.1
      obtain rfl := Option.some.inj next
      rw [at_goto]
      simp only [stepsLeft, if_neg differ]
      rcases turn_left inv eq at_pos differ with last | fewer
      · rw [if_pos last]
        omega
      · split <;> omega
    next =>
      obtain rfl := Option.some.inj next
      rw [at_goto]
      simp only [stepsLeft]
      split <;> omega
  | bump r =>
    rw [at_pc] at next
    dsimp only at next
    split at next
    all_goals
      obtain rfl := Option.some.inj next
      rw [at_goto]
      simp only [stepsLeft]
      omega
  | whole | cut | sizeRest | sizeFront | link | sizeFresh | grow =>
    rw [at_pc] at next
    obtain rfl := Option.some.inj next
    rw [at_goto]
    simp only [stepsLeft]
    omega
  | unlock op ptr => exact absurd at_pc (locked op ptr)

end Lower

theorem threadStep_others (shared : Shared addr mem s) (next : threadStep (i, act) s = some t) {j : I} (differ : j ≠ i) :
    t.pc j = s.pc j := by
  obtain ⟨⟨q, blks₀, blks, facts⟩, _⟩ := shared
  rcases threadStep_cases (facts.owns i) next with outer | ⟨op, backoff, enters⟩ | ⟨inside, locked, spurious, moves⟩ |
    ⟨op, ptr, pc, leaves⟩
  · exact outer.others j differ
  · rw [enters.next]
    exact Function.update_of_ne differ ..
  · obtain ⟨u, go, blks', inner⟩ := inside_step facts.inv facts.live (facts.sec i) inside locked spurious
    obtain rfl := Option.some.inj (go.symm.trans moves)
    exact inner.others j differ
  · rw [leaves.next]
    exact Function.update_of_ne differ ..

/-- A step from under the lock goes on under it, with fewer statements before it, or frees the lock. -/
theorem Shared.inside_step (shared : Shared addr mem s) (here : (s.pc i).Inside) (next : threadStep (i, act) s = some t) :
    ((t.pc i).Inside → stepsLeft addr (t.pc i) < stepsLeft addr (s.pc i)) ∧ (¬(t.pc i).Inside → t.mp.lock = 0) := by
  obtain ⟨⟨q, blks₀, blks, facts⟩, rfl⟩ := shared
  rcases threadStep_cases (facts.owns i) next with outer | ⟨op, backoff, enters⟩ | ⟨inside, locked, spurious, moves⟩ |
    ⟨op, ptr, pc, leaves⟩
  · exact absurd here outer.before
  · rw [enters.at_pc] at here
    exact here.elim
  · obtain ⟨u, go, blks', inner⟩ := MemPool.inside_step facts.inv facts.live (facts.sec i) inside locked spurious
    obtain rfl := Option.some.inj (go.symm.trans moves)
    exact ⟨fun _ => go_lowers facts.inv (facts.sec i) inside locked moves, fun out => absurd inner.inside out⟩
  · refine ⟨fun there => ?_, fun _ => by rw [leaves.next]; rfl⟩
    have out : t.pc i = pc := by
      rw [leaves.next]
      exact Function.update_self ..
    rw [out] at there
    rcases leaves.out with rfl | ⟨_, _, _, rfl⟩
    · exact there.elim
    · exact there.elim

/-- The thread that has the lock can always take its next statement, and it has taken at most as many as a pass over
the largest free list and the insertion of a block take, whatever steps the other threads take meanwhile: the next
one goes on under the lock, or frees it. -/
theorem threads_released {acts acts' : List (I × Act T)} {spurious : Bool} (room : bufAddr addr + mpSize < T.modulus)
    (run : Transition.runs threadStep acts (threadsStart I addr mem) = some s)
    (run' : Transition.runs threadStep acts' s = some t)
    (stays : ∀ before after u, acts' = before ++ after → Transition.runs threadStep before s = some u → (u.pc i).Inside) :
    (acts'.countP fun act => act.1 = i) ≤ 10 + 2 * (mpSize / headerLen T) ∧
      ∃ u, threadStep (i, .go spurious) t = some u ∧ ((u.pc i).Inside ∨ u.mp.lock = 0) := by
  have shared := (Shared.start I room).runs run
  have last := shared.runs run'
  have here : (t.pc i).Inside := stays acts' [] t (List.append_nil _).symm run'
  have spent := spent_within (P := Shared addr mem) (fun i (s : Threads I T) => (s.pc i).Inside)
    (fun s => stepsLeft addr (s.pc i)) (fun held next => held.step next)
    (fun held here next => (held.inside_step here next).1)
    (fun held _ differ next => Nat.le_of_eq (congrArg (stepsLeft addr) (threadStep_others held next (Ne.symm differ))))
    shared run' stays
  obtain ⟨⟨q, blks₀, blks, facts⟩, rfl⟩ := shared
  have most := left_most facts.inv (facts.sec i)
  refine ⟨by rw [← blocksMax]; omega, ?_⟩
  have goes : ∃ u, threadStep (i, .go spurious) t = some u := by
    obtain ⟨⟨q, blks₀, blks, facts⟩, _⟩ := last
    by_cases locked : ∀ op ptr, t.pc i ≠ .unlock op ptr
    · obtain ⟨u, go, _⟩ := inside_step facts.inv facts.live (facts.sec i) here locked spurious
      exact ⟨u, go⟩
    · simp only [not_forall, not_not] at locked
      obtain ⟨op, ptr, at_pc⟩ := locked
      simp only [threadStep, Threads.go, at_pc]
      split <;> exact ⟨_, rfl⟩
  obtain ⟨u, go⟩ := goes
  refine ⟨u, go, ?_⟩
  by_cases there : (u.pc i).Inside
  · exact .inl there
  · exact .inr ((last.inside_step here go).2 there)

/-- The first thread has the lock and takes a statement while the second waits. -/
theorem threads_released_two : ∃ s t : Threads Bool .mcu,
    Transition.runs threadStep (twoThreads.take 4) (threadsStart Bool 0x1000 fun _ => 0) = some s ∧
    Transition.runs threadStep [(false, .go false)] s = some t ∧
      ∃ u, threadStep (false, .go false) t = some u ∧ ((u.pc false).Inside ∨ u.mp.lock = 0) := by
  have both : ((Transition.runs threadStep (twoThreads.take 4) (threadsStart Bool 0x1000 fun _ => 0)).any fun s =>
      s.pc false = .enter (.alloc ⟨20, false⟩)) = true := by
    decide +kernel
  obtain ⟨s, run, facts⟩ := (Option.any_eq_true _ _).mp both
  have first := of_decide_eq_true facts
  have step : threadStep (false, .go false) s = some (s.goto false (.look ⟨20, false⟩ (nextOf s.mp.mem s.mp.root))) := by
    simp only [threadStep, Threads.go, first]
  have run' : Transition.runs threadStep [(false, .go false)] s =
      some (s.goto false (.look ⟨20, false⟩ (nextOf s.mp.mem s.mp.root))) := by
    rw [Transition.runs, step]
    rfl
  refine ⟨s, _, run, run', (threads_released (by decide) run run' ?_).2⟩
  intro before after u split run''
  rcases List.append_eq_singleton_iff.mp split.symm with ⟨rfl, _⟩ | ⟨rfl, _⟩
  · obtain rfl := Option.some.inj run''
    rw [first]
    trivial
  · obtain rfl := Option.some.inj (run'.symm.trans run'')
    trivial

end Release

end AvaModule.MemPool
