import AvaModule.Ds.Mp.Reinit

/-! What `mp_reset` leaves: a pool that answers as one that was never used. -/
namespace AvaModule.MemPool
open ListHead Memory DoublyLinked Transition

variable {T : Target} {addr ptr : Usz T} {mp : Mp T} {s t : Pool T}

def mpReset (mp : Mp T) : Option (Mp T) := do
  let mp ← spinLock mp
  let mp := { mp with off := 0 }
  return spinUnlock { mp with mem := listInit mp.mem mp.root }

/-- The calls of `poolCall`, and a reset, after which nothing is given out. -/
def sessionCall (act : Option (PoolAct T)) (s : Pool T) : Option (Usz T × Pool T) :=
  match act with
  | some act => poolCall act s
  | none => (mpReset s.mp).map fun mp => (0, ⟨mp, []⟩)

/-- The calls of each list, with a reset behind them. -/
def sessions (calls : List (List (PoolAct T))) : List (Option (PoolAct T)) :=
  calls.flatMap fun acts => acts.map some ++ [none]

theorem mpReset_eq (free : mp.lock = 0) : mpReset mp = some (mpInit ⟨mp.addr, mp.mem, 0, 0⟩) := by
  have lock : spinLock mp = some { mp with lock := 1 } := if_pos free
  simp only [mpReset, lock, Option.bind_eq_bind, Option.bind_some]
  rfl

theorem mpAlloc_addr {cap : Usz T} {mp' : Mp T} (run : mpAlloc mp cap = some (ptr, mp')) : mp'.addr = mp.addr := by
  obtain ⟨locked, lock, rest⟩ := Option.bind_eq_some_iff.mp run
  obtain ⟨_, same⟩ := Option.ite_none_right_eq_some.mp lock
  obtain rfl := Option.some.inj same
  obtain ⟨found, _, rest⟩ := Option.bind_eq_some_iff.mp rest
  cases found with
  | some blk =>
    obtain ⟨m, _, last⟩ := Option.bind_eq_some_iff.mp rest
    obtain ⟨_, rfl⟩ := Prod.mk.inj (Option.some.inj last)
    rfl
  | none =>
    dsimp only at rest
    split at rest
    all_goals
      obtain ⟨_, rfl⟩ := Prod.mk.inj (Option.some.inj rest)
      rfl

theorem mpCalloc_addr {cap : Usz T} {mp' : Mp T} (run : mpCalloc mp cap = some (ptr, mp')) : mp'.addr = mp.addr := by
  obtain ⟨⟨ptr', mp''⟩, alloc, rest⟩ := Option.bind_eq_some_iff.mp run
  dsimp only at rest
  split at rest
  all_goals
    obtain ⟨_, rfl⟩ := Prod.mk.inj (Option.some.inj rest)
    exact (mpAlloc_addr alloc :)

theorem mpFree_addr {mp' : Mp T} (run : mpFree mp ptr = some mp') : mp'.addr = mp.addr := by
  rw [mpFree] at run
  split at run
  · exact congrArg Mp.addr (Option.some.inj run).symm
  · obtain ⟨locked, lock, rest⟩ := Option.bind_eq_some_iff.mp run
    obtain ⟨_, same⟩ := Option.ite_none_right_eq_some.mp lock
    obtain rfl := Option.some.inj same
    obtain ⟨m, _, last⟩ := Option.bind_eq_some_iff.mp rest
    rw [← Option.some.inj last]
    rfl

theorem poolCall_addr {act : PoolAct T} (run : poolCall act s = some (ptr, t)) : t.mp.addr = s.mp.addr := by
  cases act with
  | alloc cap =>
    obtain ⟨_, run⟩ := Option.ite_none_right_eq_some.mp run
    obtain ⟨result, alloc, same⟩ := Option.map_eq_some_iff.mp run
    obtain ⟨rfl, rfl⟩ := Prod.mk.inj same
    exact mpAlloc_addr alloc
  | calloc cap =>
    obtain ⟨_, run⟩ := Option.ite_none_right_eq_some.mp run
    obtain ⟨result, alloc, same⟩ := Option.map_eq_some_iff.mp run
    obtain ⟨rfl, rfl⟩ := Prod.mk.inj same
    exact mpCalloc_addr alloc
  | free ptr =>
    rw [poolCall] at run
    split at run
    · obtain ⟨mp, free, same⟩ := Option.map_eq_some_iff.mp run
      obtain ⟨_, rfl⟩ := Prod.mk.inj same
      exact mpFree_addr free
    · obtain ⟨u, next, same⟩ := Option.map_eq_some_iff.mp run
      obtain ⟨_, rfl⟩ := Prod.mk.inj same
      rw [poolStep] at next
      split at next
      · cases next
      · obtain ⟨mp, free, rfl⟩ := Option.map_eq_some_iff.mp next
        exact mpFree_addr free
  | store ptr i byte =>
    obtain ⟨u, next, same⟩ := Option.map_eq_some_iff.mp run
    obtain ⟨_, rfl⟩ := Prod.mk.inj same
    rw [poolStep] at next
    split at next
    · cases next
    · obtain ⟨_, same⟩ := Option.ite_none_right_eq_some.mp next
      obtain rfl := Option.some.inj same
      rfl

/-- A pool at `addr` that its calls have left sound. -/
def Standing (addr : Usz T) (s : Pool T) : Prop := RunInv s ∧ s.mp.addr = addr

theorem Standing.call {act : PoolAct T} (standing : Standing addr s) (run : poolCall act s = some (ptr, t)) :
    Standing addr t := by
  obtain ⟨⟨blks, inv, live⟩, rfl⟩ := standing
  have twin : PoolTwin s s := ⟨blks, inv, inv, rfl, rfl, live⟩
  have kept := twin.call act
  rw [run] at kept
  cases kept with
  | some both =>
    obtain ⟨_, blks', inv', _, _, _, live'⟩ := both
    exact ⟨⟨blks', inv', live'⟩, poolCall_addr run⟩

/-- The pool a reset leaves answers as a zeroed one does. -/
theorem Standing.reset (standing : Standing addr s) :
    ∃ t, sessionCall none s = some (0, t) ∧ Standing addr t ∧ PoolLike t (poolStart addr fun _ => 0) := by
  obtain ⟨⟨blks, inv, _⟩, rfl⟩ := standing
  have room : bufAddr s.mp.addr + mpSize < T.modulus := inv.layout.room
  have start := @PoolInv.start T ⟨s.mp.addr, s.mp.mem, 0, 0⟩ room rfl rfl
  refine ⟨⟨mpInit ⟨s.mp.addr, s.mp.mem, 0, 0⟩, []⟩, ?_, ⟨⟨[], start, .nil⟩, rfl⟩, ?_⟩
  · rw [sessionCall, mpReset_eq inv.lock, Option.map_some]
  · exact PoolTwin.like ⟨[], start, PoolInv.start room rfl rfl, rfl, rfl, .nil⟩

theorem Standing.session {act : Option (PoolAct T)} (standing : Standing addr s)
    (run : sessionCall act s = some (ptr, t)) : Standing addr t := by
  cases act with
  | some act => exact standing.call run
  | none =>
    obtain ⟨u, reset, kept, _⟩ := standing.reset
    rw [reset] at run
    obtain ⟨_, rfl⟩ := Prod.mk.inj (Option.some.inj run)
    exact kept

/-- From one reset to the next a pool hands back what a zeroed pool that was never used does, and every reset
returns. -/
theorem sessions_fresh {mem : Nat → Byte} (room : bufAddr addr + mpSize < T.modulus) (calls : List (List (PoolAct T))) :
    outputs sessionCall (sessions calls) (poolStart addr mem) =
      (calls.mapM fun acts => outputs poolCall acts (poolStart addr fun _ => 0)).map
        fun ptrs => ptrs.flatMap (· ++ [0]) := by
  have start : Standing addr (poolStart addr mem) := ⟨RunInv.start addr mem room, rfl⟩
  have like : PoolLike (poolStart addr mem) (poolStart addr fun _ => 0) :=
    PoolTwin.like ⟨[], PoolInv.start room rfl rfl, PoolInv.start room rfl rfl, rfl, rfl, .nil⟩
  generalize poolStart addr mem = s at start like
  induction calls generalizing s with
  | nil => rfl
  | cons acts calls ih =>
    have split : sessions (acts :: calls) = acts.map some ++ none :: sessions calls := by
      simp only [sessions, List.flatMap_cons, List.append_assoc, List.singleton_append]
    have after : ∀ t, Standing addr t → outputs sessionCall (none :: sessions calls) t =
        ((calls.mapM fun acts => outputs poolCall acts (poolStart addr fun _ => 0)).map
          fun ptrs => ptrs.flatMap (· ++ [0])).map (0 :: ·) := by
      intro t standing
      obtain ⟨u, reset, standing', like'⟩ := standing.reset
      have next := ih u standing' like'
      simp only [outputs, reset, Option.bind_some, next]
    rw [split, outputs_append (P := Standing addr) Standing.session after start, outputs_map]
    have first : outputs (fun act => sessionCall (some act)) acts s = outputs poolCall acts (poolStart addr fun _ => 0) :=
      like acts
    rw [first, List.mapM_cons]
    cases outputs poolCall acts (poolStart addr fun _ => 0) with
    | none => rfl
    | some out =>
      cases calls.mapM fun acts => outputs poolCall acts (poolStart addr fun _ => 0) with
      | none => rfl
      | some outs => simp only [Option.bind_eq_bind, Option.bind_some, Option.pure_def, Option.map_some,
          List.flatMap_cons, List.append_assoc, List.singleton_append]

theorem sessions_fresh_two :
    outputs sessionCall (sessions [[.alloc 20, .calloc 8], [.alloc 8]]) (poolStart (0x1000 : Usz .mcu) fun _ => 1) =
      ([[.alloc 20, .calloc 8], [.alloc 8]].mapM fun acts => outputs poolCall acts (poolStart 0x1000 fun _ => 0)).map
        fun ptrs => ptrs.flatMap (· ++ [0]) :=
  sessions_fresh (by decide) _

end AvaModule.MemPool
