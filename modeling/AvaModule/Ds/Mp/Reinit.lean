import AvaModule.Ds.Mp.Runs

/-! What `mp_init` leaves of the pool that was in its place. It sets up the free list;
`off` and `lock` stay as they are. -/
namespace AvaModule.MemPool
open ListHead Memory DoublyLinked Tiling Transition

variable {T : Target} {addr cap ptr : Usz T} {blks : List (Blk T)}

instance : Decidable (Sized cap) := inferInstanceAs (Decidable (_ < _))

/-- A call with the pointer it hands back, null where there is none. The sums of a request
stay in the word; null, or what is given out, is freed; what is given out is stored into. -/
def poolCall (act : PoolAct T) (s : Pool T) : Option (Usz T × Pool T) :=
  match act with
  | .alloc cap => if Sized cap then (mpAlloc s.mp cap).map fun result => (result.1, s.given cap result) else none
  | .calloc cap => if Sized cap then (mpCalloc s.mp cap).map fun result => (result.1, s.given cap result) else none
  | .free ptr =>
      if ptr = 0 then (mpFree s.mp ptr).map fun mp => (0, ⟨mp, s.live⟩)
      else (poolStep (.free ptr) s).map fun t => (0, t)
  | .store ptr i byte => (poolStep (.store ptr i byte) s).map fun t => (0, t)

/-- Every sequence of calls hands back the same pointers from both pools, or fails to
return on both. -/
def PoolLike (s t : Pool T) : Prop := ∀ acts, outputs poolCall acts s = outputs poolCall acts t

/-- Two pools at one place with the same blocks. What else their memory holds may differ. -/
def PoolTwin (s t : Pool T) : Prop :=
  ∃ blks, PoolInv s.mp blks ∧ PoolInv t.mp blks ∧ t.mp.addr = s.mp.addr ∧ t.live = s.live ∧
    s.live.Perm (liveOf s.mp.addr blks)

section Twin
variable {s t : Pool T}

/-- A request of either kind. -/
theorem Gives.twin {call : Mp T → Option (Usz T × Mp T)} {blks' : List (Blk T)} (gives : Gives s.mp.addr blks call ptr blks')
    (inv : PoolInv s.mp blks) (inv' : PoolInv t.mp blks) (addr : t.mp.addr = s.mp.addr) (live : t.live = s.live)
    (perm : s.live.Perm (liveOf s.mp.addr blks))
    (result : ptr = 0 ∧ blks' = blks ∨
      ptr ≠ 0 ∧ (liveOf s.mp.addr blks').Perm ((ptr, cap) :: liveOf s.mp.addr blks)) :
    Option.Rel (fun x y => x.1 = y.1 ∧ PoolTwin x.2 y.2)
      ((call s.mp).map fun result => (result.1, s.given cap result))
      ((call t.mp).map fun result => (result.1, t.given cap result)) := by
  obtain ⟨mp, run, kept, same⟩ := gives s.mp inv rfl
  obtain ⟨mp', run', kept', same'⟩ := gives t.mp inv' addr
  rw [run, run']
  refine .some ⟨rfl, blks', kept, kept', same'.trans same.symm, ?_, perm_given perm same result⟩
  simp only [Pool.given, live]

/-- Twins stay twins, whatever is called. -/
theorem PoolTwin.call (twin : PoolTwin s t) (act : PoolAct T) :
    Option.Rel (fun x y => x.1 = y.1 ∧ PoolTwin x.2 y.2) (poolCall act s) (poolCall act t) := by
  obtain ⟨blks, inv, inv', addr, live, perm⟩ := twin
  have holding : ∀ ptr, t.holding ptr = s.holding ptr := fun ptr => by rw [Pool.holding, live, Pool.holding]
  cases act with
  | alloc cap =>
    simp only [poolCall]
    split
    next sized =>
      obtain ⟨ptr, blks', gives, result⟩ := inv.alloc sized
      exact gives.twin inv inv' addr live perm result
    next => exact .none
  | calloc cap =>
    simp only [poolCall]
    split
    next sized =>
      obtain ⟨ptr, blks', gives, result⟩ := inv.calloc sized
      exact gives.twin inv inv' addr live perm result
    next => exact .none
  | free ptr =>
    simp only [poolCall, poolStep, holding]
    split
    next null =>
      simp only [mpFree, if_pos null]
      exact .some ⟨rfl, blks, inv, inv', addr, live, perm⟩
    next =>
      cases found : s.holding ptr with
      | none => exact .none
      | some cell =>
        obtain ⟨cell_mem, rfl⟩ := Pool.holding_mem found
        obtain ⟨blks', gives, shrunk⟩ := free_gives (perm.mem_iff.mp cell_mem)
        obtain ⟨_, ret, kept, same⟩ := gives s.mp inv rfl
        obtain ⟨_, ret', kept', same'⟩ := gives t.mp inv' addr
        obtain ⟨mp, run, freed⟩ := Option.map_eq_some_iff.mp ret
        obtain ⟨mp', run', freed'⟩ := Option.map_eq_some_iff.mp ret'
        obtain rfl := (Prod.mk.inj freed).2
        obtain rfl := (Prod.mk.inj freed').2
        have rest : (cell :: s.live.erase cell).Perm (cell :: liveOf s.mp.addr blks') :=
          (List.perm_cons_erase cell_mem).symm.trans (perm.trans shrunk)
        simp only [run, run', live, Option.map_some]
        refine .some ⟨rfl, blks', kept, kept', same'.trans same.symm, rfl, ?_⟩
        rw [same]
        exact rest.cons_inv
  | store ptr i byte =>
    simp only [poolCall, poolStep, holding]
    cases found : s.holding ptr with
    | none => exact .none
    | some cell =>
      obtain ⟨cell_mem, rfl⟩ := Pool.holding_mem found
      have member := perm.mem_iff.mp cell_mem
      dsimp only
      split
      next lt =>
        have within : ∀ (m : Nat → Byte) (j : Nat), (j < cell.1.toNat ∨ cell.1.toNat + cell.2.toNat ≤ j) →
            write m (cell.1.toNat + i) [byte] j = m j := by
          intro m j away
          apply write_outside
          rw [List.length_singleton]
          omega
        exact .some ⟨rfl, blks, inv.fill member (within _), inv'.fill (addr ▸ member) (within _), addr, live, perm⟩
      next => exact .none

theorem PoolTwin.like (twin : PoolTwin s t) : PoolLike s t :=
  fun _ => outputs_simulates (R := PoolTwin) (fun related => related.call _) twin

end Twin

section Init
variable {mp : Mp T} (cap : Usz T)

/-- The free list is empty, so a request takes what follows the end of what is in use. -/
theorem mpAlloc_init (unlocked : mp.lock = 0) :
    ∃ mp', mpAlloc (mpInit mp) cap =
      if mp.off + (headerSize T + alignUp cap) > BitVec.ofNat _ mpSize then some (0, spinUnlock (mpInit mp))
      else some (mp.buf + mp.off + headerSize T, mp') := by
  have ring : Ring (nextOf (mpInit mp).mem) (prevOf (mpInit mp).mem) mp.addr [] := listInit_ring
  have start : Linked (nextOf (mpInit mp).mem) (prevOf (mpInit mp).mem) mp.addr mp.addr :=
    @Ring.across _ _ _ mp.addr [] [] ring
  have empty : scan (mpInit mp).mem mp.addr (headerSize T + alignUp cap) mp.addr = some none := by
    rw [scan_turn]
    exact if_pos rfl
  have lock : spinLock (mpInit mp) = some { mpInit mp with lock := 1 } := if_pos unlocked
  have root : (mpInit mp).addr = mp.addr := rfl
  simp only [mpAlloc, lock, Mp.root, root, start.1, empty, Option.bind_eq_bind, Option.bind_some]
  exact ⟨_, rfl⟩

theorem mpAlloc_init_locked (locked : mp.lock ≠ 0) : mpAlloc (mpInit mp) cap = none := by
  have stuck : spinLock (mpInit mp) = none := if_neg locked
  simp only [mpAlloc, stuck, Option.bind_eq_bind, Option.bind_none]

/-- The smallest request gets the first block of an empty pool. -/
theorem mpAlloc_fresh (room : bufAddr mp.addr + mpSize < T.modulus) (off : mp.off = 0) (unlocked : mp.lock = 0) :
    mp.buf + headerSize T ≠ 0 ∧ ∃ mp', mpAlloc (mpInit mp) 0 = some (mp.buf + headerSize T, mp') := by
  have inv := PoolInv.start room off unlocked
  have sized : Sized (0 : Usz T) := by cases T <;> decide
  have fits : (mpInit mp).off.toNat + (headerSize T + alignUp 0).toNat ≤ mpSize := by
    change mp.off.toNat + _ ≤ _
    rw [off]
    cases T <;> decide
  have ne := (inv.bump (blockSize_dvd sized) (blockSize_large sized) fits).bump_ne inv rfl rfl
  have start : mp.buf + mp.off = mp.buf := by
    rw [off]
    exact BitVec.add_zero _
  change mp.buf + mp.off + headerSize T ≠ 0 at ne
  rw [start] at ne
  refine ⟨ne, ?_⟩
  obtain ⟨mp', run⟩ := mpAlloc_init 0 unlocked
  have enough : ¬mp.off + (headerSize T + alignUp 0) > BitVec.ofNat _ mpSize := by
    rw [off]
    cases T <;> decide
  rw [if_neg enough, start] at run
  exact ⟨mp', run⟩

/-- One request already tells whether `off` and `lock` were clear. -/
theorem PoolLike.clear (room : bufAddr mp.addr + mpSize < T.modulus)
    (like : PoolLike ⟨mpInit mp, []⟩ (poolStart mp.addr fun _ => 0)) : mp.off = 0 ∧ mp.lock = 0 := by
  have sized : Sized (0 : Usz T) := by cases T <;> decide
  obtain ⟨ne, mp', fresh⟩ := @mpAlloc_fresh T ⟨mp.addr, fun _ => 0, 0, 0⟩ room rfl rfl
  have buf : Mp.buf ⟨mp.addr, fun _ => 0, 0, 0⟩ = mp.buf := rfl
  have same := like [.alloc 0]
  rw [buf] at ne fresh
  simp only [outputs, poolCall, if_pos sized, poolStart, fresh, Option.map_some, Option.bind_some] at same
  by_cases locked : mp.lock = 0
  · refine ⟨?_, locked⟩
    obtain ⟨mp'', run⟩ := mpAlloc_init 0 locked
    rw [run] at same
    split at same
    · simp only [Option.map_some, Option.bind_some, Option.some.injEq, List.cons.injEq, and_true] at same
      exact absurd same.symm ne
    · simp only [Option.map_some, Option.bind_some, Option.some.injEq, List.cons.injEq, and_true] at same
      exact BitVec.add_right_eq_self.mp ((BitVec.add_left_inj _).mp same)
  · rw [mpAlloc_init_locked 0 locked] at same
    cases same

/-- After `mp_init`, a pool behaves like a zeroed one exactly if nothing was in use and
the lock was free. -/
theorem poolLike_iff (room : bufAddr mp.addr + mpSize < T.modulus) :
    PoolLike ⟨mpInit mp, []⟩ (poolStart mp.addr fun _ => 0) ↔ mp.off = 0 ∧ mp.lock = 0 := by
  refine ⟨PoolLike.clear room, fun ⟨off, lock⟩ => PoolTwin.like ?_⟩
  exact ⟨[], PoolInv.start room off lock, PoolInv.start room rfl rfl, rfl, rfl, .nil⟩

end Init

end AvaModule.MemPool
