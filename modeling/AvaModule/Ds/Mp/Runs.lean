import AvaModule.Ds.Mp.Calls

/-! Runs of the calls of one pool. Between calls the holder of a block may store into
the bytes it asked for. -/
namespace AvaModule.MemPool
open ListHead Memory DoublyLinked Tiling Transition

variable {T : Target} {addr cap ptr : Usz T} {blks blks' : List (Blk T)} {mp' : Mp T}

/-- A pool, and the pointers that are given out with the sizes asked for. -/
structure Pool (T : Target) where
  mp : Mp T
  live : List (Usz T × Usz T)

/-- `store` is a store of a holder into its own bytes. -/
inductive PoolAct (T : Target) where
  | alloc (cap : Usz T)
  | calloc (cap : Usz T)
  | free (ptr : Usz T)
  | store (ptr : Usz T) (i : Nat) (byte : Byte)

def Pool.given (s : Pool T) (cap : Usz T) (result : Usz T × Mp T) : Pool T :=
  ⟨result.2, if result.1 = 0 then s.live else (result.1, cap) :: s.live⟩

def Pool.holding (s : Pool T) (ptr : Usz T) : Option (Usz T × Usz T) := s.live.find? fun cell => cell.1 = ptr

def poolStep (act : PoolAct T) (s : Pool T) : Option (Pool T) :=
  match act with
  | .alloc cap => (mpAlloc s.mp cap).map (s.given cap)
  | .calloc cap => (mpCalloc s.mp cap).map (s.given cap)
  | .free ptr =>
      match s.holding ptr with
      | none => none
      | some cell => (mpFree s.mp ptr).map fun mp => ⟨mp, s.live.erase cell⟩
  | .store ptr i byte =>
      match s.holding ptr with
      | none => none
      | some cell =>
          if i < cell.2.toNat then
            some { s with mp := { s.mp with mem := write s.mp.mem (ptr.toNat + i) [byte] } }
          else none

/-- No request is larger than the pool; only what is given out is freed or stored into. -/
def Proper (act : PoolAct T) (s : Pool T) : Prop :=
  match act with
  | .alloc cap | .calloc cap => cap.toNat ≤ mpSize
  | .free ptr => ∃ cap, (ptr, cap) ∈ s.live
  | .store ptr i _ => ∃ cell, s.holding ptr = some cell ∧ i < cell.2.toNat

/-- As `Proper`, but for requests of any size whose sums fit. -/
def Sound (act : PoolAct T) (s : Pool T) : Prop :=
  match act with
  | .alloc cap | .calloc cap => SumsFit s.mp cap
  | .free ptr => ∃ cap, (ptr, cap) ∈ s.live
  | .store ptr i _ => ∃ cell, s.holding ptr = some cell ∧ i < cell.2.toNat

def poolStart (addr : Usz T) (mem : Nat → Byte) : Pool T := ⟨mpInit ⟨addr, mem, 0, 0⟩, []⟩

/-- The blocks tile what is in use, the free ones are linked in the order of addresses,
and the others are those given out. -/
structure TiledBy (s : Pool T) (blks : List (Blk T)) : Prop where
  tiles : Tiles Blk.start Blk.size 0 blks s.mp.off.toNat
  off_le : s.mp.off.toNat ≤ mpSize
  sizes : ∀ b ∈ blks, mpAlign ∣ b.size ∧ headerLen T ≤ b.size ∧ (sizeOf s.mp.mem (b.ptr s.mp.addr)).toNat = b.size
  free : Ring (nextOf s.mp.mem) (prevOf s.mp.mem) s.mp.root (freePtrs s.mp.addr blks)
  sorted : (freePtrs s.mp.addr blks).Pairwise (· < ·)
  lock : s.mp.lock = 0
  live : s.live.Perm (liveOf s.mp.addr blks)
  large : ∀ b ∈ blks, ∀ cap, b.owner = some cap → headerLen T + cap.toNat ≤ b.size

/-- What a holder relies on: `x` and `y` are pointers with the sizes asked for. -/
structure Holdings (s : Pool T) : Prop where
  aligned : ∀ x ∈ s.live, mpAlign ∣ x.1.toNat - bufAddr s.mp.addr
  inside : ∀ x ∈ s.live, bufAddr s.mp.addr ≤ x.1.toNat ∧ x.1.toNat + x.2.toNat ≤ bufAddr s.mp.addr + mpSize
  apart : s.live.Pairwise fun x y => x.1.toNat + x.2.toNat ≤ y.1.toNat ∨ y.1.toNat + y.2.toNat ≤ x.1.toNat

section Runs
variable {s : Pool T} {act : PoolAct T}

def RunInv (s : Pool T) : Prop := ∃ blks, PoolInv s.mp blks ∧ s.live.Perm (liveOf s.mp.addr blks)

theorem PoolInv.start {mp : Mp T} (room : bufAddr mp.addr + mpSize < T.modulus) (off : mp.off = 0) (lock : mp.lock = 0) :
    PoolInv (mpInit mp) [] := by
  have zero : (mpInit mp).off.toNat = 0 := congrArg BitVec.toNat off
  refine ⟨⟨room, zero.symm, ?_, nofun⟩, nofun, listInit_ring, nofun, lock⟩
  rw [zero]
  exact Nat.zero_le _

theorem RunInv.start (addr : Usz T) (mem : Nat → Byte) (room : bufAddr addr + mpSize < T.modulus) :
    RunInv (poolStart addr mem) :=
  ⟨[], PoolInv.start room rfl rfl, .nil⟩

theorem Pool.holding_mem {ptr : Usz T} {cell : Usz T × Usz T} (found : s.holding ptr = some cell) :
    cell ∈ s.live ∧ cell.1 = ptr :=
  ⟨List.mem_of_find?_eq_some found, by simpa using List.find?_some found⟩

theorem Pool.holding_some {ptr cap : Usz T} (member : (ptr, cap) ∈ s.live) : ∃ cell, s.holding ptr = some cell := by
  cases found : s.holding ptr with
  | some cell => exact ⟨cell, rfl⟩
  | none =>
    have differ := List.find?_eq_none.mp found _ member
    simp at differ

theorem Pool.given_some {mp : Mp T} (some : ptr ≠ 0) : (s.given cap (ptr, mp)).live = (ptr, cap) :: s.live := if_neg some

theorem Pool.given_none {mp : Mp T} : (s.given cap (0, mp)).live = s.live := by
  simp [Pool.given]

theorem perm_given (live : s.live.Perm (liveOf s.mp.addr blks)) (same : mp'.addr = s.mp.addr)
    (result : ptr = 0 ∧ blks' = blks ∨
      ptr ≠ 0 ∧ (liveOf s.mp.addr blks').Perm ((ptr, cap) :: liveOf s.mp.addr blks)) :
    (s.given cap (ptr, mp')).live.Perm (liveOf mp'.addr blks') := by
  change (if ptr = 0 then s.live else (ptr, cap) :: s.live).Perm (liveOf mp'.addr blks')
  rw [same]
  rcases result with ⟨none, rfl⟩ | ⟨some, grown⟩
  · rw [if_pos none]
    exact live
  · rw [if_neg some]
    exact (live.cons _).trans grown.symm

/-- The blocks after a step. What is given out before and after it has the same block. -/
structure Follows (s : Pool T) (blks : List (Blk T)) (t : Pool T) (blks' : List (Blk T)) : Prop where
  inv : PoolInv t.mp blks'
  live : t.live.Perm (liveOf t.mp.addr blks')
  addr : t.mp.addr = s.mp.addr
  shared : ∀ x ∈ s.live, x ∈ t.live → ∃ b ∈ blks, b ∈ blks' ∧ b.owner = some x.2 ∧ x.1 = b.payload s.mp.addr

/-- What a step stores. -/
def Stores (act : PoolAct T) (s : Pool T) (blks : List (Blk T)) (t : Pool T) (blks' : List (Blk T)) : Prop :=
  match act with
  | .alloc _ | .free _ => ∀ i, ¬Heads s.mp.addr blks' i → t.mp.mem i = s.mp.mem i
  | .calloc cap => mpCalloc s.mp cap = some (0, s.mp) ∧ t = s ∨ ∃ ptr, ptr ≠ 0 ∧ mpCalloc s.mp cap = some (ptr, t.mp) ∧
      t.live = (ptr, cap) :: s.live ∧ (∀ i < cap.toNat, t.mp.mem (ptr.toNat + i) = 0) ∧
      ∀ i, ¬Heads s.mp.addr blks' i → (i < ptr.toNat ∨ ptr.toNat + cap.toNat ≤ i) → t.mp.mem i = s.mp.mem i
  | .store ptr k _ => (∃ cap, (ptr, cap) ∈ s.live ∧ k < cap.toNat) ∧ blks' = blks ∧
      ∀ i ≠ ptr.toNat + k, t.mp.mem i = s.mp.mem i

section Step
variable (inv : PoolInv s.mp blks) (live : s.live.Perm (liveOf s.mp.addr blks))
include inv live

theorem Follows.same : Follows s blks s blks := by
  refine ⟨inv, live, rfl, ?_⟩
  intro x member _
  obtain ⟨pre, b, post, eq, owner, same⟩ := mem_liveOf (live.mem_iff.mp member)
  exact ⟨b, by simp [eq], by simp [eq], owner, same⟩

omit inv in
theorem Follows.given {t : Pool T} (grown : (liveOf s.mp.addr blks').Perm ((ptr, cap) :: liveOf s.mp.addr blks))
    (inv' : PoolInv t.mp blks') (same : t.mp.addr = s.mp.addr) (live' : t.live = (ptr, cap) :: s.live)
    (kept : ∀ c ∈ blks, c.owner ≠ none → c ∈ blks') : Follows s blks t blks' := by
  refine ⟨inv', ?_, same, ?_⟩
  · rw [live', same]
    exact (live.cons _).trans grown.symm
  · intro x member _
    obtain ⟨pre, b, post, eq, owner, same⟩ := mem_liveOf (live.mem_iff.mp member)
    exact ⟨b, by simp [eq], kept b (by simp [eq]) (by simp [owner]), owner, same⟩

theorem alloc_step (fit : SumsFit s.mp cap) :
    ∃ t blks', poolStep (.alloc cap) s = some t ∧ Follows s blks t blks' ∧ Stores (.alloc cap) s blks t blks' := by
  rcases inv.alloc_kept fit with run | ⟨ptr, mp', blks', run, some, inv', same, grown, kept, frame⟩
  · exact ⟨s, blks, congrArg (Option.map _) run, .same inv live, fun _ _ => rfl⟩
  · exact ⟨s.given cap (ptr, mp'), blks', congrArg (Option.map _) run,
      .given live grown inv' same (Pool.given_some some) kept, frame⟩

theorem calloc_step (fit : SumsFit s.mp cap) :
    ∃ t blks', poolStep (.calloc cap) s = some t ∧ Follows s blks t blks' ∧ Stores (.calloc cap) s blks t blks' := by
  rcases inv.alloc_kept fit with run | ⟨ptr, mp', blks', run, some, inv', same, grown, kept, frame⟩
  · have run' := mpCalloc_null run
    exact ⟨s, blks, congrArg (Option.map _) run', .same inv live, .inl ⟨run', rfl⟩⟩
  · have run' := mpCalloc_some run some
    have zeroed := inv'.fill (mem_given grown same) fun _ away => zero_outside away
    refine ⟨s.given cap (ptr, _), blks', congrArg (Option.map _) run',
      .given live grown zeroed same (Pool.given_some some) kept,
      .inr ⟨ptr, some, run', Pool.given_some some, fun i lt => zero_inside lt, ?_⟩⟩
    intro i away beyond
    exact (zero_outside beyond).trans (frame i away)

theorem free_step (held : ∃ cap, (ptr, cap) ∈ s.live) :
    ∃ t blks', poolStep (.free ptr) s = some t ∧ Follows s blks t blks' ∧ Stores (.free ptr) s blks t blks' := by
  obtain ⟨cap, member⟩ := held
  obtain ⟨cell, found⟩ := Pool.holding_some member
  obtain ⟨cell_mem, rfl⟩ := Pool.holding_mem found
  obtain ⟨blks', yields, shrunk, kept⟩ := free_yields (live.mem_iff.mp cell_mem)
  obtain ⟨_, ret, inv', same, frame⟩ := yields s.mp inv rfl
  obtain ⟨mp', run, freed⟩ := Option.map_eq_some_iff.mp ret
  obtain rfl := (Prod.mk.inj freed).2
  have rest : (cell :: s.live.erase cell).Perm (cell :: liveOf s.mp.addr blks') :=
    (List.perm_cons_erase cell_mem).symm.trans (live.trans shrunk)
  have live' : (s.live.erase cell).Perm (liveOf mp'.addr blks') := by
    rw [same]
    exact rest.cons_inv
  refine ⟨⟨mp', s.live.erase cell⟩, blks', ?_, ⟨inv', live', same, ?_⟩, frame⟩
  · simp only [poolStep, found, run, Option.map_some]
  · intro x _ still
    obtain ⟨pre, b, post, rfl, owner, eq⟩ := mem_liveOf (live'.mem_iff.mp still)
    exact ⟨b, kept b (by simp) (by simp [owner]), by simp, owner, same ▸ eq⟩

theorem store_step {i : Nat} {byte : Byte} (own : ∃ cell, s.holding ptr = some cell ∧ i < cell.2.toNat) :
    ∃ t blks', poolStep (.store ptr i byte) s = some t ∧ Follows s blks t blks' ∧
      Stores (.store ptr i byte) s blks t blks' := by
  obtain ⟨cell, found, lt⟩ := own
  obtain ⟨cell_mem, rfl⟩ := Pool.holding_mem found
  let m := write s.mp.mem (cell.1.toNat + i) [byte]
  have outside : ∀ j, (j < cell.1.toNat ∨ cell.1.toNat + cell.2.toNat ≤ j) → m j = s.mp.mem j := by
    intro j away
    apply write_outside
    simp only [List.length_singleton]
    omega
  have start := Follows.same inv live
  refine ⟨{ s with mp := { s.mp with mem := m } }, blks, ?_,
    ⟨inv.fill (live.mem_iff.mp cell_mem) outside, live, rfl, start.shared⟩, ⟨cell.2, cell_mem, lt⟩, rfl, ?_⟩
  · simp only [poolStep, found, if_pos lt, m]
  · intro j other
    apply write_outside
    rw [List.length_singleton]
    omega

theorem sound_step (sound : Sound act s) :
    ∃ t blks', poolStep act s = some t ∧ Follows s blks t blks' ∧ Stores act s blks t blks' := by
  cases act with
  | alloc cap => exact alloc_step inv live sound
  | calloc cap => exact calloc_step inv live sound
  | free ptr => exact free_step inv live sound
  | store ptr i byte => exact store_step inv live sound

end Step

theorem SumsFit.of_le {mp : Mp T} (inv : PoolInv mp blks) (small : cap.toNat ≤ mpSize) : SumsFit mp cap :=
  .inl ((Sized.of_le small).inWord inv)

/-- No request that is smaller than the pool leaves the word. -/
theorem Sound.of_proper (inv : RunInv s) (proper : Proper act s) : Sound act s := by
  obtain ⟨blks, inv, _⟩ := inv
  cases act with
  | alloc cap => exact .of_le inv proper
  | calloc cap => exact .of_le inv proper
  | free ptr => exact proper
  | store ptr i byte => exact proper

theorem RunInv.step (inv : RunInv s) (proper : Proper act s) : ∃ t, poolStep act s = some t ∧ RunInv t := by
  have sound := Sound.of_proper inv proper
  obtain ⟨blks, inv, live⟩ := inv
  obtain ⟨t, blks', step, next, _⟩ := sound_step inv live sound
  exact ⟨t, step, blks', next.inv, next.live⟩

/-- No sum wraps in a run whose requests are smaller than the pool. -/
theorem RunInv.sound {acts : List (PoolAct T)} (inv : RunInv s) (admits : Admits poolStep Proper acts s) :
    Admits poolStep Sound acts s := by
  refine admits.mono_along (P := RunInv) Sound.of_proper ?_ inv
  intro act s t inv proper next
  obtain ⟨u, next', inv'⟩ := inv.step proper
  obtain rfl : u = t := Option.some.inj (next'.symm.trans next)
  exact inv'

/-- Earlier blocks have lower addresses. -/
theorem PoolInv.sorted {mp : Mp T} (inv : PoolInv mp blks) : (freePtrs mp.addr blks).Pairwise (· < ·) := by
  have order := (List.Pairwise.and_mem.mp inv.layout.tiles.pairwise).filter fun b => b.owner.isNone
  refine order.map (Blk.ptr mp.addr) ?_
  rintro b c ⟨b_mem, c_mem, before⟩
  have size := (inv.layout.sizes b b_mem).2
  have pos := header_pos (T := T)
  rw [BitVec.lt_def, inv.layout.ptr_toNat b_mem, inv.layout.ptr_toNat c_mem, Blk.addr, Blk.addr]
  omega

theorem PoolInv.tiledBy (inv : PoolInv s.mp blks) (live : s.live.Perm (liveOf s.mp.addr blks)) : TiledBy s blks := by
  refine ⟨inv.layout.tiles, inv.layout.off_le, ?_, inv.ring, inv.sorted, inv.lock, live, inv.fits⟩
  intro b member
  obtain ⟨dvd, size⟩ := inv.layout.sizes b member
  exact ⟨dvd, size, inv.words b member⟩

theorem RunInv.tiledBy (inv : RunInv s) : ∃ blks, TiledBy s blks := by
  obtain ⟨blks, inv, live⟩ := inv
  exact ⟨blks, inv.tiledBy live⟩

/-- What is given out lies in its block, behind the header. -/
theorem PoolInv.given_inside {mp : Mp T} (inv : PoolInv mp blks) {b : Blk T} (member : b ∈ blks)
    (owner : b.owner = some cap) :
    b.addr mp.addr ≤ (b.payload mp.addr).toNat ∧ (b.payload mp.addr).toNat + cap.toNat ≤ b.addr mp.addr + b.size := by
  have fits := inv.fits b member cap owner
  rw [inv.layout.payload_toNat member]
  omega

theorem PoolInv.given_apart {mp : Mp T} (inv : PoolInv mp blks) :
    (liveOf mp.addr blks).Pairwise fun x y =>
      x.1.toNat + x.2.toNat ≤ y.1.toNat ∨ y.1.toNat + y.2.toNat ≤ x.1.toNat := by
  have order := List.Pairwise.and_mem.mp inv.layout.tiles.pairwise
  refine order.filterMap _ ?_
  rintro b c ⟨b_mem, c_mem, before⟩ x x_eq y y_eq
  obtain ⟨cap, owner, rfl⟩ := Option.map_eq_some_iff.mp x_eq
  obtain ⟨cap', owner', rfl⟩ := Option.map_eq_some_iff.mp y_eq
  have one := inv.given_inside b_mem owner
  have two := inv.given_inside c_mem owner'
  rw [Blk.addr] at one two
  exact .inl (by dsimp only; omega)

theorem RunInv.holdings (inv : RunInv s) : Holdings s := by
  obtain ⟨blks, inv, live⟩ := inv
  have block : ∀ x ∈ s.live, ∃ b ∈ blks, b.owner = some x.2 ∧ x.1 = b.payload s.mp.addr := by
    intro x member
    obtain ⟨pre, b, post, eq, owner, same⟩ := mem_liveOf (live.mem_iff.mp member)
    exact ⟨b, by simp [eq], owner, same⟩
  refine ⟨?_, ?_, ?_⟩
  · intro x member
    obtain ⟨b, b_mem, owner, same⟩ := block x member
    have start : 8 ∣ b.start := inv.layout.tiles.dvd (Nat.dvd_zero 8) (fun c c_mem => (inv.layout.sizes c c_mem).1) b_mem
    have offset : bufAddr s.mp.addr + b.start + headerLen T - bufAddr s.mp.addr = b.start + headerLen T := by omega
    rw [same, inv.layout.payload_toNat b_mem, Blk.addr, offset]
    exact Nat.dvd_add start header_dvd
  · intro x member
    obtain ⟨b, b_mem, owner, same⟩ := block x member
    have inside := inv.given_inside b_mem owner
    have bound := inv.layout.end_le b_mem
    rw [same]
    rw [Blk.addr] at inside
    omega
  · exact live.symm.pairwise inv.given_apart fun apart => apart.symm

/-- Whatever is asked for, given back and stored, every call returns, the blocks tile
what is in use, and what is given out does not overlap. -/
theorem runs_tiled {acts : List (PoolAct T)} {mem : Nat → Byte} (room : bufAddr addr + mpSize < T.modulus)
    (admits : Admits poolStep Proper acts (poolStart addr mem)) :
    ∃ s, runs poolStep acts (poolStart addr mem) = some s ∧ (∃ blks, TiledBy s blks) ∧ Holdings s := by
  obtain ⟨s, run, inv⟩ := runs_total (P := RunInv) (fun inv proper => inv.step proper)
    (RunInv.start addr mem room) admits
  exact ⟨s, run, inv.tiledBy, inv.holdings⟩

/-- Two requests, and the first given back. -/
theorem two_admitted :
    Admits poolStep Proper [.alloc 20, .calloc 8, .free 0x1018] (poolStart (0x1000 : Usz .mcu) fun _ => 0) := by
  have empty : scan (listInit (fun _ => 0) (0x1000 : Usz .mcu)) 0x1000 (headerSize .mcu + alignUp 20)
      (nextOf (listInit (fun _ => 0) (0x1000 : Usz .mcu)) 0x1000) = some none := by
    rw [scan_turn]
    exact if_pos (by decide)
  obtain ⟨mp, alloc⟩ : ∃ mp : Mp .mcu, mpAlloc (poolStart 0x1000 fun _ => 0).mp 20 = some (0x1018, mp) := by
    simp only [mpAlloc, poolStart, mpInit, spinLock, Mp.root, if_true, Option.bind_eq_bind, Option.bind_some, empty]
    exact ⟨_, rfl⟩
  have small : (8 : Usz .mcu).toNat ≤ mpSize := by decide
  have held : ((poolStart 0x1000 fun _ => 0).given 20 (0x1018, mp)).live = [((0x1018 : Usz .mcu), 20)] := by
    have some : ¬(0x1018 : Usz .mcu) = 0 := by decide
    simp only [Pool.given, if_neg some]
    rfl
  refine .cons (by decide : (20 : Usz .mcu).toNat ≤ mpSize) (congrArg (Option.map _) alloc) ⟨small, ?_⟩
  intro t calloc
  obtain ⟨result, _, rfl⟩ := Option.map_eq_some_iff.mp calloc
  refine ⟨⟨20, ?_⟩, fun _ _ => trivial⟩
  rw [Pool.given, held]
  split <;> simp

theorem runs_tiled_two :
    ∃ s : Pool .mcu, runs poolStep [.alloc 20, .calloc 8, .free 0x1018] (poolStart 0x1000 fun _ => 0) = some s ∧
      (∃ blks, TiledBy s blks) ∧ Holdings s :=
  runs_tiled (by decide) two_admitted

end Runs

end AvaModule.MemPool
