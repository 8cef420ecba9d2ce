import AvaModule.Ds.Mp.Frames
import AvaModule.Ds.Mp.Sections
import Mathlib.Data.List.Nodup

/-! What a section under the lock amounts to: the call it is part of, made alone on the blocks that it found. -/
namespace AvaModule.MemPool
open ListHead Memory DoublyLinked Tiling Transition

variable {T : Target} {addr cap ptr : Usz T} {blks blks₀ pre post : List (Blk T)} {b : Blk T} {mp : Mp T} {r : Request T}

/-- A call that is made alone hands back what the log says. -/
def answered (call : Op T × Usz T) (q : Pool T) : Option (Pool T) :=
  (poolCall call.1.act q).bind fun answer => if answer.1 = call.2 then some answer.2 else none

/-- Made alone on the blocks `blks₀`, the call hands back `ptr` and leaves the blocks `blks`. -/
def Ends (addr : Usz T) (blks₀ : List (Blk T)) (op : Op T) (ptr : Usz T) (blks : List (Blk T)) : Prop :=
  ∀ q : Pool T, PoolInv q.mp blks₀ → q.mp.addr = addr → q.live.Perm (liveOf addr blks₀) →
    ∃ q', answered (op, ptr) q = some q' ∧ PoolInv q'.mp blks ∧ q'.mp.addr = addr ∧ q'.live.Perm (liveOf addr blks)

section Alone

/-- A request of either kind ends as `mp_alloc` does. -/
theorem Ends.of_gives (small : r.cap.toNat ≤ mpSize) (gives : Gives addr blks₀ (fun mp => mpAlloc mp r.cap) ptr blks)
    (result : ptr = 0 ∧ blks = blks₀ ∨ ptr ≠ 0 ∧ (liveOf addr blks).Perm ((ptr, r.cap) :: liveOf addr blks₀)) :
    Ends addr blks₀ (.alloc r) ptr blks := by
  rintro q inv rfl live
  obtain ⟨mp, run, kept, same⟩ := gives q.mp inv rfl
  have sized : Sized r.cap := .of_le small
  obtain ⟨cap, zeroed⟩ := r
  cases zeroed with
  | false =>
    have perm := perm_given live same result
    refine ⟨q.given cap (ptr, mp), ?_, kept, same, same ▸ perm⟩
    simp only [answered, Op.act, poolCall, if_pos sized, run, Option.map_some, Option.bind_some, if_true]
  | true =>
    rcases result with ⟨rfl, rfl⟩ | ⟨some, grown⟩
    · have run' := mpCalloc_null run
      have perm : (q.given cap (0, mp)).live.Perm _ := perm_given live same (.inl ⟨rfl, rfl⟩)
      refine ⟨q.given cap (0, mp), ?_, kept, same, same ▸ perm⟩
      simp only [answered, Op.act, poolCall, if_pos sized, run', Option.map_some, Option.bind_some, if_true]
    · have run' := mpCalloc_some run some
      have zeroed := kept.fill (mem_given grown same) fun _ away => zero_outside away
      let filled : Mp _ := { mp with mem := write mp.mem ptr.toNat (List.replicate cap.toNat 0) }
      have perm : (q.given cap (ptr, filled)).live.Perm _ := perm_given live same (.inr ⟨some, grown⟩)
      refine ⟨q.given cap (ptr, _), ?_, zeroed, same, same ▸ perm⟩
      simp only [answered, Op.act, poolCall, if_pos sized, run', Option.map_some, Option.bind_some, if_true]

theorem blockSize_eq (small : r.cap.toNat ≤ mpSize) : r.blockSize.toNat = blockLen r.cap :=
  blockSize_toNat (.of_le small)

theorem ends_taken (small : r.cap.toNat ≤ mpSize) (first : firstFit (pre ++ b :: post) r.blockSize = some b)
    (ne : b.payload addr ≠ 0) :
    Ends addr (pre ++ b :: post) (.alloc r) (b.payload addr) (taken pre b post r.blockSize r.cap) := by
  have size := blockSize_eq small
  obtain ⟨free, fits, _⟩ := firstFit_some first
  refine Ends.of_gives small ?_ (.inr ⟨ne, taken_live addr pre post free _ _⟩)
  rintro mp inv rfl
  obtain ⟨m, run, kept, _⟩ := inv.take free (size ▸ blockLen_dvd r.cap) (size ▸ blockLen_large r.cap) fits
  have eq := inv.mpAlloc_eq r.cap
  rw [← Request.blockSize, first] at eq
  dsimp only at eq ⊢
  rw [eq, run]
  exact ⟨_, rfl, kept.unlocked, rfl⟩

theorem ends_bump (small : r.cap.toNat ≤ mpSize) (none : firstFit blks r.blockSize = none) (held : PoolInv mp blks)
    (here : mp.addr = addr) (fits : mp.off.toNat + r.blockSize.toNat ≤ mpSize) :
    Ends addr blks (.alloc r) (mp.buf + mp.off + headerSize T) (blks ++ [⟨mp.off.toNat, r.blockSize.toNat, some r.cap⟩]) := by
  subst here
  have size := blockSize_eq small
  rw [size] at fits ⊢
  obtain ⟨_, _, grown, same, _⟩ := held.bump_run none fits
  have ne := payload_ne grown (b := ⟨mp.off.toNat, blockLen r.cap, some r.cap⟩) (by simp)
  have place : mp.buf + mp.off + headerSize T = Blk.payload mp.addr ⟨mp.off.toNat, blockLen r.cap, some r.cap⟩ := by
    rw [held.end_ptr (blockLen r.cap) (some r.cap)]
    rfl
  rw [same] at ne
  rw [place]
  refine Ends.of_gives small ?_ (.inr ⟨ne, live_snoc ..⟩)
  intro other inv same
  rw [held.off_eq inv] at fits ⊢
  obtain ⟨mp', run, kept, same', _, _⟩ := inv.bump_run none fits
  rw [← same]
  exact ⟨mp', run, kept, same'⟩

theorem ends_null (small : r.cap.toNat ≤ mpSize) (none : firstFit blks r.blockSize = none) (held : PoolInv mp blks)
    (full : mp.off + r.blockSize > BitVec.ofNat _ mpSize) : Ends addr blks (.alloc r) 0 blks := by
  refine Ends.of_gives small ?_ (.inl ⟨rfl, rfl⟩)
  intro other inv same
  rw [held.off_eq inv] at full
  exact ⟨other, inv.mpAlloc_refused none full, inv, same⟩

/-- Equal pointers are given out once. -/
theorem PoolInv.pair_eq {x y : Usz T × Usz T} (inv : PoolInv mp blks) (x_mem : x ∈ liveOf mp.addr blks)
    (y_mem : y ∈ liveOf mp.addr blks) (same : x.1 = y.1) : x = y :=
  List.inj_on_of_nodup_map (List.pairwise_map.mpr inv.live_nodup) x_mem y_mem same

theorem ends_free (owner : b.owner = some cap) :
    Ends addr (pre ++ b :: post) (.free (b.payload addr)) 0 (pre ++ { b with owner := none } :: post) := by
  rintro q inv rfl live
  have given : (b.payload q.mp.addr, cap) ∈ liveOf q.mp.addr (pre ++ b :: post) :=
    List.mem_filterMap.mpr ⟨b, by simp, by rw [owner]; rfl⟩
  obtain ⟨cell, found⟩ := Pool.holding_some (live.mem_iff.mpr given)
  obtain ⟨cell_mem, same⟩ := Pool.holding_mem found
  obtain rfl : cell = (b.payload q.mp.addr, cap) := inv.pair_eq (live.mem_iff.mp cell_mem) given same
  obtain ⟨mp', run, kept, same', _⟩ := inv.free_run owner
  have ne := payload_ne inv (b := b) (by simp)
  have shrunk := @liveOf_middle T q.mp.addr cap pre post { b with owner := none } b rfl owner rfl
  refine ⟨⟨mp', q.live.erase (b.payload q.mp.addr, cap)⟩, ?_, kept, same', ?_⟩
  · simp only [answered, Op.act, poolCall, if_neg ne, poolStep, found, run, Option.map_some, Option.bind_some, if_true]
  · exact ((List.perm_cons_erase cell_mem).symm.trans (live.trans shrunk)).cons_inv

end Alone

end AvaModule.MemPool
