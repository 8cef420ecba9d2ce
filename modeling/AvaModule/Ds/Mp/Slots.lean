import AvaModule.Ds.Mp.Calls

/-! A pool whose requests all have one size. A block is taken whole and never cut, and
what lies behind its header stays until its holder stores there. -/
namespace AvaModule.MemPool
open ListHead Memory DoublyLinked Tiling

variable {T : Target} {mp : Mp T} {cap ptr p q : Usz T} {held slots : List (Usz T)}
  {blks pre post : List (Blk T)} {b c : Blk T} {m : Nat → Byte}

/-- `held` is given out; `slots` are all the pointers there are. -/
def Slots (mp : Mp T) (cap : Usz T) (held slots : List (Usz T)) : Prop :=
  ∃ blks, PoolInv mp blks ∧ (∀ b ∈ blks, b.size = (headerSize T + alignUp cap).toNat) ∧
    (liveOf mp.addr blks).Perm (held.map fun ptr => (ptr, cap)) ∧ slots = blks.map (Blk.payload mp.addr)

/-- The bytes behind the headers are as they were. -/
def SlotsKept (cap : Usz T) (slots : List (Usz T)) (m m' : Nat → Byte) : Prop :=
  ∀ q ∈ slots, ∀ i < cap.toNat, m' (q.toNat + i) = m (q.toNat + i)

section Blocks

theorem PoolInv.slot_inside (inv : PoolInv mp blks) (member : b ∈ blks) (small : cap.toNat ≤ mpSize)
    (size : b.size = (headerSize T + alignUp cap).toNat) :
    (b.payload mp.addr).toNat = b.addr mp.addr + headerLen T ∧
      (b.payload mp.addr).toNat + cap.toNat ≤ b.addr mp.addr + b.size := by
  have large := blockSize_large (Sized.of_le small)
  rw [inv.layout.payload_toNat member]
  exact ⟨rfl, by omega⟩

/-- No store into the list heads is seen behind the headers. -/
theorem PoolInv.slots_kept (inv : PoolInv mp blks) (small : cap.toNat ≤ mpSize)
    (sizes : ∀ b ∈ blks, b.size = (headerSize T + alignUp cap).toNat)
    (frame : ∀ i, (∀ p ∈ mp.addr :: blks.map (Blk.ptr mp.addr), ¬Within p i) → m i = mp.mem i) :
    SlotsKept cap (blks.map (Blk.payload mp.addr)) mp.mem m := by
  intro q q_mem i lt
  obtain ⟨b, member, rfl⟩ := List.mem_map.mp q_mem
  have words := header_words (T := T)
  obtain ⟨place, inside⟩ := inv.slot_inside member small (sizes b member)
  exact frame _ (inv.layout.outside member (by omega) (by omega))

theorem PoolInv.payload_apart (inv : PoolInv mp blks) (small : cap.toNat ≤ mpSize)
    (sizes : ∀ b ∈ blks, b.size = (headerSize T + alignUp cap).toNat) :
    (blks.map (Blk.payload mp.addr)).Pairwise fun p q => p.toNat + cap.toNat < q.toNat := by
  have order := List.Pairwise.and_mem.mp inv.layout.tiles.pairwise
  refine order.map _ ?_
  rintro b c ⟨b_mem, c_mem, before⟩
  have pos := header_pos (T := T)
  have b_in := inv.slot_inside b_mem small (sizes b b_mem)
  have c_in := inv.slot_inside c_mem small (sizes c c_mem)
  rw [Blk.addr] at b_in c_in
  omega

theorem liveOf_sublist (addr : Usz T) (blks : List (Blk T)) :
    List.Sublist ((liveOf addr blks).map Prod.fst) (blks.map (Blk.payload addr)) := by
  induction blks with
  | nil => exact .refl _
  | cons b blks ih =>
    cases live : b.owner with
    | none =>
      have skip : liveOf addr (b :: blks) = liveOf addr blks := by simp [liveOf, live]
      rw [skip]
      exact ih.cons _
    | some cap =>
      have keep : liveOf addr (b :: blks) = (b.payload addr, cap) :: liveOf addr blks := by simp [liveOf, live]
      rw [keep]
      exact ih.cons_cons _

end Blocks

namespace Slots

theorem unlocked (inv : Slots mp cap held slots) : Slots (spinUnlock mp) cap held slots := by
  obtain ⟨blks, pool, sizes, live, all⟩ := inv
  exact ⟨blks, pool.unlocked, sizes, live, all⟩

theorem held_slots (inv : Slots mp cap held slots) : ∀ p ∈ held, p ∈ slots := by
  obtain ⟨blks, pool, sizes, live, rfl⟩ := inv
  intro p member
  have cell : (p, cap) ∈ liveOf mp.addr blks := live.mem_iff.mpr (List.mem_map_of_mem member)
  exact (liveOf_sublist mp.addr blks).subset (List.mem_map_of_mem cell)

theorem apart (inv : Slots mp cap held slots) (small : cap.toNat ≤ mpSize) (p_mem : p ∈ slots) (q_mem : q ∈ slots)
    (differ : p ≠ q) : p.toNat + cap.toNat ≤ q.toNat ∨ q.toNat + cap.toNat ≤ p.toNat := by
  obtain ⟨blks, pool, sizes, live, rfl⟩ := inv
  obtain ⟨b, b_mem, rfl⟩ := List.mem_map.mp p_mem
  obtain ⟨c, c_mem, rfl⟩ := List.mem_map.mp q_mem
  have b_in := pool.slot_inside b_mem small (sizes b b_mem)
  have c_in := pool.slot_inside c_mem small (sizes c c_mem)
  rw [Blk.addr] at b_in c_in
  rcases pool.layout.tiles.apart b_mem c_mem with rfl | before | after
  · exact absurd rfl differ
  · exact .inl (by omega)
  · exact .inr (by omega)

theorem nodup (inv : Slots mp cap held slots) (small : cap.toNat ≤ mpSize) : held.Nodup := by
  obtain ⟨blks, pool, sizes, live, rfl⟩ := inv
  have all : (blks.map (Blk.payload mp.addr)).Nodup := by
    refine (pool.payload_apart small sizes).imp ?_
    rintro p q before rfl
    omega
  have firsts := live.map Prod.fst
  rw [List.map_map] at firsts
  have some := firsts.nodup (all.sublist (liveOf_sublist mp.addr blks))
  simpa only [Function.comp_def, List.map_id'] using some

theorem ne_zero (inv : Slots mp cap held slots) (member : q ∈ slots) : q ≠ 0 := by
  obtain ⟨blks, pool, sizes, live, rfl⟩ := inv
  obtain ⟨b, b_mem, rfl⟩ := List.mem_map.mp member
  exact payload_ne pool b_mem

/-- Anything may be stored behind a header. -/
theorem store (inv : Slots mp cap held slots) (small : cap.toNat ≤ mpSize) (member : q ∈ slots)
    (inside : ∀ i, (i < q.toNat ∨ q.toNat + cap.toNat ≤ i) → m i = mp.mem i) :
    Slots { mp with mem := m } cap held slots := by
  obtain ⟨blks, pool, sizes, live, rfl⟩ := inv
  obtain ⟨b, b_mem, rfl⟩ := List.mem_map.mp member
  have place := pool.slot_inside b_mem small (sizes b b_mem)
  refine ⟨blks, pool.fillBlock b_mem fun i away => inside i ?_, sizes, live, rfl⟩
  omega

/-- A request is refused, or gets a pointer that no one else holds. -/
theorem alloc (inv : Slots mp cap held slots) (small : cap.toNat ≤ mpSize) :
    ∃ ptr mp', mpAlloc mp cap = some (ptr, mp') ∧
      (ptr = 0 ∧ Slots mp' cap held slots ∧ mp'.mem = mp.mem ∨
        ptr ≠ 0 ∧ ∃ slots', Slots mp' cap (ptr :: held) slots' ∧ (∀ q, q ∈ slots' ↔ q = ptr ∨ q ∈ slots) ∧
          SlotsKept cap slots mp.mem mp'.mem) := by
  obtain ⟨blks, pool, sizes, live, rfl⟩ := inv
  have sized := Sized.of_le small
  have dvd := blockSize_dvd sized
  have large := blockSize_large sized
  have blockSize := blockSize_toNat sized
  have sums := sized
  simp only [Sized] at sums
  rw [pool.mpAlloc_eq]
  cases found : firstFit blks (headerSize T + alignUp cap) with
  | some b =>
    obtain ⟨free, fits, pre, post, rfl⟩ := firstFit_some found
    have b_mem : b ∈ pre ++ b :: post := by simp
    have size := sizes b b_mem
    have ring := pool.ring
    rw [freePtrs_append, freePtrs_free free] at ring
    have whole : takeBlock mp.mem mp.addr (b.ptr mp.addr) (headerSize T + alignUp cap) =
        some (listDel mp.mem (b.ptr mp.addr)) := by
      rw [takeBlock, if_neg]
      rw [pool.rest_iff b_mem fits]
      omega
    have pool' : PoolInv _ (pre ++ { b with owner := some cap } :: post) := pool.whole free (by omega)
    simp only [whole, Option.map_some]
    refine ⟨_, _, rfl, .inr ⟨payload_ne pool b_mem, _, ⟨_, pool'.unlocked, ?_, ?_, rfl⟩, ?_, ?_⟩⟩
    · intro c member
      simp only [List.mem_append, List.mem_cons] at member
      rcases member with early | rfl | late
      · exact sizes c (by simp [early])
      · exact size
      · exact sizes c (by simp [late])
    · exact (liveOf_middle { b with owner := some cap } free rfl rfl).trans (live.cons _)
    · intro q
      change _ ∈ (pre ++ { b with owner := some cap } :: post).map (Blk.payload mp.addr) ↔ _
      have same : Blk.payload mp.addr { b with owner := some cap } = b.payload mp.addr := rfl
      rw [List.map_append, List.map_cons, same, List.map_append, List.map_cons, List.mem_append, List.mem_cons]
      tauto
    · exact pool.slots_kept small sizes (pool.layout.delete ring).2
  | none =>
    dsimp only
    by_cases full : mp.off + (headerSize T + alignUp cap) > BitVec.ofNat _ mpSize
    · rw [if_pos full]
      exact ⟨0, _, rfl, .inl ⟨rfl, ⟨blks, pool.unlocked, sizes, live, rfl⟩, rfl⟩⟩
    · rw [if_neg full]
      rw [pool.off_add (by omega)] at full
      have pool' := pool.bump dvd large (by omega)
      refine ⟨_, _, rfl, .inr ⟨pool'.bump_ne pool rfl rfl, _, ⟨_, pool'.unlocked, ?_, ?_, rfl⟩, ?_, ?_⟩⟩
      · intro c member
        rcases List.mem_append.mp member with old | last
        · exact sizes c old
        · rw [List.mem_singleton.mp last]
      · exact (pool.bump_live _ cap).trans (live.cons _)
      · intro q
        rw [pool.end_ptr (headerSize T + alignUp cap).toNat (some cap)]
        simp only [spinUnlock, List.map_append, List.map_cons, List.map_nil, List.mem_append, List.mem_singleton,
          Blk.payload]
        tauto
      · intro q q_mem i lt
        obtain ⟨b, b_mem, rfl⟩ := List.mem_map.mp q_mem
        have inside := pool.slot_inside b_mem small (sizes b b_mem)
        have before := (pool.layout.tiles.inside b_mem).2
        apply store_outside
        have place := pool'.layout.ptr_toNat (List.mem_append_right blks List.mem_cons_self)
        rw [pool.end_ptr (headerSize T + alignUp cap).toNat (some cap)]
        simp only [Blk.addr] at inside place
        omega

/-- What is given back may be given out again. -/
theorem free (inv : Slots mp cap held slots) (small : cap.toNat ≤ mpSize) (member : ptr ∈ held) :
    ∃ mp', mpFree mp ptr = some mp' ∧ Slots mp' cap (held.erase ptr) slots ∧ SlotsKept cap slots mp.mem mp'.mem := by
  obtain ⟨blks, pool, sizes, live, rfl⟩ := inv
  have cell : (ptr, cap) ∈ liveOf mp.addr blks := live.mem_iff.mpr (List.mem_map_of_mem member)
  obtain ⟨pre, b, post, rfl, owner, rfl⟩ := mem_liveOf cell
  obtain ⟨m, run, pool', frame⟩ := pool.giveBack owner
  refine ⟨_, ?_, ⟨_, pool'.unlocked, ?_, ?_, ?_⟩, ?_⟩
  · rw [pool.mpFree_eq (by simp), run]
    rfl
  · intro c member
    simp only [List.mem_append, List.mem_cons] at member
    rcases member with early | rfl | late
    · exact sizes c (by simp [early])
    · exact sizes b (by simp)
    · exact sizes c (by simp [late])
  · have shrunk := @liveOf_middle T mp.addr cap pre post { b with owner := none } b rfl owner rfl
    have rest := (List.perm_cons_erase member).map fun ptr : Usz T => (ptr, cap)
    exact (shrunk.symm.trans (live.trans rest)).cons_inv
  · have same : Blk.payload mp.addr { b with owner := none } = b.payload mp.addr := rfl
    simp only [spinUnlock, List.map_append, List.map_cons, same]
  · exact pool.slots_kept small sizes frame

/-- A request by `mp_calloc` also gets its bytes zeroed. -/
theorem calloc (inv : Slots mp cap held slots) (small : cap.toNat ≤ mpSize) :
    ∃ ptr mp', mpCalloc mp cap = some (ptr, mp') ∧
      (ptr = 0 ∧ Slots mp' cap held slots ∧ mp'.mem = mp.mem ∨
        ptr ≠ 0 ∧ ∃ slots', Slots mp' cap (ptr :: held) slots' ∧ (∀ q, q ∈ slots' ↔ q = ptr ∨ q ∈ slots) ∧
          (∀ i < cap.toNat, mp'.mem (ptr.toNat + i) = 0) ∧
          ∀ q ∈ slots, q ≠ ptr → ∀ i < cap.toNat, mp'.mem (q.toNat + i) = mp.mem (q.toNat + i)) := by
  obtain ⟨ptr, mp', run, refused | ⟨some, slots', inv', all, kept⟩⟩ := inv.alloc small
  · obtain ⟨rfl, inv', same⟩ := refused
    exact ⟨0, mp', mpCalloc_null run, .inl ⟨rfl, inv', same⟩⟩
  · have ptr_mem : ptr ∈ slots' := (all ptr).mpr (.inl rfl)
    have filled : Slots { mp' with mem := write mp'.mem ptr.toNat (List.replicate cap.toNat 0) } cap
        (ptr :: held) slots' := inv'.store small ptr_mem fun _ away => zero_outside away
    refine ⟨ptr, _, mpCalloc_some run some, .inr ⟨some, slots', filled, all, fun i lt => zero_inside lt, ?_⟩⟩
    intro q member differ i lt
    have away := inv'.apart small ((all q).mpr (.inr member)) ptr_mem differ
    rw [← kept q member i lt]
    exact zero_outside (by omega)

end Slots

end AvaModule.MemPool
