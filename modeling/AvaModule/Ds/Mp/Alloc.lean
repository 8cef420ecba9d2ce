import AvaModule.Ds.Mp.FreeList

/-! What `mp_alloc` and `mp_free` do to the blocks. -/
namespace AvaModule.MemPool
open ListHead Memory DoublyLinked Tiling

variable {T : Target} {m m' : Nat → Byte} {n addr cap : Usz T} {off : Nat}
  {blks pre post : List (Blk T)} {b c : Blk T} {mp : Mp T}

section Order
variable (layout : Layout addr off (pre ++ b :: post))
include layout

theorem Layout.below : ∀ p ∈ freePtrs addr pre, p < b.ptr addr := by
  intro p member
  obtain ⟨c, c_mem, rfl⟩ := mem_freePtrs member
  have order := ((tiles_middle.mp layout.tiles).1.inside c_mem).2
  have size := (layout.sizes c (by simp [c_mem])).2
  have pos := header_pos (T := T)
  rw [BitVec.lt_def, layout.ptr_toNat (by simp [c_mem]), layout.ptr_toNat (by simp), Blk.addr, Blk.addr]
  omega

theorem Layout.above : ∀ q ∈ freePtrs addr post, b.ptr addr < q := by
  intro q member
  obtain ⟨c, c_mem, rfl⟩ := mem_freePtrs member
  have order := ((tiles_middle.mp layout.tiles).2.inside c_mem).1
  have size := (layout.sizes b (by simp)).2
  have pos := header_pos (T := T)
  rw [BitVec.lt_def, layout.ptr_toNat (by simp), layout.ptr_toNat (by simp [c_mem]), Blk.addr, Blk.addr]
  omega

theorem Layout.root_ne : b.ptr addr ≠ addr := by
  intro same
  have place := layout.ptr_toNat (b := b) (by simp)
  have words := wordBytes_pos (T := T)
  rw [same, Blk.addr, bufAddr] at place
  omega

theorem Layout.fresh : b.ptr addr ∉ addr :: (freePtrs addr pre ++ freePtrs addr post) := by
  simp only [List.mem_cons, List.mem_append, not_or]
  refine ⟨layout.root_ne, fun early => ?_, fun late => ?_⟩
  · exact BitVec.lt_irrefl _ (layout.below _ early)
  · exact BitVec.lt_irrefl _ (layout.above _ late)

theorem Layout.nodes_mem {p : Usz T} (member : p ∈ b.ptr addr :: addr :: (freePtrs addr pre ++ freePtrs addr post)) :
    p ∈ addr :: (pre ++ b :: post).map (Blk.ptr addr) := by
  simp only [List.mem_cons, List.mem_append] at member
  rcases member with rfl | rfl | early | late
  · simp
  · simp
  · obtain ⟨c, c_mem, rfl⟩ := mem_freePtrs early
    exact List.mem_cons_of_mem _ (List.mem_map_of_mem (by simp [c_mem]))
  · obtain ⟨c, c_mem, rfl⟩ := mem_freePtrs late
    exact List.mem_cons_of_mem _ (List.mem_map_of_mem (by simp [c_mem]))

theorem Layout.nodes_apart : AllApart (b.ptr addr :: addr :: (freePtrs addr pre ++ freePtrs addr post)) :=
  fun p p_mem q q_mem => layout.allApart p (layout.nodes_mem p_mem) q (layout.nodes_mem q_mem)

/-- The block is put into the free list at its place. -/
theorem Layout.insert (ring : Ring (nextOf m) (prevOf m) addr (freePtrs addr pre ++ freePtrs addr post)) :
    ∃ m', insertByAddr m addr (b.ptr addr) = some m' ∧
      Ring (nextOf m') (prevOf m') addr (freePtrs addr pre ++ b.ptr addr :: freePtrs addr post) ∧
      ∀ i, (∀ p ∈ addr :: (pre ++ b :: post).map (Blk.ptr addr), ¬Within p i) → m' i = m i := by
  obtain ⟨m', run, ring', frame⟩ := insertByAddr_spec ring layout.below
    (fun q late lower => BitVec.lt_irrefl _ (BitVec.lt_trans lower (layout.above q late))) layout.nodes_apart layout.fresh
  exact ⟨m', run, ring', fun i away => frame i fun p member => away p (layout.nodes_mem member)⟩

/-- The block is taken out of the free list. -/
theorem Layout.delete
    (ring : Ring (nextOf m) (prevOf m) addr (freePtrs addr pre ++ b.ptr addr :: freePtrs addr post)) :
    Ring (nextOf (listDel m (b.ptr addr))) (prevOf (listDel m (b.ptr addr))) addr
        (freePtrs addr pre ++ freePtrs addr post) ∧
      ∀ i, (∀ p ∈ addr :: (pre ++ b :: post).map (Blk.ptr addr), ¬Within p i) →
        listDel m (b.ptr addr) i = m i := by
  refine ⟨listDel_ring ring layout.nodes_apart, ?_⟩
  intro i away
  apply listDel_outside
  · rw [ring.prev_eq]
    exact away _ (layout.nodes_mem (List.mem_cons_of_mem _ (before_mem ..)))
  · exact away _ (layout.nodes_mem List.mem_cons_self)
  · rw [ring.next_eq]
    exact away _ (layout.nodes_mem (List.mem_cons_of_mem _ (after_mem ..)))

end Order

/-- One block changes hands. -/
theorem liveOf_middle (b' : Blk T) (none : b.owner = none) (live : b'.owner = some cap)
    (same : b'.payload addr = b.payload addr) :
    (liveOf addr (pre ++ b' :: post)).Perm ((b.payload addr, cap) :: liveOf addr (pre ++ b :: post)) := by
  have before : liveOf addr (pre ++ b :: post) = liveOf addr pre ++ liveOf addr post := by
    simp [liveOf, List.filterMap_append, none]
  have after : liveOf addr (pre ++ b' :: post) = liveOf addr pre ++ (b.payload addr, cap) :: liveOf addr post := by
    simp [liveOf, List.filterMap_append, live, same]
  rw [before, after]
  exact List.perm_middle

/-- The sizes do not change with the owner of a block. -/
theorem PoolInv.words_own (inv : PoolInv mp (pre ++ b :: post))
    (frame : ∀ i, (∀ p ∈ mp.addr :: (pre ++ b :: post).map (Blk.ptr mp.addr), ¬Within p i) → m' i = mp.mem i)
    (owner : Option (Usz T)) :
    ∀ c ∈ pre ++ { b with owner := owner } :: post, (sizeOf m' (c.ptr mp.addr)).toNat = c.size := by
  intro c member
  obtain ⟨d, d_mem, start, size⟩ : ∃ d ∈ pre ++ b :: post, c.start = d.start ∧ c.size = d.size := by
    simp only [List.mem_append, List.mem_cons] at member
    rcases member with early | rfl | late
    · exact ⟨c, by simp [early], rfl, rfl⟩
    · exact ⟨b, by simp, rfl, rfl⟩
    · exact ⟨c, by simp [late], rfl, rfl⟩
  have ptr : c.ptr mp.addr = d.ptr mp.addr := by
    rw [Blk.ptr, Blk.addr, start]
    rfl
  rw [size, ← inv.words d d_mem, ← inv.layout.sizeOf_congr d_mem frame, ptr]

/-- The whole block is given out. -/
theorem PoolInv.whole (inv : PoolInv mp (pre ++ b :: post)) (free : b.owner = none)
    (large : headerLen T + cap.toNat ≤ b.size) :
    PoolInv { mp with mem := listDel mp.mem (b.ptr mp.addr) }
      (pre ++ { b with owner := some cap } :: post) := by
  have ring := inv.ring
  rw [freePtrs_append, freePtrs_free free] at ring
  obtain ⟨ring', frame⟩ := inv.layout.delete ring
  refine ⟨inv.layout.own _, inv.words_own frame _, ?_, ?_, inv.lock⟩
  · rw [freePtrs_append, freePtrs_live rfl]
    exact ring'
  · intro c member cap' owner
    simp only [List.mem_append, List.mem_cons] at member
    rcases member with early | rfl | late
    · exact inv.fits c (by simp [early]) cap' owner
    · obtain rfl := Option.some.inj owner
      exact large
    · exact inv.fits c (by simp [late]) cap' owner

theorem Layout.words_apart (layout : Layout addr off blks) (b_mem : b ∈ blks) (c_mem : c ∈ blks) (differ : b ≠ c) :
    (b.ptr addr).toNat + wordBytes T ≤ (c.ptr addr).toNat ∨ (c.ptr addr).toNat + wordBytes T ≤ (b.ptr addr).toNat := by
  have words := header_words (T := T)
  have b_size := (layout.sizes b b_mem).2
  have c_size := (layout.sizes c c_mem).2
  rw [layout.ptr_toNat b_mem, layout.ptr_toNat c_mem, Blk.addr, Blk.addr]
  rcases layout.tiles.apart b_mem c_mem with same | before | after
  · exact absurd same differ
  · exact .inl (by omega)
  · exact .inr (by omega)

/-- The pointer to a block some way behind another one, whichever blocks there are then. -/
theorem Layout.ptr_add {off' : Nat} {blks' : List (Blk T)} {c : Blk T} (layout : Layout addr off blks) (b_mem : b ∈ blks)
    (layout' : Layout addr off' blks') (c_mem : c ∈ blks') (start : c.start = b.start + n.toNat) :
    c.ptr addr = b.ptr addr + n := by
  apply BitVec.eq_of_toNat_eq
  have bound := layout'.end_le c_mem
  have room := layout.room
  rw [layout'.ptr_toNat c_mem, BitVec.toNat_add, layout.ptr_toNat b_mem, Blk.addr, Blk.addr,
    Nat.mod_eq_of_lt (by rw [← Target.modulus]; omega)]
  omega

/-- The size of a block is stored in its header. -/
theorem Layout.setSize_heads (layout : Layout addr off blks) (member : b ∈ blks) {x : Usz T} {i : Nat}
    (away : ¬Heads addr blks i) : setSize m (b.ptr addr) x i = m i := by
  have words := header_words (T := T)
  apply store_outside
  rw [layout.ptr_toNat member]
  by_contra inside
  exact away (.inr ⟨b, member, by omega, by omega⟩)

/-- The block is cut: its front is given out, and the rest goes back into the list. -/
theorem PoolInv.cut (inv : PoolInv mp (pre ++ b :: post)) (free : b.owner = none) (dvd : 8 ∣ n.toNat)
    (large : headerLen T + cap.toNat ≤ n.toNat) (tail : n.toNat + headerLen T ≤ b.size) :
    ∃ m', insertByAddr (setSize (setSize (listDel mp.mem (b.ptr mp.addr)) (b.ptr mp.addr + n)
        (sizeOf (listDel mp.mem (b.ptr mp.addr)) (b.ptr mp.addr) - n)) (b.ptr mp.addr) n)
        mp.addr (b.ptr mp.addr + n) = some m' ∧
      PoolInv { mp with mem := m' }
        (pre ++ ⟨b.start, n.toNat, some cap⟩ :: ⟨b.start + n.toNat, b.size - n.toNat, none⟩ :: post) ∧
      ∀ i, ¬Heads mp.addr
        (pre ++ ⟨b.start, n.toNat, some cap⟩ :: ⟨b.start + n.toNat, b.size - n.toNat, none⟩ :: post) i →
        m' i = mp.mem i := by
  have head : headerLen T ≤ n.toNat := Nat.le_trans (Nat.le_add_right _ _) large
  have layout := inv.layout.cut dvd head tail (some cap) none
  generalize front_eq : (⟨b.start, n.toNat, some cap⟩ : Blk T) = front at layout
  generalize rest_eq : (⟨b.start + n.toNat, b.size - n.toNat, none⟩ : Blk T) = rest at layout
  have whole : pre ++ front :: rest :: post = (pre ++ [front]) ++ rest :: post := by simp
  have front_mem : front ∈ pre ++ front :: rest :: post := by simp
  have rest_mem : rest ∈ pre ++ front :: rest :: post := by simp
  have front_ptr : front.ptr mp.addr = b.ptr mp.addr := by
    rw [← front_eq]
    rfl
  have rest_ptr : rest.ptr mp.addr = b.ptr mp.addr + n := by
    refine inv.layout.ptr_add (by simp) layout rest_mem ?_
    rw [← rest_eq]
  have ring := inv.ring
  rw [freePtrs_append, freePtrs_free free] at ring
  obtain ⟨ring, frame⟩ := inv.layout.delete ring
  have old_heads : ∀ i, ¬Heads mp.addr (pre ++ front :: rest :: post) i →
      listDel mp.mem (b.ptr mp.addr) i = mp.mem i := by
    intro i away
    apply frame
    intro p p_mem within
    refine away (layout.within_heads ?_ within)
    simp only [List.map_append, List.map_cons, List.mem_cons, List.mem_append, front_ptr] at p_mem ⊢
    tauto
  have b_size : (sizeOf (listDel mp.mem (b.ptr mp.addr)) (b.ptr mp.addr)).toNat = b.size := by
    rw [inv.layout.sizeOf_congr (by simp) frame]
    exact inv.words b (by simp)
  generalize listDel mp.mem (b.ptr mp.addr) = m₁ at ring frame old_heads b_size ⊢
  rw [← rest_ptr, ← front_ptr] at *
  have left : freePtrs mp.addr (pre ++ [front]) = freePtrs mp.addr pre := by
    rw [freePtrs_append, ← front_eq, freePtrs_live rfl]
    exact List.append_nil _
  have rest_size : (sizeOf m₁ (front.ptr mp.addr) - n).toNat = rest.size := by
    rw [BitVec.toNat_sub_of_le (by rw [BitVec.le_def]; omega), b_size, ← rest_eq]
  generalize sizeOf m₁ (front.ptr mp.addr) - n = x at rest_size ⊢
  have ring₂ : Ring (nextOf (setSize (setSize m₁ (rest.ptr mp.addr) x) (front.ptr mp.addr) n))
      (prevOf (setSize (setSize m₁ (rest.ptr mp.addr) x) (front.ptr mp.addr) n)) mp.addr
      (freePtrs mp.addr (pre ++ [front]) ++ freePtrs mp.addr post) := by
    rw [left]
    apply ring_congr ring
    intro p p_mem i within
    have p_mem' : p ∈ mp.addr :: (pre ++ front :: rest :: post).map (Blk.ptr mp.addr) := by
      rw [whole]
      rw [← left] at p_mem
      rw [whole] at layout
      exact layout.nodes_mem (List.mem_cons_of_mem _ p_mem)
    rw [layout.setSize_within front_mem p_mem' within, layout.setSize_within rest_mem p_mem' within]
  have layout' := layout
  rw [whole] at layout'
  obtain ⟨m', run, ring', frame'⟩ := layout'.insert ring₂
  rw [← whole] at frame'
  refine ⟨m', run, ⟨layout, ?_, ?_, ?_, inv.lock⟩, ?_⟩
  · intro c member
    rw [layout.sizeOf_congr member frame']
    by_cases at_front : c = front
    · rw [at_front, sizeOf_setSize, ← front_eq]
    · rw [sizeOf_setSize_apart (layout.words_apart front_mem member (Ne.symm at_front))]
      by_cases at_rest : c = rest
      · rw [at_rest, sizeOf_setSize, rest_size]
      · have old : c ∈ pre ++ b :: post := by
          simp only [List.mem_append, List.mem_cons] at member ⊢
          tauto
        rw [sizeOf_setSize_apart (layout.words_apart rest_mem member (Ne.symm at_rest)),
          inv.layout.sizeOf_congr old frame]
        exact inv.words c old
  · rw [whole, freePtrs_append, freePtrs_free (by rw [← rest_eq])]
    exact ring'
  · intro c member cap' owner
    simp only [List.mem_append, List.mem_cons] at member
    rcases member with early | rfl | rfl | late
    · exact inv.fits c (by simp [early]) cap' owner
    · rw [← front_eq] at owner ⊢
      obtain rfl := Option.some.inj owner
      exact large
    · rw [← rest_eq] at owner
      cases owner
    · exact inv.fits c (by simp [late]) cap' owner
  · intro i away
    rw [frame' i fun p p_mem within => away (layout.within_heads p_mem within),
      layout.setSize_heads front_mem away, layout.setSize_heads rest_mem away, old_heads i away]

theorem PoolInv.end_toNat (inv : PoolInv mp blks) : (mp.buf + mp.off).toNat = bufAddr mp.addr + mp.off.toNat := by
  have enough := inv.layout.room
  have off_le := inv.layout.off_le
  have words : (BitVec.ofNat T.bits (2 * wordBytes T)).toNat = 2 * wordBytes T := by cases T <;> decide
  have buf : mp.buf.toNat = bufAddr mp.addr := by
    rw [Mp.buf, BitVec.toNat_add, words]
    exact Nat.mod_eq_of_lt (by rw [← Target.modulus, Layout.root_toNat]; omega)
  rw [BitVec.toNat_add, buf]
  exact Nat.mod_eq_of_lt (by rw [← Target.modulus]; omega)

/-- Where the next new block would be. -/
theorem PoolInv.end_ptr (inv : PoolInv mp blks) (size : Nat) (owner : Option (Usz T)) :
    mp.buf + mp.off = Blk.ptr mp.addr ⟨mp.off.toNat, size, owner⟩ := by
  have enough := inv.layout.room
  have off_le := inv.layout.off_le
  apply BitVec.eq_of_toNat_eq
  rw [inv.end_toNat]
  exact (toNat_length (n := bufAddr mp.addr + mp.off.toNat) (by omega)).symm

/-- A new block is given out at the end of what is in use. -/
theorem PoolInv.bump (inv : PoolInv mp blks) (dvd : 8 ∣ n.toNat) (large : headerLen T + cap.toNat ≤ n.toNat)
    (room : mp.off.toNat + n.toNat ≤ mpSize) :
    PoolInv { mp with mem := setSize mp.mem (mp.buf + mp.off) n, off := mp.off + n }
      (blks ++ [⟨mp.off.toNat, n.toNat, some cap⟩]) := by
  have head : headerLen T ≤ n.toNat := Nat.le_trans (Nat.le_add_right _ _) large
  have layout := inv.layout.snoc dvd head room (some cap)
  have off : (mp.off + n).toNat = mp.off.toNat + n.toNat := by
    have enough := inv.layout.room
    rw [BitVec.toNat_add]
    exact Nat.mod_eq_of_lt (by rw [← Target.modulus]; omega)
  generalize new_eq : (⟨mp.off.toNat, n.toNat, some cap⟩ : Blk T) = new at layout
  have new_mem : new ∈ blks ++ [new] := by simp
  have place : mp.buf + mp.off = new.ptr mp.addr := by
    rw [← new_eq]
    exact inv.end_ptr _ _
  rw [place]
  refine ⟨by rw [off]; exact layout, ?_, ?_, ?_, inv.lock⟩
  · intro c member
    by_cases at_new : c = new
    · rw [at_new, sizeOf_setSize, ← new_eq]
    · have old : c ∈ blks := by
        rcases List.mem_append.mp member with old | last
        · exact old
        · exact absurd (List.mem_singleton.mp last) at_new
      rw [sizeOf_setSize_apart (layout.words_apart new_mem member (Ne.symm at_new))]
      exact inv.words c old
  · have same : freePtrs mp.addr (blks ++ [new]) = freePtrs mp.addr blks := by
      rw [freePtrs_append, ← new_eq, freePtrs_live rfl]
      exact List.append_nil _
    rw [same]
    apply ring_congr inv.ring
    intro p p_mem i within
    refine layout.setSize_within new_mem ?_ within
    rcases List.mem_cons.mp p_mem with rfl | node
    · exact List.mem_cons_self
    · obtain ⟨c, c_mem, rfl⟩ := mem_freePtrs node
      exact List.mem_cons_of_mem _ (List.mem_map_of_mem (by simp [c_mem]))
  · intro c member cap' owner
    rcases List.mem_append.mp member with old | last
    · exact inv.fits c old cap' owner
    · obtain rfl := List.mem_singleton.mp last
      rw [← new_eq] at owner ⊢
      obtain rfl := Option.some.inj owner
      exact large

/-- A block that is not given out any more goes back into the list. -/
theorem PoolInv.giveBack (inv : PoolInv mp (pre ++ b :: post)) (live : b.owner = some cap) :
    ∃ m', insertByAddr mp.mem mp.addr (b.ptr mp.addr) = some m' ∧
      PoolInv { mp with mem := m' } (pre ++ { b with owner := none } :: post) ∧
      ∀ i, (∀ p ∈ mp.addr :: (pre ++ b :: post).map (Blk.ptr mp.addr), ¬Within p i) → m' i = mp.mem i := by
  have ring := inv.ring
  rw [freePtrs_append, freePtrs_live live] at ring
  obtain ⟨m', run, ring', frame⟩ := inv.layout.insert ring
  refine ⟨m', run, ⟨inv.layout.own _, inv.words_own frame _, ?_, ?_, inv.lock⟩, frame⟩
  · rw [freePtrs_append, freePtrs_free rfl]
    exact ring'
  · intro c member cap' owner
    simp only [List.mem_append, List.mem_cons] at member
    rcases member with early | rfl | late
    · exact inv.fits c (by simp [early]) cap' owner
    · cases owner
    · exact inv.fits c (by simp [late]) cap' owner

end AvaModule.MemPool
