import AvaModule.Ds.Mp.Layout

/-! The free list in the memory of the pool, ordered by address, and the loops over it. -/
namespace AvaModule.MemPool
open ListHead Memory DoublyLinked Tiling

variable {T : Target} {m m' : Nat → Byte} {root t n addr : Usz T} {xs ys : List (Usz T)} {off : Nat}
  {blks pre post : List (Blk T)} {b c : Blk T} {mp : Mp T}

section Insert

/-- From any node before the place, the loop stops at the place. -/
theorem seek_eq (ring : Ring (nextOf m) (prevOf m) root (xs ++ ys)) (below : ∀ p ∈ xs, p < t)
    (above : ∀ q ∈ ys, ¬q < t) (passed rest : List (Usz T)) (eq : xs = passed ++ rest) :
    seek m root t ((rest ++ ys).headD root) = some (ys.headD root) := by
  induction rest generalizing passed with
  | nil =>
    have stop : ¬(ys.headD root ≠ root ∧ ys.headD root < t) := by
      cases ys with
      | nil => exact fun ⟨differ, _⟩ => differ rfl
      | cons q ys => exact fun ⟨_, lower⟩ => above q List.mem_cons_self lower
    rw [List.nil_append, seek_turn, if_neg stop]
  | cons p rest ih =>
    have whole : xs ++ ys = passed ++ p :: (rest ++ ys) := by rw [eq, List.append_assoc, List.cons_append]
    have ring' := ring
    rw [whole] at ring'
    have differ : p ≠ root := by
      rintro rfl
      exact (List.nodup_cons.mp ring'.nodup).1 (by simp)
    have go : p ≠ root ∧ p < t := ⟨differ, below p (by simp [eq])⟩
    rw [List.cons_append, List.headD_cons, seek_turn, if_pos go, ring'.next_eq]
    exact ih (passed ++ [p]) (by simp [eq])

theorem insertByAddr_spec (ring : Ring (nextOf m) (prevOf m) root (xs ++ ys)) (below : ∀ p ∈ xs, p < t)
    (above : ∀ q ∈ ys, ¬q < t) (apart : AllApart (t :: root :: (xs ++ ys))) (fresh : t ∉ root :: (xs ++ ys)) :
    ∃ m', insertByAddr m root t = some m' ∧ Ring (nextOf m') (prevOf m') root (xs ++ t :: ys) ∧
      ∀ i, (∀ p ∈ t :: root :: (xs ++ ys), ¬Within p i) → m' i = m i := by
  have start : Linked (nextOf m) (prevOf m) root ((xs ++ ys).headD root) := @Ring.across _ _ _ root [] _ ring
  have first : nextOf m root = (xs ++ ys).headD root := start.1
  have place := seek_eq ring below above [] xs rfl
  refine ⟨_, ?_, listAddBetween_ring ring apart fresh, ?_⟩
  · rw [insertByAddr, first, place, ← ring.across.2]
    rfl
  · intro i away
    apply listAddBetween_outside
    · exact away _ (List.mem_cons_of_mem t (before_mem root xs ys))
    · exact away t List.mem_cons_self
    · exact away _ (List.mem_cons_of_mem t (after_mem root xs ys))

end Insert

/-- The pointers of the blocks that are not given out. -/
def freePtrs (addr : Usz T) (blks : List (Blk T)) : List (Usz T) :=
  (blks.filter fun b => b.owner.isNone).map (Blk.ptr addr)

/-- What is given out, with the size asked for. -/
def liveOf (addr : Usz T) (blks : List (Blk T)) : List (Usz T × Usz T) :=
  blks.filterMap fun b => b.owner.map fun cap => (b.payload addr, cap)

theorem freePtrs_append (addr : Usz T) (pre post : List (Blk T)) :
    freePtrs addr (pre ++ post) = freePtrs addr pre ++ freePtrs addr post := by
  rw [freePtrs, List.filter_append, List.map_append]
  rfl

theorem freePtrs_free (free : b.owner = none) :
    freePtrs addr (b :: post) = b.ptr addr :: freePtrs addr post := by
  simp [freePtrs, free]

theorem freePtrs_live {cap : Usz T} (live : b.owner = some cap) : freePtrs addr (b :: post) = freePtrs addr post := by
  simp [freePtrs, live]

theorem mem_freePtrs {p : Usz T} (member : p ∈ freePtrs addr blks) : ∃ b ∈ blks, p = b.ptr addr := by
  obtain ⟨b, kept, rfl⟩ := List.mem_map.mp member
  exact ⟨b, List.mem_of_mem_filter kept, rfl⟩

structure PoolInv (mp : Mp T) (blks : List (Blk T)) : Prop where
  layout : Layout mp.addr mp.off.toNat blks
  words : ∀ b ∈ blks, (sizeOf mp.mem (b.ptr mp.addr)).toNat = b.size
  ring : Ring (nextOf mp.mem) (prevOf mp.mem) mp.addr (freePtrs mp.addr blks)
  fits : ∀ b ∈ blks, ∀ cap, b.owner = some cap → headerLen T + cap.toNat ≤ b.size
  lock : mp.lock = 0

section Words

/-- A store outside of the list heads leaves the sizes of the blocks alone. -/
theorem Layout.sizeOf_congr (layout : Layout addr off blks) (member : b ∈ blks)
    (same : ∀ i, (∀ p ∈ addr :: blks.map (Blk.ptr addr), ¬Within p i) → m' i = m i) :
    sizeOf m' (b.ptr addr) = sizeOf m (b.ptr addr) := by
  have words := header_words (T := T)
  have size := (layout.sizes b member).2
  apply load_congr
  intro i lo hi
  rw [layout.ptr_toNat member] at lo hi
  exact same i (layout.outside member lo (by omega))

theorem sizeOf_setSize (m : Nat → Byte) (p x : Usz T) : sizeOf (setSize m p x) p = x := load_store ..

theorem sizeOf_setSize_apart {p q x : Usz T} (apart : p.toNat + wordBytes T ≤ q.toNat ∨ q.toNat + wordBytes T ≤ p.toNat) :
    sizeOf (setSize m p x) q = sizeOf m q := load_store_apart (by omega)

/-- The size of a block is stored outside of the list heads. -/
theorem Layout.setSize_within (layout : Layout addr off blks) (member : b ∈ blks) {p x : Usz T} {i : Nat}
    (p_mem : p ∈ addr :: blks.map (Blk.ptr addr)) (within : Within p i) :
    setSize m (b.ptr addr) x i = m i := by
  have words := header_words (T := T)
  have size := (layout.sizes b member).2
  apply store_outside
  rw [layout.ptr_toNat member]
  by_contra inside
  exact layout.outside member (by omega) (by omega) p p_mem within

end Words

section Scan

/-- The loop finds the first free block that is large enough. -/
theorem PoolInv.scan (inv : PoolInv mp (pre ++ post)) (n : Usz T) :
    MemPool.scan mp.mem mp.addr n ((freePtrs mp.addr post).headD mp.addr) =
      some ((post.find? fun b => b.owner.isNone && decide (n.toNat ≤ b.size)).map (Blk.ptr mp.addr)) := by
  induction post generalizing pre with
  | nil =>
    rw [scan_turn]
    exact if_pos rfl
  | cons b post ih =>
    have later : PoolInv mp ((pre ++ [b]) ++ post) := by rwa [List.append_assoc, List.singleton_append]
    have rest := ih later
    cases live : b.owner with
    | some cap =>
      rw [freePtrs_live live, rest, List.find?_cons_of_neg (by simp [live])]
    | none =>
      have ring := inv.ring
      rw [freePtrs_append, freePtrs_free live] at ring
      have differ : b.ptr mp.addr ≠ mp.addr := by
        intro same
        exact (List.nodup_cons.mp ring.nodup).1 (by simp [same])
      have size := inv.words b (by simp)
      rw [freePtrs_free live, List.headD_cons, scan_turn, if_neg differ]
      by_cases short : b.size < n.toNat
      · have short' : sizeOf mp.mem (b.ptr mp.addr) < n := by
          rw [BitVec.lt_def, size]
          exact short
        rw [if_pos short', ring.next_eq, rest, List.find?_cons_of_neg (by simp [short])]
      · have enough : ¬sizeOf mp.mem (b.ptr mp.addr) < n := by
          rw [BitVec.lt_def, size]
          exact short
        rw [if_neg enough, List.find?_cons_of_pos (by simp [live]; omega)]
        rfl

theorem PoolInv.first (inv : PoolInv mp blks) :
    nextOf mp.mem mp.addr = (freePtrs mp.addr blks).headD mp.addr := by
  have start : Linked (nextOf mp.mem) (prevOf mp.mem) mp.addr ((freePtrs mp.addr blks).headD mp.addr) :=
    @Ring.across _ _ _ mp.addr [] _ inv.ring
  exact start.1

end Scan

end AvaModule.MemPool
