import AvaModule.Ds.Mp.Threads

/-! The statements under the lock of the pool, one by one: each keeps the invariant, for blocks that the thread
has meanwhile. -/
namespace AvaModule.MemPool
open ListHead Memory DoublyLinked Tiling

variable {T : Target} {n addr cap ptr : Usz T} {blks pre post : List (Blk T)} {b : Blk T} {mp : Mp T}

section Cut

theorem PoolInv.rest_toNat (inv : PoolInv mp (pre ++ b :: post)) (tail : n.toNat + headerLen T ≤ b.size) :
    (b.ptr mp.addr + n).toNat = b.addr mp.addr + n.toNat := by
  have member : b ∈ pre ++ b :: post := by simp
  have bound := inv.layout.end_le member
  have room := inv.layout.room
  rw [BitVec.toNat_add, inv.layout.ptr_toNat member]
  exact Nat.mod_eq_of_lt (by rw [Blk.addr, ← Target.modulus]; omega)

/-- The size of the rest of a block that a thread has is stored in that block. -/
theorem PoolInv.sizeRest (inv : PoolInv mp (pre ++ b :: post)) (head : headerLen T ≤ n.toNat)
    (tail : n.toNat + headerLen T ≤ b.size) (x : Usz T) :
    PoolInv { mp with mem := setSize mp.mem (b.ptr mp.addr + n) x } (pre ++ b :: post) ∧
      ∀ i, (i < b.addr mp.addr + n.toNat ∨ b.addr mp.addr + b.size ≤ i) →
        setSize mp.mem (b.ptr mp.addr + n) x i = mp.mem i := by
  have words := header_words (T := T)
  have place := inv.rest_toNat tail
  have frame : ∀ i, (i < b.addr mp.addr + n.toNat ∨ b.addr mp.addr + b.size ≤ i) →
      setSize mp.mem (b.ptr mp.addr + n) x i = mp.mem i := by
    intro i away
    apply store_outside
    rw [place]
    omega
  refine ⟨inv.fillBlock (b := b) (by simp) fun i away => frame i ?_, frame⟩
  rcases away with before | behind
  · exact .inl (by omega)
  · exact .inr behind

/-- With its size stored, the rest becomes a block of its own. -/
theorem PoolInv.divide (inv : PoolInv mp (pre ++ b :: post)) (owner : b.owner = some cap) (dvd : 8 ∣ n.toNat)
    (large : headerLen T + cap.toNat ≤ n.toNat) (tail : n.toNat + headerLen T ≤ b.size)
    (rest : (sizeOf mp.mem (b.ptr mp.addr + n)).toNat = b.size - n.toNat) :
    PoolInv { mp with mem := setSize mp.mem (b.ptr mp.addr) n }
      (pre ++ ⟨b.start, n.toNat, some cap⟩ :: ⟨b.start + n.toNat, b.size - n.toNat, some 0⟩ :: post) := by
  have head : headerLen T ≤ n.toNat := Nat.le_trans (Nat.le_add_right _ _) large
  have layout := inv.layout.cut dvd head tail (some cap) (some 0)
  generalize front_eq : (⟨b.start, n.toNat, some cap⟩ : Blk T) = front at layout
  generalize behind_eq : (⟨b.start + n.toNat, b.size - n.toNat, some 0⟩ : Blk T) = behind at layout
  have front_mem : front ∈ pre ++ front :: behind :: post := by simp
  have front_ptr : b.ptr mp.addr = front.ptr mp.addr := by
    rw [← front_eq]
    rfl
  have behind_ptr : behind.ptr mp.addr = b.ptr mp.addr + n := by
    refine inv.layout.ptr_add (by simp) layout (c := behind) (by simp) ?_
    rw [← behind_eq]
  have free : freePtrs mp.addr (pre ++ front :: behind :: post) = freePtrs mp.addr (pre ++ b :: post) := by
    rw [freePtrs_append, freePtrs_append, freePtrs_live owner, ← front_eq, ← behind_eq, freePtrs_live rfl, freePtrs_live rfl]
  have others : ∀ c ∈ pre ++ front :: behind :: post, c = front ∨ c = behind ∨ c ∈ pre ++ b :: post := by
    intro c member
    simp only [List.mem_append, List.mem_cons] at member ⊢
    tauto
  refine ⟨layout, ?_, ?_, ?_, inv.lock⟩
  · intro c member
    rw [front_ptr]
    by_cases at_front : c = front
    · rw [at_front, sizeOf_setSize, ← front_eq]
    · rw [sizeOf_setSize_apart (layout.words_apart front_mem member (Ne.symm at_front))]
      rcases others c member with same | rfl | old
      · exact absurd same at_front
      · rw [behind_ptr, rest, ← behind_eq]
      · exact inv.words c old
  · rw [free, front_ptr]
    apply ring_congr inv.ring
    intro p p_mem i within
    refine layout.setSize_within front_mem ?_ within
    rw [← free] at p_mem
    rcases List.mem_cons.mp p_mem with rfl | node
    · exact List.mem_cons_self
    · obtain ⟨c, c_mem, rfl⟩ := mem_freePtrs node
      exact List.mem_cons_of_mem _ (List.mem_map_of_mem c_mem)
  · intro c member cap' given
    rcases others c member with rfl | rfl | old
    · rw [← front_eq] at given ⊢
      obtain rfl := Option.some.inj given
      exact large
    · rw [← behind_eq] at given ⊢
      obtain rfl := Option.some.inj given
      rw [zero_toNat]
      dsimp only
      omega
    · exact inv.fits c old cap' given

end Cut

section Link

/-- The list of the blocks behind one, as the loop over the list sees it. -/
def after (addr : Usz T) (post : List (Blk T)) : Usz T := (freePtrs addr post).headD addr

theorem PoolInv.first_after (inv : PoolInv mp blks) : nextOf mp.mem mp.addr = after mp.addr blks := inv.first

/-- The loop over the list is at its root, or at the next free block. -/
theorem PoolInv.after_cases (inv : PoolInv mp (pre ++ post)) :
    (after mp.addr post = mp.addr ∧ ∀ c ∈ post, c.owner ≠ none) ∨
      ∃ held b rest, post = held ++ b :: rest ∧ (∀ c ∈ held, c.owner ≠ none) ∧ b.owner = none ∧
        after mp.addr post = b.ptr mp.addr ∧ b.ptr mp.addr ≠ mp.addr ∧ nextOf mp.mem (b.ptr mp.addr) = after mp.addr rest := by
  induction post generalizing pre with
  | nil => exact .inl ⟨rfl, fun _ none => absurd none List.not_mem_nil⟩
  | cons c post ih =>
    cases live : c.owner with
    | none =>
      have ring := inv.ring
      rw [freePtrs_append, freePtrs_free live] at ring
      refine .inr ⟨[], c, post, rfl, fun _ none => absurd none List.not_mem_nil, live, ?_, inv.layout.root_ne, ring.next_eq⟩
      rw [after, freePtrs_free live, List.headD_cons]
    | some cap =>
      have same : after mp.addr (c :: post) = after mp.addr post := by rw [after, freePtrs_live live, after]
      have later : PoolInv mp ((pre ++ [c]) ++ post) := by rwa [List.append_assoc, List.singleton_append]
      have held : c.owner ≠ none := by simp [live]
      rcases ih later with ⟨root, all⟩ | ⟨front, b, rest, rfl, all, free, place, differ, next⟩
      · exact .inl ⟨same.trans root, List.forall_mem_cons.mpr ⟨held, all⟩⟩
      · exact .inr ⟨c :: front, b, rest, rfl, List.forall_mem_cons.mpr ⟨held, all⟩, free, same.trans place, differ, next⟩

/-- A block that a thread has is put into the list at its place. -/
theorem PoolInv.link (inv : PoolInv mp (pre ++ b :: post)) (live : b.owner = some cap) :
    PoolInv { mp with mem := listAddBetween mp.mem (b.ptr mp.addr) (prevOf mp.mem (after mp.addr post)) (after mp.addr post) }
        (pre ++ { b with owner := none } :: post) ∧
      ∀ i, (∀ p ∈ mp.addr :: (pre ++ b :: post).map (Blk.ptr mp.addr), ¬Within p i) →
        listAddBetween mp.mem (b.ptr mp.addr) (prevOf mp.mem (after mp.addr post)) (after mp.addr post) i = mp.mem i := by
  have ring := inv.ring
  rw [freePtrs_append, freePtrs_live live] at ring
  have above : ∀ q ∈ freePtrs mp.addr post, ¬q < b.ptr mp.addr :=
    fun q late lower => BitVec.lt_irrefl _ (BitVec.lt_trans lower (inv.layout.above q late))
  have place := seek_eq ring inv.layout.below above [] (freePtrs mp.addr pre) rfl
  rw [← ring.first_eq] at place
  obtain ⟨m', run, kept, frame⟩ := inv.giveBack live
  rw [insertByAddr, place] at run
  obtain rfl := Option.some.inj run
  exact ⟨kept, frame⟩

end Link

section Fresh

/-- The size of a new block is stored behind what is in use. -/
theorem PoolInv.sizeFresh (inv : PoolInv mp blks) (n : Usz T) :
    PoolInv { mp with mem := setSize mp.mem (mp.buf + mp.off) n } blks ∧
      ∀ i < bufAddr mp.addr + mp.off.toNat, setSize mp.mem (mp.buf + mp.off) n i = mp.mem i := by
  have place := inv.end_toNat
  have frame : ∀ i < bufAddr mp.addr + mp.off.toNat, setSize mp.mem (mp.buf + mp.off) n i = mp.mem i := by
    intro i before
    apply store_outside
    rw [place]
    omega
  have words := header_words (T := T)
  have used : ∀ b ∈ blks, b.addr mp.addr + b.size ≤ bufAddr mp.addr + mp.off.toNat := by
    intro b member
    have inside := (inv.layout.tiles.inside member).2
    rw [Blk.addr]
    omega
  have heads : ∀ p ∈ mp.addr :: freePtrs mp.addr blks, ∀ i, Within p i → i < bufAddr mp.addr + mp.off.toNat := by
    intro p p_mem i within
    rcases List.mem_cons.mp p_mem with rfl | node
    · rw [Within, Layout.root_toNat] at within
      omega
    · obtain ⟨b, member, rfl⟩ := mem_freePtrs node
      have size := (inv.layout.sizes b member).2
      have bound := used b member
      rw [Within, inv.layout.ptr_toNat member] at within
      omega
  refine ⟨⟨inv.layout, ?_, ring_congr inv.ring fun p p_mem i within => frame i (heads p p_mem i within), inv.fits, inv.lock⟩, frame⟩
  intro b member
  have size := (inv.layout.sizes b member).2
  have bound := used b member
  have same : sizeOf (setSize mp.mem (mp.buf + mp.off) n) (b.ptr mp.addr) = sizeOf mp.mem (b.ptr mp.addr) := by
    apply load_congr
    intro i lo hi
    rw [inv.layout.ptr_toNat member] at lo hi
    exact frame i (by omega)
  rw [same]
  exact inv.words b member

/-- With its size stored, the new block is taken into use. -/
theorem PoolInv.grow (inv : PoolInv mp blks) (dvd : 8 ∣ n.toNat) (large : headerLen T + cap.toNat ≤ n.toNat)
    (fits : mp.off.toNat + n.toNat ≤ mpSize) (word : sizeOf mp.mem (mp.buf + mp.off) = n) :
    PoolInv { mp with off := mp.off + n } (blks ++ [⟨mp.off.toNat, n.toNat, some cap⟩]) := by
  have head : headerLen T ≤ n.toNat := Nat.le_trans (Nat.le_add_right _ _) large
  have off : (mp.off + n).toNat = mp.off.toNat + n.toNat := by
    have enough := inv.layout.room
    rw [BitVec.toNat_add]
    exact Nat.mod_eq_of_lt (by rw [← Target.modulus]; omega)
  have same : freePtrs mp.addr (blks ++ [⟨mp.off.toNat, n.toNat, some cap⟩]) = freePtrs mp.addr blks := by
    rw [freePtrs_append, freePtrs_live rfl]
    exact List.append_nil _
  refine ⟨?_, ?_, ?_, ?_, inv.lock⟩
  · rw [off]
    exact inv.layout.snoc dvd head fits (some cap)
  · intro c member
    rcases List.mem_append.mp member with old | last
    · exact inv.words c old
    · rw [List.mem_singleton.mp last, ← inv.end_ptr, word]
  · rw [same]
    exact inv.ring
  · intro c member cap' owner
    rcases List.mem_append.mp member with old | last
    · exact inv.fits c old cap' owner
    · obtain rfl := List.mem_singleton.mp last
      obtain rfl := Option.some.inj owner
      exact large

end Fresh

end AvaModule.MemPool
