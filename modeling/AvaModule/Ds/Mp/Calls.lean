import AvaModule.Ds.Mp.Alloc

/-! The calls of the pool, one by one: each keeps the invariant, and adds to what is
given out or takes from it as it reports. -/
namespace AvaModule.MemPool
open ListHead Memory DoublyLinked Tiling Transition

variable {T : Target} {n addr cap ptr off : Usz T} {blks pre post : List (Blk T)} {b c : Blk T} {mp mp' : Mp T}

section Calls

theorem PoolInv.unlocked (inv : PoolInv mp blks) : PoolInv (spinUnlock mp) blks :=
  ⟨inv.layout, inv.words, inv.ring, inv.fits, rfl⟩

/-- The bytes that a request for `cap` bytes takes, header included. -/
def blockLen (cap : Usz T) : Nat := headerLen T + (cap.toNat + 7) / 8 * 8

/-- The size of the block that is looked for. -/
theorem toNat_blockSize_mod (cap : Usz T) : (headerSize T + alignUp cap).toNat = blockLen cap % T.modulus := by
  rw [BitVec.toNat_add, toNat_alignUp_mod, ← headerLen, ← Target.modulus, Nat.add_mod_mod]
  rfl

theorem toNat_blockSize (word : blockLen cap < T.modulus) : (headerSize T + alignUp cap).toNat = blockLen cap := by
  rw [toNat_blockSize_mod]
  exact Nat.mod_eq_of_lt word

theorem blockLen_le (cap : Usz T) : blockLen cap ≤ T.modulus + headerLen T := by
  have lt : cap.toNat < T.modulus := cap.isLt
  have word : 8 ∣ T.modulus := by cases T <;> decide
  rw [blockLen]
  omega

theorem blockLen_dvd (cap : Usz T) : 8 ∣ blockLen cap := Nat.dvd_add header_dvd (Nat.dvd_mul_left 8 _)

theorem blockLen_large (cap : Usz T) : headerLen T + cap.toNat ≤ blockLen cap := by
  rw [blockLen]
  omega

/-- The sums that a request for `cap` bytes makes stay in the word. -/
def Sized (cap : Usz T) : Prop := mpSize + headerLen T + (cap.toNat + 7) < T.modulus

theorem Sized.of_le (small : cap.toNat ≤ mpSize) : Sized cap := by
  have large := modulus_large (T := T)
  have head := header_le (T := T)
  rw [mpSize] at small
  rw [Sized, mpSize]
  omega

theorem Sized.sum_lt (sized : Sized cap) : mpSize + blockLen cap < T.modulus := by
  rw [Sized] at sized
  rw [blockLen]
  omega

theorem Sized.inWord (sized : Sized cap) (inv : PoolInv mp blks) : mp.off.toNat + blockLen cap < T.modulus :=
  Nat.lt_of_le_of_lt (Nat.add_le_add_right inv.layout.off_le _) sized.sum_lt

theorem blockSize_toNat (sized : Sized cap) :
    (headerSize T + alignUp cap).toNat = headerLen T + (cap.toNat + 7) / 8 * 8 :=
  toNat_blockSize (Nat.lt_of_le_of_lt (Nat.le_add_left _ _) sized.sum_lt)

theorem payload_ne (inv : PoolInv mp blks) (member : b ∈ blks) : b.payload mp.addr ≠ 0 := by
  intro none
  have place := inv.layout.payload_toNat member
  have pos := header_pos (T := T)
  have zero : (0 : Usz T).toNat = 0 := BitVec.toNat_zero
  rw [none] at place
  omega

/-- A block is cut if what is left makes a block. -/
theorem PoolInv.rest_iff (inv : PoolInv mp blks) (member : b ∈ blks) (fits : n.toNat ≤ b.size) :
    sizeOf mp.mem (b.ptr mp.addr) ≥ n + headerSize T + 8 ↔ n.toNat + headerLen T + 8 ≤ b.size := by
  have size := inv.words b member
  have size_le := inv.layout.end_le member
  have eight : (8 : Usz T).toNat = 8 := by cases T <;> decide
  have head := header_le (T := T)
  have bound : (n + headerSize T + 8).toNat = n.toNat + headerLen T + 8 := by
    have room := modulus_large (T := T)
    rw [mpSize] at size_le
    rw [BitVec.toNat_add, BitVec.toNat_add, eight, ← headerLen, Nat.mod_eq_of_lt (a := n.toNat + _),
      Nat.mod_eq_of_lt] <;> rw [← Target.modulus] <;> omega
  rw [ge_iff_le, BitVec.le_def, bound, size]

/-- The blocks after a free one among them has been taken, whole or cut. -/
def taken (pre : List (Blk T)) (b : Blk T) (post : List (Blk T)) (n cap : Usz T) : List (Blk T) :=
  if n.toNat + headerLen T + 8 ≤ b.size then
    pre ++ ⟨b.start, n.toNat, some cap⟩ :: ⟨b.start + n.toNat, b.size - n.toNat, none⟩ :: post
  else pre ++ { b with owner := some cap } :: post

/-- A free block that is large enough is taken. -/
theorem PoolInv.take (inv : PoolInv mp (pre ++ b :: post)) (free : b.owner = none) (dvd : 8 ∣ n.toNat)
    (large : headerLen T + cap.toNat ≤ n.toNat) (fits : n.toNat ≤ b.size) :
    ∃ m, takeBlock mp.mem mp.addr (b.ptr mp.addr) n = some m ∧
      PoolInv { mp with mem := m } (taken pre b post n cap) ∧
      ∀ i, ¬Heads mp.addr (taken pre b post n cap) i → m i = mp.mem i := by
  have cut_iff := inv.rest_iff (by simp) fits
  by_cases rest : sizeOf mp.mem (b.ptr mp.addr) ≥ n + headerSize T + 8
  · have tail := cut_iff.mp rest
    obtain ⟨m, run, inv'⟩ := inv.cut free dvd large (by omega)
    rw [takeBlock, if_pos rest, taken, if_pos tail]
    exact ⟨m, run, inv'⟩
  · rw [takeBlock, if_neg rest, taken, if_neg (mt cut_iff.mpr rest)]
    have ring := inv.ring
    rw [freePtrs_append, freePtrs_free free] at ring
    have frame := (inv.layout.delete ring).2
    exact ⟨_, rfl, inv.whole free (Nat.le_trans large fits), fun i away => frame i (inv.layout.own_heads away)⟩

theorem taken_live (addr : Usz T) (pre post : List (Blk T)) (free : b.owner = none) (n cap : Usz T) :
    (liveOf addr (taken pre b post n cap)).Perm ((b.payload addr, cap) :: liveOf addr (pre ++ b :: post)) := by
  unfold taken
  split
  · refine (liveOf_middle ⟨b.start, n.toNat, some cap⟩ free rfl rfl).trans (.cons _ (.of_eq ?_))
    simp [liveOf, List.filterMap_append, free]
  · exact liveOf_middle _ free rfl rfl

theorem taken_keeps (free : b.owner = none) (n cap : Usz T) (member : c ∈ pre ++ b :: post) (held : c.owner ≠ none) :
    c ∈ taken pre b post n cap := by
  have differ : c ≠ b := by
    rintro rfl
    exact held free
  unfold taken
  split
  all_goals
    simp only [List.mem_append, List.mem_cons] at member ⊢
    tauto

/-- The first free block that is large enough, as the blocks tell it. -/
def firstFit (blks : List (Blk T)) (n : Usz T) : Option (Blk T) :=
  blks.find? fun b => b.owner.isNone && decide (n.toNat ≤ b.size)

theorem firstFit_some (found : firstFit blks n = some b) :
    b.owner = none ∧ n.toNat ≤ b.size ∧ ∃ pre post, blks = pre ++ b :: post := by
  obtain ⟨fits, pre, post, eq, _⟩ := List.find?_eq_some_iff_append.mp found
  simp only [Bool.and_eq_true, Option.isNone_iff_eq_none, decide_eq_true_eq] at fits
  exact ⟨fits.1, fits.2, pre, post, eq⟩

theorem firstFit_none (found : firstFit blks n = none) (member : b ∈ blks) (free : b.owner = none) : b.size < n.toNat := by
  have short := List.find?_eq_none.mp found b member
  simpa [free] using short

/-- Under the lock, a call depends on the first block that fits. -/
theorem PoolInv.mpAlloc_eq (inv : PoolInv mp blks) (cap : Usz T) :
    mpAlloc mp cap = match firstFit blks (headerSize T + alignUp cap) with
      | some b => (takeBlock mp.mem mp.addr (b.ptr mp.addr) (headerSize T + alignUp cap)).map fun m =>
          (b.payload mp.addr, spinUnlock { mp with mem := m })
      | none =>
          if mp.off + (headerSize T + alignUp cap) > BitVec.ofNat _ mpSize then some (0, spinUnlock mp)
          else some (mp.buf + mp.off + headerSize T, spinUnlock
            { mp with
              mem := setSize mp.mem (mp.buf + mp.off) (headerSize T + alignUp cap)
              off := mp.off + (headerSize T + alignUp cap) }) := by
  have whole : PoolInv mp ([] ++ blks) := inv
  have found := whole.scan (headerSize T + alignUp cap)
  rw [← inv.first, ← firstFit] at found
  have lock : spinLock mp = some { mp with lock := 1 } := by rw [spinLock, if_pos inv.lock]
  simp only [mpAlloc, lock, Mp.root, found, Option.bind_eq_bind, Option.bind_some]
  cases firstFit blks (headerSize T + alignUp cap) with
  | none => rfl
  | some b =>
    dsimp only [Option.map_some]
    cases takeBlock mp.mem mp.addr (b.ptr mp.addr) (headerSize T + alignUp cap) with
    | none => rfl
    | some m => rfl

theorem limit_toNat : (BitVec.ofNat T.bits mpSize).toNat = mpSize := by cases T <;> decide

/-- The end of what is in use after another block. -/
theorem off_add_gt (word : mp.off.toNat + n.toNat < T.modulus) :
    (mp.off + n > BitVec.ofNat _ mpSize) ↔ mpSize < mp.off.toNat + n.toNat := by
  have sum : (mp.off + n).toNat = mp.off.toNat + n.toNat := by
    rw [BitVec.toNat_add]
    exact Nat.mod_eq_of_lt word
  rw [gt_iff_lt, BitVec.lt_def, sum, limit_toNat]

theorem PoolInv.off_add (inv : PoolInv mp blks) (sum_lt : mpSize + n.toNat < T.modulus) :
    (mp.off + n > BitVec.ofNat _ mpSize) ↔ mpSize < mp.off.toNat + n.toNat :=
  off_add_gt (Nat.lt_of_le_of_lt (Nat.add_le_add_right inv.layout.off_le _) sum_lt)

theorem live_snoc (addr : Usz T) (blks : List (Blk T)) (start size : Nat) (cap : Usz T) :
    (liveOf addr (blks ++ [⟨start, size, some cap⟩])).Perm
      ((Blk.payload addr ⟨start, size, some cap⟩, cap) :: liveOf addr blks) := by
  have grown : liveOf addr (blks ++ [⟨start, size, some cap⟩]) =
      liveOf addr blks ++ [(Blk.payload addr ⟨start, size, some cap⟩, cap)] := by
    simp [liveOf, List.filterMap_append]
  rw [grown]
  exact List.perm_append_singleton _ _

theorem PoolInv.bump_live (inv : PoolInv mp blks) (n cap : Usz T) :
    (liveOf mp.addr (blks ++ [⟨mp.off.toNat, n.toNat, some cap⟩])).Perm
      ((mp.buf + mp.off + headerSize T, cap) :: liveOf mp.addr blks) := by
  rw [inv.end_ptr n.toNat (some cap)]
  exact live_snoc ..

theorem PoolInv.bump_ne (inv : PoolInv mp (blks ++ [⟨off.toNat, n.toNat, some cap⟩])) (old : PoolInv mp' blks)
    (addr : mp.addr = mp'.addr) (off_eq : off = mp'.off) : mp'.buf + mp'.off + headerSize T ≠ 0 := by
  rw [old.end_ptr n.toNat (some cap), ← addr, ← off_eq]
  exact payload_ne inv (b := ⟨off.toNat, n.toNat, some cap⟩) (by simp)

theorem blockSize_dvd (sized : Sized cap) : 8 ∣ (headerSize T + alignUp cap).toNat := by
  rw [blockSize_toNat sized]
  exact blockLen_dvd cap

theorem blockSize_large (sized : Sized cap) :
    headerLen T + cap.toNat ≤ (headerSize T + alignUp cap).toNat := by
  rw [blockSize_toNat sized]
  exact blockLen_large cap

/-- The end of what is in use is where the blocks end. -/
theorem PoolInv.off_eq (inv : PoolInv mp blks) (inv' : PoolInv mp' blks) : mp.off = mp'.off :=
  BitVec.eq_of_toNat_eq (inv.layout.tiles.end_eq inv'.layout.tiles)

/-- In every pool that holds the blocks, the call returns the pointer and leaves the
blocks `blks'`. -/
def Gives (addr : Usz T) (blks : List (Blk T)) (call : Mp T → Option (Usz T × Mp T)) (ptr : Usz T)
    (blks' : List (Blk T)) : Prop :=
  ∀ mp, PoolInv mp blks → mp.addr = addr → ∃ mp', call mp = some (ptr, mp') ∧ PoolInv mp' blks' ∧ mp'.addr = addr

/-- As `Gives`, and what lies outside of the headers stays as it is. -/
def Yields (addr : Usz T) (blks : List (Blk T)) (call : Mp T → Option (Usz T × Mp T)) (ptr : Usz T)
    (blks' : List (Blk T)) : Prop :=
  ∀ mp, PoolInv mp blks → mp.addr = addr → ∃ mp', call mp = some (ptr, mp') ∧ PoolInv mp' blks' ∧ mp'.addr = addr ∧
    ∀ i, ¬Heads addr blks' i → mp'.mem i = mp.mem i

theorem Yields.gives {call : Mp T → Option (Usz T × Mp T)} {blks' : List (Blk T)}
    (yields : Yields addr blks call ptr blks') : Gives addr blks call ptr blks' := by
  intro mp inv same
  obtain ⟨mp', run, inv', same', _⟩ := yields mp inv same
  exact ⟨mp', run, inv', same'⟩

/-- A free block has the bytes that are asked for, or what is not yet in use does. -/
def Serves (mp : Mp T) (blks : List (Blk T)) (cap : Usz T) : Prop :=
  (∃ b ∈ blks, b.owner = none ∧ blockLen cap ≤ b.size) ∨ mp.off.toNat + blockLen cap ≤ mpSize

/-- What a request hands back, and the blocks it leaves. -/
def Granted (mp : Mp T) (blks : List (Blk T)) (cap ptr : Usz T) (blks' : List (Blk T)) : Prop :=
  ptr = 0 ∧ blks' = blks ∧ ¬Serves mp blks cap ∨
    ptr ≠ 0 ∧ (liveOf mp.addr blks').Perm ((ptr, cap) :: liveOf mp.addr blks) ∧ Serves mp blks cap

theorem toNat_off_add (mp : Mp T) (cap : Usz T) :
    (mp.off + (headerSize T + alignUp cap)).toNat = (mp.off.toNat + blockLen cap) % T.modulus := by
  rw [BitVec.toNat_add, toNat_blockSize_mod, ← Target.modulus, Nat.add_mod_mod]

/-- The sums that a request makes are those of the numbers, or, with no block free, so large that
it is refused all the same. -/
def SumsFit (mp : Mp T) (cap : Usz T) : Prop :=
  mp.off.toNat + blockLen cap < T.modulus ∨
    nextOf mp.mem mp.root = mp.root ∧ T.modulus + mpSize < mp.off.toNat + blockLen cap

/-- A call that no block and no unused part can serve is refused. -/
theorem PoolInv.mpAlloc_refused (inv : PoolInv mp blks) (none : firstFit blks (headerSize T + alignUp cap) = none)
    (full : mp.off + (headerSize T + alignUp cap) > BitVec.ofNat _ mpSize) : mpAlloc mp cap = some (0, mp) := by
  have same : spinUnlock mp = mp := by
    rw [spinUnlock, ← inv.lock]
  rw [inv.mpAlloc_eq, none]
  dsimp only
  rw [if_pos full, same]

theorem PoolInv.mpAlloc_null (inv : PoolInv mp blks) (word : mp.off.toNat + blockLen cap < T.modulus)
    (none : ¬Serves mp blks cap) : mpAlloc mp cap = some (0, mp) := by
  have size : (headerSize T + alignUp cap).toNat = blockLen cap := toNat_blockSize (by omega)
  apply inv.mpAlloc_refused
  · apply List.find?_eq_none.mpr
    intro b member fits
    simp only [Bool.and_eq_true, Option.isNone_iff_eq_none, decide_eq_true_eq, size] at fits
    exact none (.inl ⟨b, member, fits⟩)
  · rw [← size] at word
    rw [off_add_gt word, size, ← Nat.not_le]
    exact fun room => none (.inr room)

/-- With no free block that is large enough, the request gets a new one at the end of what is in
use. -/
theorem PoolInv.bump_run (inv : PoolInv mp blks) (none : firstFit blks (headerSize T + alignUp cap) = none)
    (fits : mp.off.toNat + blockLen cap ≤ mpSize) :
    ∃ mp', mpAlloc mp cap = some (Blk.payload mp.addr ⟨mp.off.toNat, blockLen cap, some cap⟩, mp') ∧
      PoolInv mp' (blks ++ [⟨mp.off.toNat, blockLen cap, some cap⟩]) ∧ mp'.addr = mp.addr ∧
      mp'.off.toNat = mp.off.toNat + blockLen cap ∧
      ∀ i, ¬Heads mp.addr (blks ++ [⟨mp.off.toNat, blockLen cap, some cap⟩]) i → mp'.mem i = mp.mem i := by
  have large := modulus_large (T := T)
  have limit : mpSize = 64 * 1024 := rfl
  have size : (headerSize T + alignUp cap).toNat = blockLen cap := toNat_blockSize (by omega)
  have room : ¬mp.off + (headerSize T + alignUp cap) > BitVec.ofNat _ mpSize := by
    rw [off_add_gt (by omega), size]
    omega
  have place := inv.end_ptr (blockLen cap) (some cap)
  have kept := inv.bump (n := headerSize T + alignUp cap) (size ▸ blockLen_dvd cap) (size ▸ blockLen_large cap)
    (size ▸ fits)
  rw [size, place] at kept
  refine ⟨_, ?_, kept.unlocked, rfl, ?_, fun i away => kept.layout.setSize_heads (by simp) away⟩
  · rw [inv.mpAlloc_eq, none, place]
    exact if_neg room
  · change (mp.off + (headerSize T + alignUp cap)).toNat = _
    rw [toNat_off_add]
    exact Nat.mod_eq_of_lt (by omega)

/-- A call that is not refused adds one block to those given out. -/
theorem PoolInv.alloc_yields (inv : PoolInv mp blks) (word : mp.off.toNat + blockLen cap < T.modulus) :
    ∃ ptr blks', Yields mp.addr blks (fun mp => mpAlloc mp cap) ptr blks' ∧
      Granted mp blks cap ptr blks' ∧ ∀ c ∈ blks, c.owner ≠ none → c ∈ blks' := by
  have size : (headerSize T + alignUp cap).toNat = blockLen cap := toNat_blockSize (by omega)
  cases found : firstFit blks (headerSize T + alignUp cap) with
  | some b =>
    obtain ⟨free, fits, pre, post, rfl⟩ := firstFit_some found
    have ne : b.payload mp.addr ≠ 0 := payload_ne inv (by simp)
    refine ⟨b.payload mp.addr, taken pre b post (headerSize T + alignUp cap) cap, ?_,
      .inr ⟨ne, taken_live mp.addr pre post free _ cap, .inl ⟨b, by simp, free, size ▸ fits⟩⟩,
      fun c member held => taken_keeps free _ cap member held⟩
    intro other inv' same
    obtain ⟨m, run, kept, frame⟩ := inv'.take free (size ▸ blockLen_dvd cap) (size ▸ blockLen_large cap) fits
    rw [← same]
    dsimp only
    rw [inv'.mpAlloc_eq, found]
    simp only [run, Option.map_some]
    exact ⟨_, rfl, kept.unlocked, rfl, frame⟩
  | none =>
    by_cases fits : mp.off.toNat + blockLen cap ≤ mpSize
    · obtain ⟨_, _, grown, same, _⟩ := inv.bump_run found fits
      have ne := payload_ne grown (b := ⟨mp.off.toNat, blockLen cap, some cap⟩) (by simp)
      rw [same] at ne
      refine ⟨_, _, ?_, .inr ⟨ne, live_snoc .., .inr fits⟩, fun _ member _ => List.mem_append_left _ member⟩
      intro other inv' same
      rw [inv.off_eq inv'] at fits ⊢
      obtain ⟨mp', run, inv'', same', _, frame⟩ := inv'.bump_run found fits
      rw [← same]
      exact ⟨mp', run, inv'', same', frame⟩
    · have short : ¬Serves mp blks cap := by
        rintro (⟨b, member, free, large⟩ | room)
        · exact absurd (firstFit_none found member free) (Nat.not_lt.mpr (size ▸ large))
        · exact fits room
      refine ⟨0, blks, ?_, .inl ⟨rfl, rfl, short⟩, fun _ member _ => member⟩
      intro other inv' same
      rw [inv.off_eq inv'] at word
      rw [Serves, inv.off_eq inv'] at short
      exact ⟨other, inv'.mpAlloc_null word short, inv', same, fun _ _ => rfl⟩

/-- The list of the free blocks is empty where it points back to the root. -/
theorem PoolInv.none_free (inv : PoolInv mp blks) (empty : nextOf mp.mem mp.root = mp.root) (member : b ∈ blks) :
    b.owner ≠ none := by
  intro free
  have first := inv.first.symm.trans empty
  have node : b.ptr mp.addr ∈ freePtrs mp.addr blks := by
    rw [freePtrs]
    exact List.mem_map_of_mem (List.mem_filter.mpr ⟨member, by simp [free]⟩)
  cases nodes : freePtrs mp.addr blks with
  | nil =>
    rw [nodes] at node
    cases node
  | cons p later =>
    have ring := inv.ring
    rw [nodes] at first ring
    exact (List.nodup_cons.mp ring.nodup).1 (by simp [show p = mp.addr from first])

theorem PoolInv.mpAlloc_past (inv : PoolInv mp blks) (empty : nextOf mp.mem mp.root = mp.root)
    (past : T.modulus + mpSize < mp.off.toNat + blockLen cap) : mpAlloc mp cap = some (0, mp) := by
  apply inv.mpAlloc_refused
  · apply List.find?_eq_none.mpr
    intro b member fits
    simp only [Bool.and_eq_true, Option.isNone_iff_eq_none] at fits
    exact inv.none_free empty member fits.1
  · have off_le := inv.layout.off_le
    have len_le := blockLen_le cap
    have head := header_le (T := T)
    have large := modulus_large (T := T)
    rw [mpSize] at off_le
    rw [gt_iff_lt, BitVec.lt_def, limit_toNat, toNat_off_add, Nat.mod_eq_sub_mod (by omega), Nat.mod_eq_of_lt (by omega)]
    omega

theorem mem_given (grown : (liveOf addr blks').Perm ((ptr, cap) :: liveOf addr blks)) (same : mp'.addr = addr) :
    (ptr, cap) ∈ liveOf mp'.addr blks' := by
  rw [same]
  exact grown.symm.mem_iff.mp List.mem_cons_self

/-- A request whose sums fit leaves all as it is, or adds one block to those given out. -/
theorem PoolInv.alloc_kept (inv : PoolInv mp blks) (fit : SumsFit mp cap) :
    mpAlloc mp cap = some (0, mp) ∨ ∃ ptr mp' blks', mpAlloc mp cap = some (ptr, mp') ∧ ptr ≠ 0 ∧ PoolInv mp' blks' ∧
      mp'.addr = mp.addr ∧ (liveOf mp.addr blks').Perm ((ptr, cap) :: liveOf mp.addr blks) ∧
      (∀ c ∈ blks, c.owner ≠ none → c ∈ blks') ∧ ∀ i, ¬Heads mp.addr blks' i → mp'.mem i = mp.mem i := by
  rcases fit with word | ⟨empty, past⟩
  · obtain ⟨ptr, blks', yields, ⟨rfl, rfl, none⟩ | ⟨some, grown, _⟩, kept⟩ := inv.alloc_yields word
    · exact .inl (inv.mpAlloc_null word none)
    · obtain ⟨mp', run, inv', same, frame⟩ := yields mp inv rfl
      exact .inr ⟨ptr, mp', blks', run, some, inv', same, grown, kept, frame⟩
  · exact .inl (inv.mpAlloc_past empty past)

theorem PoolInv.alloc (inv : PoolInv mp blks) (sized : Sized cap) :
    ∃ ptr blks', Gives mp.addr blks (fun mp => mpAlloc mp cap) ptr blks' ∧
      (ptr = 0 ∧ blks' = blks ∨
        ptr ≠ 0 ∧ (liveOf mp.addr blks').Perm ((ptr, cap) :: liveOf mp.addr blks)) := by
  obtain ⟨ptr, blks', yields, ⟨none, same, _⟩ | ⟨some, grown, _⟩, _⟩ := inv.alloc_yields (sized.inWord inv)
  · exact ⟨ptr, blks', yields.gives, .inl ⟨none, same⟩⟩
  · exact ⟨ptr, blks', yields.gives, .inr ⟨some, grown⟩⟩

/-- The block of what is given out. -/
theorem mem_liveOf {cell : Usz T × Usz T} (member : cell ∈ liveOf addr blks) :
    ∃ pre b post, blks = pre ++ b :: post ∧ b.owner = some cell.2 ∧ cell.1 = b.payload addr := by
  obtain ⟨b, b_mem, given⟩ := List.mem_filterMap.mp member
  obtain ⟨cap, owner, rfl⟩ := Option.map_eq_some_iff.mp given
  obtain ⟨pre, post, eq⟩ := List.append_of_mem b_mem
  exact ⟨pre, b, post, eq, owner, rfl⟩

/-- Under the lock, a block is put into the list. -/
theorem PoolInv.mpFree_eq (inv : PoolInv mp blks) (member : b ∈ blks) :
    mpFree mp (b.payload mp.addr) =
      (insertByAddr mp.mem mp.addr (b.ptr mp.addr)).map fun m => spinUnlock { mp with mem := m } := by
  have lock : spinLock mp = some { mp with lock := 1 } := by rw [spinLock, if_pos inv.lock]
  have block : b.payload mp.addr - headerSize T = b.ptr mp.addr := BitVec.add_sub_cancel _ _
  rw [mpFree, if_neg (payload_ne inv member), block, lock]
  simp only [Mp.root, Option.bind_eq_bind, Option.bind_some]
  cases insertByAddr mp.mem mp.addr (b.ptr mp.addr) with
  | none => rfl
  | some m => rfl

/-- The block of a pointer that was given out goes back into the list. -/
theorem PoolInv.free_run (inv : PoolInv mp (pre ++ b :: post)) (owner : b.owner = some cap) :
    ∃ mp', mpFree mp (b.payload mp.addr) = some mp' ∧ PoolInv mp' (pre ++ { b with owner := none } :: post) ∧
      mp'.addr = mp.addr ∧ ∀ i, ¬Heads mp.addr (pre ++ { b with owner := none } :: post) i → mp'.mem i = mp.mem i := by
  obtain ⟨m, run, inv', frame⟩ := inv.giveBack owner
  rw [inv.mpFree_eq (by simp), run]
  exact ⟨_, rfl, inv'.unlocked, rfl, fun i away => frame i (inv.layout.own_heads away)⟩

/-- A call without a result stands with a null pointer. -/
theorem free_yields (member : (ptr, cap) ∈ liveOf addr blks) :
    ∃ blks', Yields addr blks (fun mp => (mpFree mp ptr).map (0, ·)) 0 blks' ∧
      (liveOf addr blks).Perm ((ptr, cap) :: liveOf addr blks') ∧ ∀ c ∈ blks', c.owner ≠ none → c ∈ blks := by
  obtain ⟨pre, b, post, rfl, owner, rfl⟩ := mem_liveOf member
  refine ⟨pre ++ { b with owner := none } :: post, ?_,
    @liveOf_middle T addr cap pre post { b with owner := none } b rfl owner rfl, ?_⟩
  · rintro mp inv rfl
    obtain ⟨mp', run, inv', same, frame⟩ := inv.free_run owner
    exact ⟨mp', congrArg (Option.map (0, ·)) run, inv', same, frame⟩
  · intro c member held
    simp only [List.mem_append, List.mem_cons] at member ⊢
    rcases member with early | rfl | late
    · exact .inl early
    · exact absurd rfl held
    · exact .inr (.inr late)

theorem free_gives (member : (ptr, cap) ∈ liveOf addr blks) :
    ∃ blks', Gives addr blks (fun mp => (mpFree mp ptr).map (0, ·)) 0 blks' ∧
      (liveOf addr blks).Perm ((ptr, cap) :: liveOf addr blks') := by
  obtain ⟨blks', yields, shrunk, _⟩ := free_yields member
  exact ⟨blks', yields.gives, shrunk⟩

/-- A store behind the header of a block leaves the list and the sizes alone. -/
theorem PoolInv.fillBlock (inv : PoolInv mp blks) (b_mem : b ∈ blks) {m : Nat → Byte}
    (inside : ∀ i, (i < b.addr mp.addr + headerLen T ∨ b.addr mp.addr + b.size ≤ i) → m i = mp.mem i) :
    PoolInv { mp with mem := m } blks := by
  have words := header_words (T := T)
  refine ⟨inv.layout, ?_, ?_, inv.fits, inv.lock⟩
  · intro c c_mem
    have c_size := (inv.layout.sizes c c_mem).2
    have kept : sizeOf m (c.ptr mp.addr) = sizeOf mp.mem (c.ptr mp.addr) := by
      apply load_congr
      intro i lo hi
      rw [inv.layout.ptr_toNat c_mem] at lo hi
      apply inside
      rw [Blk.addr] at lo hi ⊢
      rcases inv.layout.tiles.apart b_mem c_mem with rfl | before | after <;> omega
    rw [kept]
    exact inv.words c c_mem
  · apply ring_congr inv.ring
    intro p p_mem i within
    apply inside
    by_contra held
    refine @Layout.outside T _ _ _ _ inv.layout b_mem i (by omega) (by omega) p ?_ within
    rcases List.mem_cons.mp p_mem with rfl | node
    · exact List.mem_cons_self
    · obtain ⟨c, c_mem, rfl⟩ := mem_freePtrs node
      exact List.mem_cons_of_mem _ (List.mem_map_of_mem c_mem)

/-- The holder of a block stores into what it asked for. -/
theorem PoolInv.fill (inv : PoolInv mp blks) (member : (ptr, cap) ∈ liveOf mp.addr blks) {m : Nat → Byte}
    (inside : ∀ i, (i < ptr.toNat ∨ ptr.toNat + cap.toNat ≤ i) → m i = mp.mem i) :
    PoolInv { mp with mem := m } blks := by
  obtain ⟨pre, b, post, eq, owner, same⟩ := mem_liveOf member
  have b_mem : b ∈ blks := by simp [eq]
  have fits := inv.fits b b_mem cap owner
  have place := inv.layout.payload_toNat b_mem
  dsimp only at same
  rw [← same] at place
  apply inv.fillBlock b_mem
  intro i away
  exact inside i (by omega)

theorem mpCalloc_null (run : mpAlloc mp cap = some (0, mp')) : mpCalloc mp cap = some (0, mp') := by
  simp only [mpCalloc, run, Option.bind_eq_bind, Option.bind_some]
  exact if_pos trivial

theorem mpCalloc_some (run : mpAlloc mp cap = some (ptr, mp')) (some : ptr ≠ 0) : mpCalloc mp cap =
    Option.some (ptr, { mp' with mem := write mp'.mem ptr.toNat (List.replicate cap.toNat 0) }) := by
  simp only [mpCalloc, run, Option.bind_eq_bind, Option.bind_some]
  exact if_neg some

theorem zero_outside {m : Nat → Byte} {i : Nat} (away : i < ptr.toNat ∨ ptr.toNat + cap.toNat ≤ i) :
    write m ptr.toNat (List.replicate cap.toNat 0) i = m i := by
  apply write_outside
  rwa [List.length_replicate]

theorem zero_inside {m : Nat → Byte} {i : Nat} (lt : i < cap.toNat) :
    write m ptr.toNat (List.replicate cap.toNat 0) (ptr.toNat + i) = 0 := by
  have lt' : i < (List.replicate cap.toNat (0 : Byte)).length := by rwa [List.length_replicate]
  exact (write_inside lt').trans (List.getElem_replicate lt')

theorem PoolInv.calloc (inv : PoolInv mp blks) (sized : Sized cap) :
    ∃ ptr blks', Gives mp.addr blks (fun mp => mpCalloc mp cap) ptr blks' ∧
      (ptr = 0 ∧ blks' = blks ∨
        ptr ≠ 0 ∧ (liveOf mp.addr blks').Perm ((ptr, cap) :: liveOf mp.addr blks)) := by
  obtain ⟨ptr, blks', gives, result⟩ := inv.alloc sized
  refine ⟨ptr, blks', ?_, result⟩
  intro other inv' same
  obtain ⟨mp', run, kept, addr⟩ := gives other inv' same
  rcases result with ⟨rfl, _⟩ | ⟨some, grown⟩
  · exact ⟨mp', mpCalloc_null run, kept, addr⟩
  · exact ⟨_, mpCalloc_some run some, kept.fill (mem_given grown addr) fun _ away => zero_outside away, addr⟩

end Calls

end AvaModule.MemPool
