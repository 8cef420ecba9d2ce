import AvaModule.Ds.Mp.Serial

/-! The steps of the thread that has the lock of the pool. -/
namespace AvaModule.MemPool
open ListHead Memory DoublyLinked Tiling Transition

variable {I : Type} {T : Target}

def Cell.pair (x : Cell I T) : Usz T × Usz T := (x.ptr, x.cap)

/-- What a call may ask for: no more than the pool has, or that what the thread has is taken back. -/
def OpOk (cells : List (Cell I T)) (i : I) : Op T → Prop
  | .alloc r => r.cap.toNat ≤ mpSize
  | .free ptr => ptr ≠ 0 ∧ ∃ cap, ⟨i, ptr, cap⟩ ∈ cells

/-- The first free block that is large enough, and the pointer to it. -/
structure Found (addr : Usz T) (blks : List (Blk T)) (r : Request T) (blk : Usz T) (b : Blk T) : Prop where
  small : r.cap.toNat ≤ mpSize
  first : firstFit blks r.blockSize = some b
  ptr : blk = b.ptr addr

/-- The block has been taken out of the list as a whole, and is going to be cut. -/
structure Cutting (addr : Usz T) (cells : List (Cell I T)) (i : I) (blks₀ blks : List (Blk T)) (r : Request T)
    (blk : Usz T) (pre : List (Blk T)) (b : Blk T) (post : List (Blk T)) : Prop where
  found : Found addr blks₀ r blk b
  before : blks₀ = pre ++ b :: post
  now : blks = pre ++ { b with owner := some r.cap } :: post
  tail : r.blockSize.toNat + headerLen T + 8 ≤ b.size
  mine : ⟨i, b.payload addr, r.cap⟩ ∈ cells

/-- The thread has what its call hands back. -/
def Got (cells : List (Cell I T)) (i : I) (ptr : Usz T) : Op T → Prop
  | .alloc r => ptr ≠ 0 → ⟨i, ptr, r.cap⟩ ∈ cells
  | .free _ => True

/-- The thread has a block that is to be linked: what it gives back, or the rest of what it cut. -/
structure Linking (addr : Usz T) (cells : List (Cell I T)) (i : I) (blks₀ blks : List (Blk T)) (op : Op T)
    (ptr block : Usz T) (pre : List (Blk T)) (c : Blk T) (post : List (Blk T)) : Prop where
  now : blks = pre ++ c :: post
  ptr_eq : block = c.ptr addr
  mine : ∃ cap, c.owner = some cap ∧ ⟨i, c.payload addr, cap⟩ ∈ cells
  ends : Ends addr blks₀ op ptr (pre ++ { c with owner := none } :: post)
  got : Got cells i ptr op
  apart : op = .free (block + headerSize T) ∨ ptr ≠ block + headerSize T

/-- What a thread under the lock has found and done, between the blocks `blks₀` that it found and the blocks
`blks` that there are. -/
def Section (mp : Mp T) (cells : List (Cell I T)) (i : I) (blks₀ blks : List (Blk T)) : Pc T → Prop
  | .idle | .spin .. | .pause .. | .zero .. => True
  | .enter op => blks = blks₀ ∧ OpOk cells i op
  | .look r node => blks = blks₀ ∧ r.cap.toNat ≤ mpSize ∧ ∃ pre post, blks = pre ++ post ∧ node = after mp.addr post ∧
      firstFit blks r.blockSize = firstFit post r.blockSize
  | .found r blk => blks = blks₀ ∧ ∃ b, Found mp.addr blks r blk b
  | .whole r blk => blks = blks₀ ∧ ∃ b, Found mp.addr blks r blk b ∧ ¬r.blockSize.toNat + headerLen T + 8 ≤ b.size
  | .cut r blk => blks = blks₀ ∧ ∃ b, Found mp.addr blks r blk b ∧ r.blockSize.toNat + headerLen T + 8 ≤ b.size
  | .sizeRest r blk => ∃ pre b post, Cutting mp.addr cells i blks₀ blks r blk pre b post
  | .sizeFront r blk => ∃ pre b post, Cutting mp.addr cells i blks₀ blks r blk pre b post ∧
      (sizeOf mp.mem (b.ptr mp.addr + r.blockSize)).toNat = b.size - r.blockSize.toNat
  | .place op ptr block => ∃ pre c post, Linking mp.addr cells i blks₀ blks op ptr block pre c post
  | .seek op ptr block pos => ∃ pre c post, Linking mp.addr cells i blks₀ blks op ptr block pre c post ∧
      ∃ passed rest, pre = passed ++ rest ∧ pos = after mp.addr (rest ++ c :: post)
  | .link op ptr block pos => ∃ pre c post, Linking mp.addr cells i blks₀ blks op ptr block pre c post ∧
      pos = after mp.addr post
  | .bump r => blks = blks₀ ∧ r.cap.toNat ≤ mpSize ∧ firstFit blks r.blockSize = none
  | .sizeFresh r => blks = blks₀ ∧ r.cap.toNat ≤ mpSize ∧ firstFit blks r.blockSize = none ∧
      mp.off.toNat + r.blockSize.toNat ≤ mpSize
  | .grow r => blks = blks₀ ∧ r.cap.toNat ≤ mpSize ∧ firstFit blks r.blockSize = none ∧
      mp.off.toNat + r.blockSize.toNat ≤ mpSize ∧ sizeOf mp.mem (mp.buf + mp.off) = r.blockSize
  | .unlock op ptr => Ends mp.addr blks₀ op ptr blks ∧ Got cells i ptr op

def Op.LetsBe (x : Cell I T) : Op T → Prop
  | .alloc _ => True
  | .free ptr => ptr ≠ x.ptr

/-- The call that a thread is in neither takes the cell back nor hands it out. -/
def LetsBe (x : Cell I T) : Pc T → Prop
  | .spin op _ | .pause op _ _ | .enter op => op.LetsBe x
  | .sizeRest _ blk | .sizeFront _ blk => blk + headerSize T ≠ x.ptr
  | .place _ ptr block | .seek _ ptr block _ | .link _ ptr block _ => block + headerSize T ≠ x.ptr ∧ ptr ≠ x.ptr
  | .unlock _ ptr | .zero ptr _ _ => ptr ≠ x.ptr
  | _ => True

variable [DecidableEq I] {s t : Threads I T} {i : I} {blks₀ blks blks' pre post : List (Blk T)} {b : Blk T} {r : Request T}
  {cap ptr block : Usz T} {op : Op T}

/-- The bytes that the threads have stay as they are. -/
def Still (s t : Threads I T) : Prop :=
  ∀ x ∈ s.cells, ∀ k < x.cap.toNat, t.mp.mem (x.ptr.toNat + k) = s.mp.mem (x.ptr.toNat + k)

/-- What a step under the lock comes to. -/
structure Inner (s t : Threads I T) (i : I) (blks₀ blks' : List (Blk T)) : Prop where
  inv : PoolInv (spinUnlock t.mp) blks'
  live : (t.cells.map Cell.pair).Perm (liveOf t.mp.addr blks')
  sec : Section t.mp t.cells i blks₀ blks' (t.pc i)
  inside : (t.pc i).Inside
  others : ∀ j ≠ i, t.pc j = s.pc j
  lock : t.mp.lock = s.mp.lock
  done : t.done = s.done
  addr : t.mp.addr = s.mp.addr
  cells : ∀ x ∈ s.cells, x.holder ≠ i → x ∈ t.cells
  keeps : ∀ x ∈ s.cells, LetsBe x (s.pc i) → x ∈ t.cells ∧ LetsBe x (t.pc i)
  still : Still s t

theorem Inner.goto {u : Threads I T} {pc : Pc T} (inv : PoolInv (spinUnlock u.mp) blks')
    (live : (u.cells.map Cell.pair).Perm (liveOf u.mp.addr blks')) (sec : Section u.mp u.cells i blks₀ blks' pc)
    (inside : pc.Inside) (same : u.pc = s.pc) (lock : u.mp.lock = s.mp.lock) (done : u.done = s.done)
    (addr : u.mp.addr = s.mp.addr) (cells : ∀ x ∈ s.cells, x.holder ≠ i → x ∈ u.cells)
    (keeps : ∀ x ∈ s.cells, LetsBe x (s.pc i) → x ∈ u.cells ∧ LetsBe x pc) (still : Still s u) :
    Inner s (u.goto i pc) i blks₀ blks' := by
  have here : (u.goto i pc).pc i = pc := Function.update_self ..
  refine ⟨inv, live, ?_, ?_, fun j other => ?_, lock, done, addr, cells, ?_, still⟩
  · rw [here]
    exact sec
  · rw [here]
    exact inside
  · rw [← same]
    exact Function.update_of_ne other ..
  · rw [here]
    exact keeps

omit [DecidableEq I] in
/-- What a thread is given, no thread has. -/
theorem fresh_ptr {mp : Mp T} {x y : Cell I T} {cells : List (Cell I T)} (inv : PoolInv mp blks')
    (live : ((y :: cells).map Cell.pair).Perm (liveOf mp.addr blks')) (member : x ∈ cells) : y.ptr ≠ x.ptr := by
  have nodup : ((liveOf mp.addr blks').map Prod.fst).Nodup := List.pairwise_map.mpr inv.live_nodup
  have nodup := (live.map Prod.fst).nodup_iff.mpr nodup
  rw [List.map_map, List.map_cons] at nodup
  intro same
  have twice := List.mem_map_of_mem (f := Prod.fst ∘ Cell.pair) member
  exact (List.nodup_cons.mp nodup).1 (show y.ptr ∈ _ from same ▸ twice)

section Steps
variable (inv : PoolInv (spinUnlock s.mp) blks) (live : (s.cells.map Cell.pair).Perm (liveOf s.mp.addr blks))
include inv live

omit [DecidableEq I] in
/-- The block of what a thread has. -/
theorem cell_block {x : Cell I T} (member : x ∈ s.cells) :
    ∃ b ∈ blks, b.owner = some x.cap ∧ x.ptr = b.payload s.mp.addr ∧ x.ptr.toNat = b.addr s.mp.addr + headerLen T ∧
      headerLen T + x.cap.toNat ≤ b.size := by
  obtain ⟨pre, b, post, rfl, owner, same⟩ := mem_liveOf (live.mem_iff.mp (List.mem_map_of_mem member))
  have b_mem : b ∈ pre ++ b :: post := by simp
  have place := inv.layout.payload_toNat b_mem
  refine ⟨b, b_mem, owner, same, ?_, inv.fits b b_mem x.cap owner⟩
  rw [show x.ptr = b.payload s.mp.addr from same]
  exact place

omit [DecidableEq I] in
/-- A thread's bytes lie in no header. -/
theorem still_of_heads (frame : ∀ a, ¬Heads s.mp.addr blks a → t.mp.mem a = s.mp.mem a) : Still s t := by
  intro x member k lt
  obtain ⟨b, b_mem, _, _, place, fits⟩ := cell_block inv live member
  have layout : Layout s.mp.addr s.mp.off.toNat blks := inv.layout
  apply frame
  exact layout.payload_clear b_mem (by omega) (by omega)

omit [DecidableEq I] in
theorem still_of_nodes
    (frame : ∀ a, (∀ p ∈ s.mp.addr :: blks.map (Blk.ptr s.mp.addr), ¬Within p a) → t.mp.mem a = s.mp.mem a) : Still s t :=
  still_of_heads inv live fun _ away => frame _ fun _ member within => away (inv.layout.within_heads member within)

omit [DecidableEq I] in
theorem cell_ne_zero {x : Cell I T} (member : x ∈ s.cells) : x.ptr ≠ 0 := by
  obtain ⟨b, b_mem, _, same, _⟩ := cell_block inv live member
  have some : b.payload (spinUnlock s.mp).addr ≠ 0 := payload_ne inv b_mem
  rw [same]
  exact some

/-- A step that only goes on. -/
theorem Inner.on {pc : Pc T} (sec : Section s.mp s.cells i blks₀ blks pc) (inside : pc.Inside)
    (spares : ∀ x ∈ s.cells, LetsBe x (s.pc i) → LetsBe x pc) : Inner s (s.goto i pc) i blks₀ blks :=
  .goto inv live sec inside rfl rfl rfl rfl (fun _ member _ => member)
    (fun x member kept => ⟨member, spares x member kept⟩) fun _ _ _ _ => rfl

theorem enter_alloc (sec : Section s.mp s.cells i blks₀ blks (.enter (.alloc r))) :
    Inner s (s.goto i (.look r (nextOf s.mp.mem s.mp.root))) i blks₀ blks := by
  refine .on inv live ⟨sec.1, sec.2, [], blks, rfl, ?_, rfl⟩ trivial fun _ _ _ => trivial
  exact inv.first_after

theorem enter_free (sec : Section s.mp s.cells i blks₀ blks (.enter (.free ptr))) (at_pc : s.pc i = .enter (.free ptr)) :
    Inner s (s.goto i (.place (.free ptr) 0 (ptr - headerSize T))) i blks₀ blks := by
  obtain ⟨rfl, some, cap, member⟩ := sec
  obtain ⟨pre, b, post, rfl, owner, same⟩ := mem_liveOf (live.mem_iff.mp (List.mem_map_of_mem member))
  have same : ptr = b.payload s.mp.addr := same
  have block : ptr - headerSize T = b.ptr s.mp.addr := by
    rw [same]
    exact BitVec.add_sub_cancel _ _
  refine .on inv live ⟨pre, b, post, rfl, block, ⟨cap, owner, same ▸ member⟩, ?_, trivial, .inl ?_⟩ trivial ?_
  · rw [same]
    exact ends_free owner
  · rw [block, same]
    rfl
  · intro x member kept
    rw [at_pc] at kept
    refine ⟨?_, (cell_ne_zero inv live member).symm⟩
    rw [block, show b.ptr s.mp.addr + headerSize T = ptr from same.symm]
    exact kept

/-- The loop over the list goes on past a block that is too small. -/
theorem look_step {node : Usz T} (sec : Section s.mp s.cells i blks₀ blks (.look r node)) (at_pc : s.pc i = .look r node)
    (spurious : Bool) : ∃ t, s.go i spurious = some t ∧ Inner s t i blks₀ blks := by
  obtain ⟨rfl, small, pre, post, rfl, rfl, first⟩ := sec
  simp only [Threads.go, at_pc]
  rcases inv.after_cases with ⟨root, held⟩ | ⟨front, b, rest, rfl, held, free, place, differ, next⟩
  · have root : after s.mp.addr post = s.mp.root := root
    have none : firstFit post r.blockSize = none := by
      apply List.find?_eq_none.mpr
      intro c member fits
      simp only [Bool.and_eq_true, Option.isNone_iff_eq_none] at fits
      exact held c member fits.1
    rw [if_pos root]
    exact ⟨_, rfl, .on inv live ⟨rfl, small, first.trans none⟩ trivial fun _ _ _ => trivial⟩
  · have place : after s.mp.addr (front ++ b :: rest) = b.ptr s.mp.addr := place
    have skip : firstFit (front ++ b :: rest) r.blockSize = firstFit (b :: rest) r.blockSize := by
      rw [firstFit, List.find?_append, List.find?_eq_none.mpr, Option.none_or, firstFit]
      intro c member fits
      simp only [Bool.and_eq_true, Option.isNone_iff_eq_none] at fits
      exact held c member fits.1
    have size : (sizeOf s.mp.mem (b.ptr s.mp.addr)).toNat = b.size := inv.words b (by simp)
    rw [place, if_neg (show b.ptr s.mp.addr ≠ s.mp.root from differ)]
    by_cases short : b.size < r.blockSize.toNat
    · have lt : sizeOf s.mp.mem (b.ptr s.mp.addr) < r.blockSize := by
        rw [BitVec.lt_def, size]
        exact short
      rw [if_pos lt]
      refine ⟨_, rfl, .on inv live ⟨rfl, small, pre ++ front ++ [b], rest, by simp, next, ?_⟩ trivial fun _ _ _ => trivial⟩
      rw [first, skip, firstFit, List.find?_cons_of_neg (by simp [short]), firstFit]
    · have ge : ¬sizeOf s.mp.mem (b.ptr s.mp.addr) < r.blockSize := by
        rw [BitVec.lt_def, size]
        exact short
      rw [if_neg ge]
      refine ⟨_, rfl, .on inv live ⟨rfl, b, small, ?_, rfl⟩ trivial fun _ _ _ => trivial⟩
      rw [first, skip, firstFit, List.find?_cons_of_pos (by simp [free]; omega)]

theorem found_step {blk : Usz T} (sec : Section s.mp s.cells i blks₀ blks (.found r blk)) (at_pc : s.pc i = .found r blk)
    (spurious : Bool) : ∃ t, s.go i spurious = some t ∧ Inner s t i blks₀ blks := by
  obtain ⟨rfl, b, found⟩ := sec
  obtain ⟨free, fits, pre, post, eq⟩ := firstFit_some found.first
  have cut_iff := inv.rest_iff (b := b) (by simp [eq]) fits
  simp only [Threads.go, at_pc]
  rw [found.ptr]
  by_cases rest : sizeOf s.mp.mem (b.ptr s.mp.addr) ≥ r.blockSize + headerSize T + 8
  · rw [if_pos rest]
    exact ⟨_, rfl, .on inv live ⟨rfl, b, found.ptr ▸ found, cut_iff.mp rest⟩ trivial fun _ _ _ => trivial⟩
  · rw [if_neg rest]
    exact ⟨_, rfl, .on inv live ⟨rfl, b, found.ptr ▸ found, fun tail => rest (cut_iff.mpr tail)⟩ trivial fun _ _ _ => trivial⟩

/-- A block is taken out of the list. -/
theorem taken_out {blk : Usz T} {pc : Pc T} (found : Found s.mp.addr blks r blk b) (eq : blks = pre ++ b :: post)
    (sec : ∀ mem, Section { s.mp with mem } (⟨i, b.payload s.mp.addr, r.cap⟩ :: s.cells) i blks₀
      (pre ++ { b with owner := some r.cap } :: post) pc) (inside : pc.Inside)
    (spares : ∀ x : Cell I T, b.payload s.mp.addr ≠ x.ptr → LetsBe x pc) :
    Inner s (((s.withMem (listDel s.mp.mem blk)).give i (blk + headerSize T) r.cap).goto i pc) i blks₀
      (pre ++ { b with owner := some r.cap } :: post) := by
  obtain ⟨small, first, rfl⟩ := found
  obtain ⟨free, fits, _⟩ := firstFit_some first
  have size := blockSize_eq small
  have large := blockLen_large (T := T) r.cap
  have ring : Ring (nextOf s.mp.mem) (prevOf s.mp.mem) s.mp.addr (freePtrs s.mp.addr blks) := inv.ring
  have layout : Layout s.mp.addr s.mp.off.toNat blks := inv.layout
  have still : Still s (s.withMem (listDel s.mp.mem (b.ptr s.mp.addr))) := by
    apply still_of_nodes inv live
    rw [eq, freePtrs_append, freePtrs_free free] at ring
    rw [eq] at layout ⊢
    exact (layout.delete ring).2
  subst eq
  have kept : PoolInv _ (pre ++ { b with owner := some r.cap } :: post) := inv.whole free (by omega)
  have perm := @liveOf_middle T s.mp.addr r.cap pre post b { b with owner := some r.cap } free rfl rfl
  have live' := (live.cons (b.payload s.mp.addr, r.cap)).trans perm.symm
  refine .goto kept live' (sec _) inside rfl rfl rfl rfl (fun x member _ => List.mem_cons_of_mem _ member) ?_ still
  intro x member _
  exact ⟨List.mem_cons_of_mem _ member, spares x (fresh_ptr (y := ⟨i, b.payload s.mp.addr, r.cap⟩) kept live' member)⟩

theorem whole_step {blk : Usz T} (sec : Section s.mp s.cells i blks₀ blks (.whole r blk)) (at_pc : s.pc i = .whole r blk)
    (spurious : Bool) : ∃ t, s.go i spurious = some t ∧ ∃ blks', Inner s t i blks₀ blks' := by
  obtain ⟨rfl, b, found, short⟩ := sec
  obtain ⟨_, _, pre, post, eq⟩ := firstFit_some found.first
  have ne : b.payload (spinUnlock s.mp).addr ≠ 0 := payload_ne inv (by simp [eq])
  have first := found.first
  rw [eq] at first
  have ends := ends_taken found.small first ne
  rw [taken, if_neg short, ← eq] at ends
  have place : blk + headerSize T = b.payload s.mp.addr := by
    rw [found.ptr]
    rfl
  simp only [Threads.go, at_pc]
  rw [place, found.ptr] at *
  refine ⟨_, rfl, _, taken_out inv live (found.ptr ▸ found) eq (fun mem => ?_) trivial fun x differ => differ⟩
  exact ⟨ends, fun _ => List.mem_cons_self⟩

theorem cut_step {blk : Usz T} (sec : Section s.mp s.cells i blks₀ blks (.cut r blk)) (at_pc : s.pc i = .cut r blk)
    (spurious : Bool) : ∃ t, s.go i spurious = some t ∧ ∃ blks', Inner s t i blks₀ blks' := by
  obtain ⟨rfl, b, found, tail⟩ := sec
  obtain ⟨_, _, pre, post, eq⟩ := firstFit_some found.first
  simp only [Threads.go, at_pc]
  refine ⟨_, rfl, _, taken_out inv live found eq (fun mem => ⟨pre, b, post, found, eq, rfl, tail, List.mem_cons_self⟩) trivial ?_⟩
  intro x differ
  rw [LetsBe, found.ptr]
  exact differ

theorem sizeRest_step {blk : Usz T} (sec : Section s.mp s.cells i blks₀ blks (.sizeRest r blk))
    (at_pc : s.pc i = .sizeRest r blk) (spurious : Bool) : ∃ t, s.go i spurious = some t ∧ Inner s t i blks₀ blks := by
  obtain ⟨pre, b, post, cutting⟩ := sec
  have now := cutting.now
  subst now
  have size := blockSize_eq cutting.found.small
  have large := blockLen_large (T := T) r.cap
  have tail := cutting.tail
  have whole : (sizeOf s.mp.mem (b.ptr s.mp.addr)).toNat = b.size :=
    inv.words { b with owner := some r.cap } (by simp)
  have x_size : (sizeOf s.mp.mem (b.ptr s.mp.addr) - r.blockSize).toNat = b.size - r.blockSize.toNat := by
    rw [BitVec.toNat_sub_of_le (by rw [BitVec.le_def]; omega), whole]
  obtain ⟨kept, frame⟩ := inv.sizeRest (b := { b with owner := some r.cap }) (n := r.blockSize) (by omega)
    (by dsimp only; omega) (sizeOf s.mp.mem (b.ptr s.mp.addr) - r.blockSize)
  have layout : Layout s.mp.addr s.mp.off.toNat (pre ++ { b with owner := some r.cap } :: post) := inv.layout
  have still : Still s (s.withMem (setSize s.mp.mem (b.ptr s.mp.addr + r.blockSize)
      (sizeOf s.mp.mem (b.ptr s.mp.addr) - r.blockSize))) := by
    intro x member k lt
    obtain ⟨c, c_mem, owner, _, place, fits⟩ := cell_block inv live member
    apply frame
    have start : ∀ d : Blk T, d.addr s.mp.addr = bufAddr s.mp.addr + d.start := fun _ => rfl
    have addr : (spinUnlock s.mp).addr = s.mp.addr := rfl
    rw [addr]
    simp only [start] at place ⊢
    rcases layout.tiles.apart (b := { b with owner := some r.cap }) (by simp) c_mem with rfl | before | behind
    · have cap_eq : r.cap = x.cap := Option.some.inj owner
      rw [cap_eq] at large size
      exact .inl (by dsimp only at *; omega)
    · exact .inr (by dsimp only at *; omega)
    · exact .inl (by dsimp only at *; omega)
  simp only [Threads.go, at_pc]
  rw [cutting.found.ptr]
  refine ⟨_, rfl, .goto kept live ⟨pre, b, post, cutting.found.ptr ▸ cutting, ?_⟩ trivial rfl rfl rfl rfl
    (fun _ member _ => member) ?_ still⟩
  · exact (congrArg BitVec.toNat (sizeOf_setSize ..)).trans x_size
  · intro x member kept
    rw [at_pc, cutting.found.ptr] at kept
    exact ⟨member, kept⟩

theorem sizeFront_step {blk : Usz T} (sec : Section s.mp s.cells i blks₀ blks (.sizeFront r blk))
    (at_pc : s.pc i = .sizeFront r blk) (spurious : Bool) :
    ∃ t, s.go i spurious = some t ∧ ∃ blks', Inner s t i blks₀ blks' := by
  obtain ⟨pre, b, post, cutting, rest⟩ := sec
  have now := cutting.now
  subst now
  have size := blockSize_eq cutting.found.small
  have large := blockLen_large (T := T) r.cap
  have head := header_pos (T := T)
  have tail := cutting.tail
  have kept := inv.divide (b := { b with owner := some r.cap }) (n := r.blockSize) rfl (size ▸ blockLen_dvd r.cap)
    (by omega) (by dsimp only; omega) rest
  have layout : Layout s.mp.addr s.mp.off.toNat (pre ++ { b with owner := some r.cap } :: post) := inv.layout
  have still : Still s (s.withMem (setSize s.mp.mem (b.ptr s.mp.addr) r.blockSize)) :=
    still_of_heads inv live fun a away => layout.setSize_heads (b := { b with owner := some r.cap }) (by simp) away
  have behind : b.ptr s.mp.addr + r.blockSize =
      Blk.ptr s.mp.addr ⟨b.start + r.blockSize.toNat, b.size - r.blockSize.toNat, some 0⟩ :=
    (layout.ptr_add (b := { b with owner := some r.cap }) (by simp) kept.layout
      (c := ⟨b.start + r.blockSize.toNat, b.size - r.blockSize.toNat, some 0⟩) (by simp) rfl).symm
  have ne : b.payload (spinUnlock s.mp).addr ≠ 0 := payload_ne inv (b := { b with owner := some r.cap }) (by simp)
  have first := cutting.found.first
  rw [cutting.before] at first
  have ends := ends_taken cutting.found.small first ne
  rw [taken, if_pos tail, ← cutting.before] at ends
  have perm : ((⟨i, b.ptr s.mp.addr + r.blockSize + headerSize T, 0⟩ :: s.cells).map Cell.pair).Perm
      (liveOf s.mp.addr (pre ++ ⟨b.start, r.blockSize.toNat, some r.cap⟩ ::
        ⟨b.start + r.blockSize.toNat, b.size - r.blockSize.toNat, some 0⟩ :: post)) := by
    have split : ∀ owner, pre ++ ⟨b.start, r.blockSize.toNat, some r.cap⟩ ::
        ⟨b.start + r.blockSize.toNat, b.size - r.blockSize.toNat, owner⟩ :: post =
          (pre ++ [⟨b.start, r.blockSize.toNat, some r.cap⟩]) ++
            ⟨b.start + r.blockSize.toNat, b.size - r.blockSize.toNat, owner⟩ :: post := fun owner => by simp
    have grown := @liveOf_middle T s.mp.addr 0 (pre ++ [⟨b.start, r.blockSize.toNat, some r.cap⟩]) post
      ⟨b.start + r.blockSize.toNat, b.size - r.blockSize.toNat, none⟩
      ⟨b.start + r.blockSize.toNat, b.size - r.blockSize.toNat, some 0⟩ rfl rfl rfl
    rw [← split, ← split] at grown
    have same : liveOf s.mp.addr (pre ++ ⟨b.start, r.blockSize.toNat, some r.cap⟩ ::
        ⟨b.start + r.blockSize.toNat, b.size - r.blockSize.toNat, none⟩ :: post) =
          liveOf s.mp.addr (pre ++ { b with owner := some r.cap } :: post) := by
      simp [liveOf, List.filterMap_append, Blk.payload, Blk.ptr, Blk.addr]
    rw [same] at grown
    rw [behind]
    exact (live.cons _).trans grown.symm
  have differ : b.ptr s.mp.addr + headerSize T ≠ b.ptr s.mp.addr + r.blockSize + headerSize T := by
    intro same
    have none : r.blockSize = 0 := BitVec.add_right_eq_self.mp ((BitVec.add_left_inj _).mp same.symm)
    rw [none, zero_toNat] at size
    omega
  simp only [Threads.go, at_pc]
  rw [cutting.found.ptr]
  refine ⟨_, rfl, _, .goto kept perm ?_ trivial rfl rfl rfl rfl (fun _ member _ => List.mem_cons_of_mem _ member) ?_ still⟩
  on_goal 2 =>
    intro x member kept'
    rw [at_pc, cutting.found.ptr] at kept'
    exact ⟨List.mem_cons_of_mem _ member,
      fresh_ptr (y := ⟨i, b.ptr s.mp.addr + r.blockSize + headerSize T, 0⟩) kept perm member, kept'⟩
  refine ⟨pre ++ [⟨b.start, r.blockSize.toNat, some r.cap⟩], _, post, by simp, behind,
    ⟨0, rfl, ?_⟩, ?_, fun _ => List.mem_cons_of_mem _ cutting.mine, .inr differ⟩
  · rw [behind]
    exact List.mem_cons_self
  · rw [List.append_assoc]
    exact ends

theorem place_step (sec : Section s.mp s.cells i blks₀ blks (.place op ptr block)) (at_pc : s.pc i = .place op ptr block) :
    Inner s (s.goto i (.seek op ptr block (nextOf s.mp.mem s.mp.root))) i blks₀ blks := by
  obtain ⟨pre, c, post, linking⟩ := sec
  refine .on inv live ⟨pre, c, post, linking, [], pre, rfl, ?_⟩ trivial fun x _ kept => ?_
  · rw [← linking.now]
    exact inv.first_after
  · rw [at_pc] at kept
    exact kept

/-- The loop goes on up to the place of the block. -/
theorem seek_step {pos : Usz T} (sec : Section s.mp s.cells i blks₀ blks (.seek op ptr block pos))
    (at_pc : s.pc i = .seek op ptr block pos) (spurious : Bool) :
    ∃ t, s.go i spurious = some t ∧ Inner s t i blks₀ blks := by
  obtain ⟨pre, c, post, linking, passed, rest, rfl, rfl⟩ := sec
  have now := linking.now
  obtain ⟨cap, owner, _⟩ := linking.mine
  have inv' : PoolInv (spinUnlock s.mp) (passed ++ (rest ++ c :: post)) := by
    rw [← List.append_assoc, ← now]
    exact inv
  have layout : Layout s.mp.addr s.mp.off.toNat ((passed ++ rest) ++ c :: post) := now ▸ inv.layout
  have spares : ∀ x ∈ s.cells, LetsBe x (s.pc i) → c.ptr s.mp.addr + headerSize T ≠ x.ptr ∧ ptr ≠ x.ptr := by
    intro x _ kept
    rw [at_pc, linking.ptr_eq] at kept
    exact kept
  simp only [Threads.go, at_pc]
  rw [linking.ptr_eq]
  rcases inv'.after_cases with ⟨root, held⟩ | ⟨front, b, later, eq, held, free, place, differ, next⟩
  · have root : after s.mp.addr (rest ++ c :: post) = s.mp.root := root
    have none : freePtrs s.mp.addr post = [] := by
      rw [freePtrs, List.filter_eq_nil_iff.mpr, List.map_nil]
      intro d member fits
      exact held d (by simp [member]) (Option.isNone_iff_eq_none.mp fits)
    rw [if_neg (by simp [root])]
    refine ⟨_, rfl, .on inv live ⟨_, c, post, linking.ptr_eq ▸ linking, ?_⟩ trivial spares⟩
    rw [root, after, none]
    rfl
  · have place : after s.mp.addr (rest ++ c :: post) = b.ptr s.mp.addr := place
    have next : nextOf s.mp.mem (b.ptr s.mp.addr) = after s.mp.addr later := next
    have root_ne : b.ptr s.mp.addr ≠ s.mp.root := differ
    have held_none : ∀ d ∈ front, d.owner ≠ none := held
    rw [place]
    rcases List.append_eq_append_iff.mp eq with ⟨gap, rfl, tail⟩ | ⟨gap, rfl, tail⟩
    · -- the next free block lies behind the place
      have late : freePtrs s.mp.addr post = b.ptr s.mp.addr :: freePtrs s.mp.addr later := by
        cases gap with
        | nil =>
          obtain ⟨rfl, _⟩ := List.cons.inj tail
          simp [owner] at free
        | cons d gap =>
          have parts : c = d ∧ post = gap ++ b :: later := List.cons.inj tail
          have gap_held : freePtrs s.mp.addr gap = [] := by
            rw [freePtrs, List.filter_eq_nil_iff.mpr, List.map_nil]
            intro d member fits
            exact held_none d (by simp [member]) (Option.isNone_iff_eq_none.mp fits)
          rw [parts.2, freePtrs_append, gap_held, freePtrs_free free, List.nil_append]
      have above : ¬b.ptr s.mp.addr < c.ptr s.mp.addr := by
        intro lower
        have behind := layout.above (b.ptr s.mp.addr) (by rw [late]; exact List.mem_cons_self)
        exact BitVec.lt_irrefl _ (BitVec.lt_trans lower behind)
      rw [if_neg (fun both => above both.2)]
      refine ⟨_, rfl, .on inv live ⟨_, c, post, linking.ptr_eq ▸ linking, ?_⟩ trivial spares⟩
      rw [after, late, List.headD_cons]
    · -- the next free block lies before the place
      cases gap with
      | nil =>
        obtain ⟨rfl, _⟩ := List.cons.inj tail
        simp [owner] at free
      | cons d gap =>
        have parts : b = d ∧ later = gap ++ c :: post := List.cons.inj tail
        obtain ⟨rfl, rfl⟩ := parts
        have below : b.ptr s.mp.addr < c.ptr s.mp.addr := by
          refine layout.below _ ?_
          rw [freePtrs_append, freePtrs_append, freePtrs_free free]
          simp
        rw [if_pos ⟨root_ne, below⟩, next]
        refine ⟨_, rfl, .on inv live ⟨_, c, post, linking.ptr_eq ▸ linking, passed ++ front ++ [b], gap, by simp, rfl⟩ trivial
          spares⟩

omit [DecidableEq I] in
/-- What a thread has is given out once. -/
theorem cell_eq {x y : Cell I T} (x_mem : x ∈ s.cells) (y_mem : y ∈ s.cells) (same : x.ptr = y.ptr) : x = y := by
  have nodup : ((s.cells.map Cell.pair).map Prod.fst).Nodup :=
    (live.map Prod.fst).nodup_iff.mpr (List.pairwise_map.mpr inv.live_nodup)
  rw [List.map_map] at nodup
  exact List.inj_on_of_nodup_map nodup x_mem y_mem same

theorem take_cells {x : Cell I T} (member : x ∈ s.cells) :
    ((s.cells.map Cell.pair).Perm (x.pair :: (s.take x.holder x.ptr).cells.map Cell.pair)) ∧
      ∀ y ∈ s.cells, y.ptr ≠ x.ptr → y ∈ (s.take x.holder x.ptr).cells := by
  have hit : decide (x.holder = x.holder ∧ x.ptr = x.ptr) = true := by simp
  obtain ⟨y, front, rest, _, y_hit, eq, erased⟩ := List.exists_of_eraseP
    (p := fun cell : Cell I T => decide (cell.holder = x.holder ∧ cell.ptr = x.ptr)) member hit
  have y_mem : y ∈ s.cells := by simp [eq]
  have same : y.ptr = x.ptr := (of_decide_eq_true y_hit).2
  obtain rfl := cell_eq inv live y_mem member same
  have erased : (s.take y.holder y.ptr).cells = front ++ rest := erased
  rw [erased, eq]
  refine ⟨?_, ?_⟩
  · rw [List.map_append, List.map_append, List.map_cons]
    exact List.perm_middle
  · intro z z_mem differ
    simp only [List.mem_append, List.mem_cons] at z_mem ⊢
    rcases z_mem with early | rfl | late
    · exact .inl early
    · exact absurd rfl differ
    · exact .inr late

theorem link_step {pos : Usz T} (sec : Section s.mp s.cells i blks₀ blks (.link op ptr block pos))
    (at_pc : s.pc i = .link op ptr block pos) (spurious : Bool) :
    ∃ t, s.go i spurious = some t ∧ ∃ blks', Inner s t i blks₀ blks' := by
  obtain ⟨pre, c, post, ⟨rfl, rfl, ⟨cap, owner, mine⟩, ends, got, apart⟩, rfl⟩ := sec
  obtain ⟨kept, frame⟩ := inv.link owner
  have still := still_of_nodes (t := s.withMem (listAddBetween s.mp.mem (c.ptr s.mp.addr)
    (prevOf s.mp.mem (after s.mp.addr post)) (after s.mp.addr post))) inv live frame
  obtain ⟨perm, others⟩ := take_cells inv live mine
  have grown := @liveOf_middle T s.mp.addr cap pre post { c with owner := none } c rfl owner rfl
  have own : ∀ x ∈ s.cells, x.ptr = c.payload s.mp.addr → x.holder = i := by
    intro x member same
    rw [cell_eq inv live member mine same]
  simp only [Threads.go, at_pc]
  refine ⟨_, rfl, _, .goto kept ?_ ⟨ends, ?_⟩ trivial rfl rfl rfl rfl ?_ ?_ still⟩
  · exact (perm.symm.trans (live.trans grown)).cons_inv
  · cases op with
    | free ptr => trivial
    | alloc r =>
      intro some
      refine others _ (got some) ?_
      rcases apart with freed | differ
      · cases freed
      · exact differ
  · intro x member differ
    exact others x member fun same => differ (own x member same)
  · intro x member kept
    rw [at_pc] at kept
    exact ⟨others x member kept.1.symm, kept.2⟩

theorem bump_step (sec : Section s.mp s.cells i blks₀ blks (.bump r)) (at_pc : s.pc i = .bump r) (spurious : Bool) :
    ∃ t, s.go i spurious = some t ∧ Inner s t i blks₀ blks := by
  obtain ⟨rfl, small, none⟩ := sec
  have sum := (Sized.of_le small).sum_lt
  rw [← blockSize_eq small] at sum
  have limit : s.mp.off + r.blockSize > BitVec.ofNat _ mpSize ↔ mpSize < s.mp.off.toNat + r.blockSize.toNat :=
    inv.off_add sum
  simp only [Threads.go, at_pc]
  by_cases full : s.mp.off + r.blockSize > BitVec.ofNat _ mpSize
  · rw [if_pos full]
    refine ⟨_, rfl, .on inv live ⟨ends_null small none inv full, ?_⟩ trivial ?_⟩
    · exact fun some => absurd rfl some
    · exact fun x member _ => (cell_ne_zero inv live member).symm
  · rw [if_neg full]
    exact ⟨_, rfl, .on inv live ⟨rfl, small, none, Nat.not_lt.mp (mt limit.mpr full)⟩ trivial fun _ _ _ => trivial⟩

theorem sizeFresh_step (sec : Section s.mp s.cells i blks₀ blks (.sizeFresh r)) :
    Inner s ((s.withMem (setSize s.mp.mem (s.mp.buf + s.mp.off) r.blockSize)).goto i (.grow r)) i blks₀ blks := by
  obtain ⟨rfl, small, none, fits⟩ := sec
  obtain ⟨kept, frame⟩ := inv.sizeFresh r.blockSize
  have still : Still s (s.withMem (setSize s.mp.mem (s.mp.buf + s.mp.off) r.blockSize)) := by
    intro x member k lt
    obtain ⟨b, b_mem, _, _, place, large⟩ := cell_block inv live member
    have inside : b.start + b.size ≤ s.mp.off.toNat := (inv.layout.tiles.inside b_mem).2
    apply frame
    rw [Blk.addr] at place
    change _ < bufAddr s.mp.addr + s.mp.off.toNat
    omega
  exact .goto kept live ⟨rfl, small, none, fits, sizeOf_setSize ..⟩ trivial rfl rfl rfl rfl (fun _ member _ => member)
    (fun _ member _ => ⟨member, trivial⟩) still

theorem grow_step (sec : Section s.mp s.cells i blks₀ blks (.grow r)) (at_pc : s.pc i = .grow r) (spurious : Bool) :
    ∃ t, s.go i spurious = some t ∧ ∃ blks', Inner s t i blks₀ blks' := by
  obtain ⟨rfl, small, none, fits, word⟩ := sec
  have size := blockSize_eq small
  have kept := inv.grow (n := r.blockSize) (size ▸ blockLen_dvd r.cap) (size ▸ blockLen_large r.cap) fits word
  have ends := ends_bump small none inv rfl fits
  have perm := inv.bump_live r.blockSize r.cap
  have live' := (live.cons (s.mp.buf + s.mp.off + headerSize T, r.cap)).trans perm.symm
  simp only [Threads.go, at_pc]
  exact ⟨_, rfl, _, .goto kept live' ⟨ends, fun _ => List.mem_cons_self⟩ trivial rfl rfl rfl rfl
    (fun _ member _ => List.mem_cons_of_mem _ member)
    (fun x member _ => ⟨List.mem_cons_of_mem _ member,
      fresh_ptr (y := ⟨i, s.mp.buf + s.mp.off + headerSize T, r.cap⟩) kept live' member⟩) fun _ _ _ _ => rfl⟩

/-- The thread that has the lock goes on, up to where it gives the lock back. -/
theorem inside_step (sec : Section s.mp s.cells i blks₀ blks (s.pc i)) (inside : (s.pc i).Inside)
    (locked : ∀ op ptr, s.pc i ≠ .unlock op ptr) (spurious : Bool) :
    ∃ t, s.go i spurious = some t ∧ ∃ blks', Inner s t i blks₀ blks' := by
  cases at_pc : s.pc i with
  | idle | spin | pause | zero =>
    rw [at_pc] at inside
    exact inside.elim
  | enter op =>
    rw [at_pc] at sec
    cases op with
    | alloc r => exact ⟨_, by simp only [Threads.go, at_pc], _, enter_alloc inv live sec⟩
    | free ptr => exact ⟨_, by simp only [Threads.go, at_pc], _, enter_free inv live sec at_pc⟩
  | look r node =>
    obtain ⟨t, run, inner⟩ := look_step inv live (at_pc ▸ sec) at_pc spurious
    exact ⟨t, run, _, inner⟩
  | found r blk =>
    obtain ⟨t, run, inner⟩ := found_step inv live (at_pc ▸ sec) at_pc spurious
    exact ⟨t, run, _, inner⟩
  | whole r blk => exact whole_step inv live (at_pc ▸ sec) at_pc spurious
  | cut r blk => exact cut_step inv live (at_pc ▸ sec) at_pc spurious
  | sizeRest r blk =>
    obtain ⟨t, run, inner⟩ := sizeRest_step inv live (at_pc ▸ sec) at_pc spurious
    exact ⟨t, run, _, inner⟩
  | sizeFront r blk => exact sizeFront_step inv live (at_pc ▸ sec) at_pc spurious
  | place op ptr block =>
    rw [at_pc] at sec
    exact ⟨_, by simp only [Threads.go, at_pc], _, place_step inv live sec at_pc⟩
  | seek op ptr block pos =>
    obtain ⟨t, run, inner⟩ := seek_step inv live (at_pc ▸ sec) at_pc spurious
    exact ⟨t, run, _, inner⟩
  | link op ptr block pos => exact link_step inv live (at_pc ▸ sec) at_pc spurious
  | bump r =>
    obtain ⟨t, run, inner⟩ := bump_step inv live (at_pc ▸ sec) at_pc spurious
    exact ⟨t, run, _, inner⟩
  | sizeFresh r =>
    rw [at_pc] at sec
    exact ⟨_, by simp only [Threads.go, at_pc], _, sizeFresh_step inv live sec⟩
  | grow r => exact grow_step inv live (at_pc ▸ sec) at_pc spurious
  | unlock op ptr => exact absurd at_pc (locked op ptr)

end Steps

end AvaModule.MemPool
