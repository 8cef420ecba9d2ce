import AvaModule.Ds.Mp.Runs

/-! What the calls of the pool and the stores of its users leave alone. -/
namespace AvaModule.MemPool
open ListHead Memory DoublyLinked Tiling Transition

variable {T : Target} {addr cap ptr : Usz T} {blks blks' : List (Blk T)} {b : Blk T} {mp mp' : Mp T} {s t : Pool T}

/-- The bytes behind the header of the block that a pointer was given out for. -/
def payloadLen (s : Pool T) (ptr : Usz T) : Nat := (sizeOf s.mp.mem (ptr - headerSize T)).toNat - headerLen T

/-- No byte behind a header changes for who holds the block before and after. -/
def Spares (s t : Pool T) : Prop :=
  ∀ x ∈ s.live, x ∈ t.live → x.2.toNat ≤ payloadLen s x.1 ∧
    ∀ i < payloadLen s x.1, t.mp.mem (x.1.toNat + i) = s.mp.mem (x.1.toNat + i)

/-- What each call leaves alone. `mp_calloc` hands out zeros, and a user reaches no header and
no link. -/
def Framed (act : PoolAct T) (s t : Pool T) : Prop :=
  match act with
  | .alloc _ | .free _ => Spares s t
  | .calloc cap => Spares s t ∧ ∃ ptr, mpCalloc s.mp cap = some (ptr, t.mp) ∧
      (ptr ≠ 0 → ∀ i < cap.toNat, t.mp.mem (ptr.toNat + i) = 0)
  | .store .. => ∃ blks, TiledBy s blks ∧ TiledBy t blks ∧ ∀ i, Heads s.mp.addr blks i → t.mp.mem i = s.mp.mem i

theorem PoolInv.payloadLen_eq (inv : PoolInv s.mp blks) (member : b ∈ blks) :
    payloadLen s (b.payload s.mp.addr) = b.size - headerLen T := by
  have block : b.payload s.mp.addr - headerSize T = b.ptr s.mp.addr := BitVec.add_sub_cancel _ _
  rw [payloadLen, block, inv.words b member]

/-- No two blocks are given out for one pointer. -/
theorem PoolInv.live_nodup (inv : PoolInv mp blks) : (liveOf mp.addr blks).Pairwise fun x y => x.1 ≠ y.1 := by
  have order := List.Pairwise.and_mem.mp inv.layout.tiles.pairwise
  refine order.filterMap _ ?_
  rintro b c ⟨b_mem, c_mem, before⟩ x x_eq y y_eq
  obtain ⟨cap, _, rfl⟩ := Option.map_eq_some_iff.mp x_eq
  obtain ⟨cap', _, rfl⟩ := Option.map_eq_some_iff.mp y_eq
  intro same
  have place := inv.layout.payload_toNat b_mem
  have place' := inv.layout.payload_toNat c_mem
  have size := (inv.layout.sizes b b_mem).2
  have pos := header_pos (T := T)
  dsimp only at same
  rw [same, place', Blk.addr, Blk.addr] at place
  omega

section Step
variable (inv : PoolInv s.mp blks) (next : Follows s blks t blks')
include inv next

/-- A step that stores into headers only. -/
theorem Follows.spares (frame : ∀ x ∈ s.live, ∀ c ∈ blks', x.1 = c.payload s.mp.addr → ∀ i, ¬Heads s.mp.addr blks' i →
      c.addr s.mp.addr + headerLen T ≤ i → i < c.addr s.mp.addr + c.size → t.mp.mem i = s.mp.mem i) : Spares s t := by
  intro x before after
  obtain ⟨c, c_mem, c_mem', owner, same⟩ := next.shared x before after
  have layout := next.inv.layout
  rw [next.addr] at layout
  have place := layout.payload_toNat c_mem'
  have large := inv.fits c c_mem x.2 owner
  rw [same, inv.payloadLen_eq c_mem, place]
  refine ⟨by omega, ?_⟩
  intro i lt
  have lo : c.addr s.mp.addr + headerLen T ≤ c.addr s.mp.addr + headerLen T + i := Nat.le_add_right _ _
  have hi : c.addr s.mp.addr + headerLen T + i < c.addr s.mp.addr + c.size := by omega
  exact frame x before c c_mem' same _ (layout.payload_clear c_mem' lo hi) lo hi

/-- The zeros of a new block lie in no other one. -/
theorem Follows.calloc_spares (live' : t.live = (ptr, cap) :: s.live)
    (frame : ∀ i, ¬Heads s.mp.addr blks' i → (i < ptr.toNat ∨ ptr.toNat + cap.toNat ≤ i) → t.mp.mem i = s.mp.mem i) :
    Spares s t := by
  have layout := next.inv.layout
  rw [next.addr] at layout
  have nodup := next.live.symm.pairwise next.inv.live_nodup fun differ => differ.symm
  rw [live'] at nodup
  have given : (ptr, cap) ∈ liveOf t.mp.addr blks' := next.live.mem_iff.mp (by simp [live'])
  obtain ⟨pre, b, post, eq, owner, at_b⟩ := mem_liveOf given
  have b_mem : b ∈ blks' := by simp [eq]
  have large := next.inv.fits b b_mem cap owner
  have place := layout.payload_toNat b_mem
  rw [next.addr] at at_b
  dsimp only at at_b
  apply next.spares inv
  intro x x_mem c c_mem same i away lo hi
  apply frame i away
  rw [← at_b] at place
  rcases layout.tiles.apart b_mem c_mem with rfl | before | after
  · exact absurd (at_b.trans same.symm) (List.rel_of_pairwise_cons nodup x_mem)
  · rw [Blk.addr] at lo hi place
    omega
  · rw [Blk.addr] at lo hi place
    omega

theorem Follows.framed (live : s.live.Perm (liveOf s.mp.addr blks)) (act : PoolAct T) (stores : Stores act s blks t blks') :
    Framed act s t := by
  cases act with
  | alloc cap => exact next.spares inv fun _ _ _ _ _ i away _ _ => stores i away
  | free ptr => exact next.spares inv fun _ _ _ _ _ i away _ _ => stores i away
  | calloc cap =>
    rcases stores with ⟨run, rfl⟩ | ⟨ptr, some, run, live', zeros, frame⟩
    · exact ⟨next.spares inv fun _ _ _ _ _ _ _ _ _ => rfl, 0, run, fun some => absurd rfl some⟩
    · exact ⟨next.calloc_spares inv live' frame, ptr, run, fun _ => zeros⟩
  | store ptr k byte =>
    obtain ⟨⟨cap, held, lt⟩, rfl, frame⟩ := stores
    refine ⟨blks', inv.tiledBy live, next.inv.tiledBy next.live, ?_⟩
    intro i head
    apply frame
    rintro rfl
    obtain ⟨pre, b, post, rfl, owner, same⟩ := mem_liveOf (live.mem_iff.mp held)
    have large := inv.fits b (by simp) cap owner
    have place := inv.layout.payload_toNat (b := b) (by simp)
    dsimp only at same
    rw [← same] at place
    exact inv.layout.payload_clear (b := b) (by simp) (by omega) (by omega) head

end Step

/-- Whatever has been asked for, given back and stored, the next call changes no byte that its
holders have before and after it, `mp_calloc` hands out zeros, and no store reaches a header or
a link of the list. -/
theorem pool_framed {acts : List (PoolAct T)} {act : PoolAct T} {mem : Nat → Byte}
    (room : bufAddr addr + mpSize < T.modulus) (admits : Admits poolStep Proper (acts ++ [act]) (poolStart addr mem)) :
    ∃ s t, runs poolStep acts (poolStart addr mem) = some s ∧ poolStep act s = some t ∧ Framed act s t := by
  obtain ⟨s, run, ⟨blks, inv, live⟩⟩ := runs_total (P := RunInv) (fun inv proper => inv.step proper)
    (RunInv.start addr mem room) admits.left
  have proper := (admits.right run).1
  obtain ⟨t, blks', step, next, stores⟩ := sound_step inv live (Sound.of_proper ⟨blks, inv, live⟩ proper)
  exact ⟨s, t, run, step, next.framed inv live act stores⟩

theorem pool_framed_free : ∃ s t : Pool .mcu, runs poolStep [.alloc 20, .calloc 8] (poolStart 0x1000 fun _ => 0) = some s ∧
    poolStep (.free 0x1018) s = some t ∧ Framed (.free 0x1018) s t :=
  @pool_framed .mcu 0x1000 [.alloc 20, .calloc 8] (.free 0x1018) (fun _ => 0) (by decide) two_admitted

end AvaModule.MemPool
