import AvaModule.Ds.Mp.Model
import AvaModule.Lib.Tiling

/-! The blocks of the pool as ranges of `buf`. -/
namespace AvaModule.MemPool
open ListHead Memory Tiling

variable {T : Target}

/-- A block of `buf`, header included, and the size asked for if it is given out. -/
structure Blk (T : Target) where
  start : Nat
  size : Nat
  owner : Option (Usz T)

def headerLen (T : Target) : Nat := (headerSize T).toNat

def bufAddr (addr : Usz T) : Nat := addr.toNat + 2 * wordBytes T

def Blk.addr (b : Blk T) (addr : Usz T) : Nat := bufAddr addr + b.start

def Blk.ptr (addr : Usz T) (b : Blk T) : Usz T := BitVec.ofNat _ (b.addr addr)

/-- The pointer that is given out. -/
def Blk.payload (addr : Usz T) (b : Blk T) : Usz T := b.ptr addr + headerSize T

section Sizes

theorem header_words : 3 * wordBytes T ≤ headerLen T := by cases T <;> decide

theorem header_dvd : 8 ∣ headerLen T := by cases T <;> decide

theorem header_le : headerLen T ≤ 24 := by cases T <;> decide

theorem header_pos : 0 < headerLen T := by cases T <;> decide

theorem modulus_large : 2 ^ 32 ≤ T.modulus := by cases T <;> decide

theorem and_seven (x : Usz T) : (x &&& 7).toNat = x.toNat % 8 := by
  have seven : (7 : Usz T).toNat = 2 ^ 3 - 1 := by cases T <;> decide
  rw [BitVec.toNat_and, seven, Nat.and_two_pow_sub_one_eq_mod]

theorem and_not_seven (x : Usz T) : (x &&& ~~~7).toNat + x.toNat % 8 = x.toNat := by
  have disjoint : (x &&& ~~~7) &&& (x &&& 7) = 0#T.bits := by
    rw [BitVec.and_assoc, ← BitVec.and_assoc (~~~7), BitVec.and_comm (~~~7), BitVec.and_assoc,
      BitVec.and_comm (~~~7), BitVec.and_not_self]
    simp
  have parts : (x &&& ~~~7) + (x &&& 7) = x := by
    rw [BitVec.add_eq_or_of_and_eq_zero _ _ disjoint, ← BitVec.and_or_distrib_left, BitVec.or_comm,
      BitVec.or_not_self, BitVec.and_allOnes]
  have below : (x &&& ~~~7).toNat ≤ x.toNat := by
    rw [BitVec.toNat_and]
    exact Nat.and_le_left
  have sum := congrArg BitVec.toNat parts
  have x_lt := x.isLt
  have bits : 8 ≤ 2 ^ T.bits := by cases T <;> decide
  have low := Nat.mod_lt x.toNat (show 0 < 8 by decide)
  rw [BitVec.toNat_add, and_seven] at sum
  rcases Nat.lt_or_ge ((x &&& ~~~7).toNat + x.toNat % 8) (2 ^ T.bits) with fits | past
  · rwa [Nat.mod_eq_of_lt fits] at sum
  · rw [Nat.mod_eq_sub_mod past, Nat.mod_eq_of_lt (by omega)] at sum
    omega

/-- Rounded up to the alignment, in the word. -/
theorem toNat_alignUp_mod (sz : Usz T) : (alignUp sz).toNat = (sz.toNat + 7) / 8 * 8 % T.modulus := by
  have seven : (7 : Usz T).toNat = 7 := by cases T <;> decide
  have split := and_not_seven (sz + 7)
  have word : 8 ∣ T.modulus := by cases T <;> decide
  rw [BitVec.toNat_add, seven, ← Target.modulus] at split
  rw [alignUp]
  generalize T.modulus = modulus at split word ⊢
  obtain ⟨k, rfl⟩ := word
  have whole : (sz.toNat + 7) / 8 * 8 % (8 * k) = (sz.toNat + 7) / 8 % k * 8 := by
    rw [Nat.mul_comm 8 k, Nat.mul_mod_mul_right]
  have parts : (sz.toNat + 7) % (8 * k) = (sz.toNat + 7) % 8 + 8 * ((sz.toNat + 7) / 8 % k) := Nat.mod_mul
  rw [whole]
  omega

end Sizes

/-- The blocks tile the part of `buf` in use. -/
structure Layout (addr : Usz T) (off : Nat) (blks : List (Blk T)) : Prop where
  room : bufAddr addr + mpSize < T.modulus
  tiles : Tiles Blk.start Blk.size 0 blks off
  off_le : off ≤ mpSize
  sizes : ∀ b ∈ blks, 8 ∣ b.size ∧ headerLen T ≤ b.size

/-- The bytes of the root of the list and of the headers of the blocks. -/
def Heads (addr : Usz T) (blks : List (Blk T)) (i : Nat) : Prop :=
  Within addr i ∨ ∃ b ∈ blks, b.addr addr ≤ i ∧ i < b.addr addr + headerLen T

namespace Layout
variable {addr : Usz T} {off : Nat} {blks pre post : List (Blk T)} {b c : Blk T}

theorem end_le (layout : Layout addr off blks) (member : b ∈ blks) : b.start + b.size ≤ mpSize :=
  Nat.le_trans (layout.tiles.inside member).2 layout.off_le

theorem ptr_toNat (layout : Layout addr off blks) (member : b ∈ blks) : (b.ptr addr).toNat = b.addr addr := by
  have bound := layout.end_le member
  have room := layout.room
  exact toNat_length (by rw [Blk.addr]; omega)

theorem payload_toNat (layout : Layout addr off blks) (member : b ∈ blks) :
    (b.payload addr).toNat = b.addr addr + headerLen T := by
  have bound := layout.end_le member
  have room := layout.room
  have size := (layout.sizes b member).2
  rw [Blk.payload, BitVec.toNat_add, layout.ptr_toNat member]
  exact Nat.mod_eq_of_lt (by rw [Blk.addr, ← headerLen, ← Target.modulus]; omega)

theorem root_toNat (addr : Usz T) : addr.toNat + 2 * wordBytes T = bufAddr addr := rfl

/-- No two list heads overlap, neither those of the blocks nor the root. -/
theorem allApart (layout : Layout addr off blks) : AllApart (addr :: blks.map (Blk.ptr addr)) := by
  have words := header_words (T := T)
  have root : ∀ b ∈ blks, addr.toNat + 2 * wordBytes T ≤ (b.ptr addr).toNat := by
    intro b member
    rw [layout.ptr_toNat member, Blk.addr, bufAddr]
    omega
  intro p p_mem q q_mem differ
  rcases List.mem_cons.mp p_mem with rfl | p_mem <;> rcases List.mem_cons.mp q_mem with rfl | q_mem
  · exact absurd rfl differ
  · obtain ⟨c, member, rfl⟩ := List.mem_map.mp q_mem
    exact .inl (root c member)
  · obtain ⟨b, member, rfl⟩ := List.mem_map.mp p_mem
    exact .inr (root b member)
  · obtain ⟨b, b_mem, rfl⟩ := List.mem_map.mp p_mem
    obtain ⟨c, c_mem, rfl⟩ := List.mem_map.mp q_mem
    have b_size := (layout.sizes b b_mem).2
    have c_size := (layout.sizes c c_mem).2
    rw [layout.ptr_toNat b_mem, layout.ptr_toNat c_mem, Blk.addr, Blk.addr]
    rcases layout.tiles.apart b_mem c_mem with rfl | before | after
    · exact absurd rfl differ
    · exact .inl (by omega)
    · exact .inr (by omega)

/-- The rest of a block lies outside of every list head. -/
theorem outside (layout : Layout addr off blks) (member : b ∈ blks) {i : Nat}
    (lo : b.addr addr + 2 * wordBytes T ≤ i) (hi : i < b.addr addr + b.size) :
    ∀ p ∈ addr :: blks.map (Blk.ptr addr), ¬Within p i := by
  intro p p_mem within
  have words := header_words (T := T)
  rcases List.mem_cons.mp p_mem with rfl | p_mem
  · rw [Within, root_toNat] at within
    rw [Blk.addr] at lo
    omega
  · obtain ⟨c, c_mem, rfl⟩ := List.mem_map.mp p_mem
    have c_size := (layout.sizes c c_mem).2
    rw [Within, layout.ptr_toNat c_mem] at within
    simp only [Blk.addr] at lo hi within
    rcases layout.tiles.apart member c_mem with rfl | before | after <;> omega

/-- Whether a block is given out does not matter. -/
theorem own (layout : Layout addr off (pre ++ b :: post)) (owner : Option (Usz T)) :
    Layout addr off (pre ++ { b with owner := owner } :: post) where
  room := layout.room
  tiles := by
    obtain ⟨before, after⟩ := tiles_middle.mp layout.tiles
    exact tiles_middle.mpr ⟨before, after⟩
  off_le := layout.off_le
  sizes := by
    intro c member
    rcases List.mem_append.mp member with early | late
    · exact layout.sizes c (List.mem_append_left _ early)
    · rcases List.mem_cons.mp late with rfl | late
      · exact layout.sizes b (by simp)
      · exact layout.sizes c (by simp [late])

/-- A block is cut in two. -/
theorem cut (layout : Layout addr off (pre ++ b :: post)) {n : Nat} (dvd : 8 ∣ n) (head : headerLen T ≤ n)
    (tail : n + headerLen T ≤ b.size) (owner owner' : Option (Usz T)) :
    Layout addr off (pre ++ ⟨b.start, n, owner⟩ :: ⟨b.start + n, b.size - n, owner'⟩ :: post) where
  room := layout.room
  tiles := by
    obtain ⟨before, after⟩ := tiles_middle.mp layout.tiles
    have whole : b.start + n + (b.size - n) = b.start + b.size := by omega
    refine tiles_middle.mpr ⟨before, rfl, ?_⟩
    rw [whole]
    exact after
  off_le := layout.off_le
  sizes := by
    have size := (layout.sizes b (by simp)).1
    intro c member
    simp only [List.mem_append, List.mem_cons] at member
    rcases member with early | rfl | rfl | late
    · exact layout.sizes c (by simp [early])
    · exact ⟨dvd, head⟩
    · exact ⟨Nat.dvd_sub size dvd, by dsimp only; omega⟩
    · exact layout.sizes c (by simp [late])

/-- A new block at the end of what is in use. -/
theorem snoc (layout : Layout addr off blks) {n : Nat} (dvd : 8 ∣ n) (head : headerLen T ≤ n)
    (fits : off + n ≤ mpSize) (owner : Option (Usz T)) :
    Layout addr (off + n) (blks ++ [⟨off, n, owner⟩]) where
  room := layout.room
  tiles := tiles_append.mpr ⟨off, layout.tiles, rfl, rfl⟩
  off_le := fits
  sizes := by
    intro c member
    rcases List.mem_append.mp member with old | new
    · exact layout.sizes c old
    · rw [List.mem_singleton.mp new]
      exact ⟨dvd, head⟩

/-- A list head lies in the root or in a header. -/
theorem within_heads (layout : Layout addr off blks) {p : Usz T} {i : Nat}
    (member : p ∈ addr :: blks.map (Blk.ptr addr)) (within : Within p i) : Heads addr blks i := by
  rcases List.mem_cons.mp member with rfl | node
  · exact .inl within
  · obtain ⟨b, b_mem, rfl⟩ := List.mem_map.mp node
    have words := header_words (T := T)
    rw [Within, layout.ptr_toNat b_mem] at within
    exact .inr ⟨b, b_mem, within.1, by omega⟩

/-- Who holds a block does not matter for where its list head is. -/
theorem own_heads (layout : Layout addr off (pre ++ b :: post)) {owner : Option (Usz T)} {i : Nat}
    (away : ¬Heads addr (pre ++ { b with owner := owner } :: post) i) :
    ∀ p ∈ addr :: (pre ++ b :: post).map (Blk.ptr addr), ¬Within p i := by
  intro p p_mem within
  refine away ((layout.own owner).within_heads ?_ within)
  rw [List.map_append] at p_mem ⊢
  exact p_mem

/-- No header lies behind the header of a block. -/
theorem payload_clear (layout : Layout addr off blks) (member : b ∈ blks) {i : Nat}
    (lo : b.addr addr + headerLen T ≤ i) (hi : i < b.addr addr + b.size) : ¬Heads addr blks i := by
  have words := header_words (T := T)
  rintro (root | ⟨c, c_mem, from_c, to_c⟩)
  · exact layout.outside member (by omega) hi _ List.mem_cons_self root
  · have c_size := (layout.sizes c c_mem).2
    simp only [Blk.addr] at lo hi from_c to_c
    rcases layout.tiles.apart member c_mem with rfl | before | after <;> omega

end Layout

end AvaModule.MemPool
