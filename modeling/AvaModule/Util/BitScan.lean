import AvaModule.Util.BitOps
import Mathlib.Algebra.Group.Nat.Even
import Mathlib.Data.Finset.Card
import Mathlib.Data.Finset.Image
import Mathlib.Tactic.Ring

/-! The portable loops of util/bitops.h, for both of their widths, as operations on the set of the ones of a word. -/
namespace AvaModule

variable {w : Nat} {x : BitVec w} {c : BitVec 32} {i n : Nat}

/-- The body of `clz64` and `clz32`: the bits below `i` are still to be looked at. -/
def clzLoop (x : BitVec w) : Nat → BitVec 32 → BitVec 32
  | 0, n => n
  | i + 1, n => if (x >>> i) &&& 1 ≠ 0 then n else clzLoop x i (n + 1)

def clz (x : BitVec w) : BitVec 32 := if x = 0 then BitVec.ofNat 32 w else clzLoop x w 0

/-- The body of `ctz64` and `ctz32`: the bits from `i` on are still to be looked at, as many as the first argument. -/
def ctzLoop (x : BitVec w) : Nat → Nat → BitVec 32 → BitVec 32
  | 0, _, n => n
  | left + 1, i, n => if (x >>> i) &&& 1 ≠ 0 then n else ctzLoop x left (i + 1) (n + 1)

def ctz (x : BitVec w) : BitVec 32 := if x = 0 then BitVec.ofNat 32 w else ctzLoop x w 0 0

/-- The loop of `popcount64` and `popcount32`. -/
def popcountLoop (x : BitVec w) (cnt : BitVec 32) : BitVec 32 :=
  if x = 0 then cnt else popcountLoop (x >>> 1) (cnt + (x &&& 1).setWidth 32)
termination_by x.toNat
decreasing_by
  rename_i nonzero
  have pos : x.toNat ≠ 0 := fun zero => nonzero (BitVec.eq_of_toNat_eq zero)
  rw [BitVec.toNat_ushiftRight, Nat.shiftRight_eq_div_pow]
  omega

def popcount (x : BitVec w) : BitVec 32 := popcountLoop x 0

/-- `bswap64` and `bswap32`: the bytes from the first on. -/
def bswap (x : BitVec w) : BitVec w :=
  (List.range (w / 8)).foldl (fun y i => y ||| ((x >>> (i * 8)) &&& 0xFF) <<< ((w / 8 - 1 - i) * 8)) 0

/-- A shift by the width or more has no result. -/
def rol (x : BitVec w) (n : BitVec 32) : Option (BitVec w) :=
  if n.toNat < w ∧ (BitVec.ofNat 32 w - n).toNat < w then some (x <<< n.toNat ||| x >>> (BitVec.ofNat 32 w - n).toNat)
  else none

def ror (x : BitVec w) (n : BitVec 32) : Option (BitVec w) :=
  if n.toNat < w ∧ (BitVec.ofNat 32 w - n).toNat < w then some (x >>> n.toNat ||| x <<< (BitVec.ofNat 32 w - n).toNat)
  else none

def lsb (x : BitVec w) : BitVec 32 := ctz x

def msb (x : BitVec w) : BitVec 32 := BitVec.ofNat 32 (w - 1) - clz x

def clz32 (x : BitVec 32) : BitVec 32 := clz x

def ctz32 (x : BitVec 32) : BitVec 32 := ctz x

def ctz64 (x : BitVec 64) : BitVec 32 := ctz x

def popcount32 (x : BitVec 32) : BitVec 32 := popcount x

def popcount64 (x : BitVec 64) : BitVec 32 := popcount x

def bswap32 (x : BitVec 32) : BitVec 32 := bswap x

def bswap64 (x : BitVec 64) : BitVec 64 := bswap x

def rol32 (x : BitVec 32) (n : BitVec 32) : Option (BitVec 32) := rol x n

def rol64 (x : BitVec 64) (n : BitVec 32) : Option (BitVec 64) := rol x n

def ror32 (x : BitVec 32) (n : BitVec 32) : Option (BitVec 32) := ror x n

def ror64 (x : BitVec 64) (n : BitVec 32) : Option (BitVec 64) := ror x n

def lsb32 (x : BitVec 32) : BitVec 32 := ctz32 x

def lsb64 (x : BitVec 64) : BitVec 32 := ctz64 x

def msb32 (x : BitVec 32) : BitVec 32 := 31 - clz32 x

def msb64 (x : BitVec 64) : BitVec 32 := 63 - clz64 x

/-- `clz64` is the loop at its own width. -/
theorem clz64_eq (x : BitVec 64) : clz64 x = clz x := by
  have loop : ∀ i n, clz64Loop x i n = clzLoop x i n := by
    intro i
    induction i with
    | zero => exact fun _ => rfl
    | succ i ih =>
      intro n
      rw [clz64Loop, clzLoop, ih]
  rw [clz64, clz, loop]
  rfl

section Ones

/-- The places of the ones. -/
def ones (x : BitVec w) : Finset Nat := (Finset.range w).filter fun i => x.getLsbD i

theorem mem_ones : i ∈ ones x ↔ x.getLsbD i = true := by
  rw [ones, Finset.mem_filter, Finset.mem_range]
  exact ⟨fun both => both.2, fun set => ⟨BitVec.lt_of_getLsbD set, set⟩⟩

theorem ones_injective {x y : BitVec w} (same : ones x = ones y) : x = y := by
  apply BitVec.eq_of_getLsbD_eq
  intro i _
  have iff : x.getLsbD i = true ↔ y.getLsbD i = true := by rw [← mem_ones, same, mem_ones]
  exact Bool.eq_iff_iff.mpr iff

theorem ones_zero : ones (0 : BitVec w) = ∅ := by
  ext i
  simp [mem_ones]

theorem ones_nonempty (nonzero : x ≠ 0) : (ones x).Nonempty := by
  rw [Finset.nonempty_iff_ne_empty]
  exact fun none => nonzero (ones_injective (none.trans ones_zero.symm))

/-- The test of both loops. -/
theorem bit_set_iff (pos : 0 < w) (i : Nat) : (x >>> i) &&& 1 ≠ 0 ↔ i ∈ ones x := by
  have place : ∀ k, ((x >>> i) &&& 1).getLsbD k = (decide (k = 0) && x.getLsbD i) := by
    intro k
    rw [BitVec.getLsbD_and, BitVec.getLsbD_ushiftRight]
    by_cases zero : k = 0
    · simp [zero, pos]
    · simp [zero]
  rw [mem_ones]
  constructor
  · intro some
    by_contra unset
    apply some
    apply BitVec.eq_of_getLsbD_eq
    intro k _
    rw [place, Bool.eq_false_iff.mpr unset, Bool.and_false]
    exact (BitVec.getLsbD_zero).symm
  · intro set none
    have here := place 0
    rw [none, set, Bool.and_true] at here
    exact absurd here (by simp)

end Ones

section Scans

/-- A count below the width is counted on. -/
theorem count_succ (room : c.toNat + 1 < 2 ^ 32) : (c + 1).toNat = c.toNat + 1 := by
  rw [BitVec.toNat_add]
  exact Nat.mod_eq_of_lt room

/-- The loop from above stops at the greatest one. -/
theorem clzLoop_spec (pos : 0 < w) (nonempty : (ones x).Nonempty) (below : ∀ k ∈ ones x, k < i)
    (room : c.toNat + i < 2 ^ 32) : ∃ k, IsGreatest (ones x : Set Nat) k ∧ (clzLoop x i c).toNat + k + 1 = c.toNat + i := by
  induction i generalizing c with
  | zero =>
    obtain ⟨k, mem⟩ := nonempty
    exact absurd (below k mem) (Nat.not_lt_zero k)
  | succ i ih =>
    rw [clzLoop]
    by_cases set : i ∈ ones x
    · rw [if_pos ((bit_set_iff pos i).mpr set)]
      exact ⟨i, ⟨set, fun k mem => Nat.le_of_lt_succ (below k mem)⟩, by omega⟩
    · rw [if_neg fun bit => set ((bit_set_iff pos i).mp bit)]
      have next := count_succ (c := c) (by omega)
      have lower : ∀ k ∈ ones x, k < i := fun k mem =>
        Nat.lt_of_le_of_ne (Nat.le_of_lt_succ (below k mem)) fun eq => set (eq ▸ mem)
      obtain ⟨k, greatest, count⟩ := ih (c := c + 1) lower (by omega)
      exact ⟨k, greatest, by omega⟩

/-- The loop from below stops at the least one. -/
theorem ctzLoop_spec (pos : 0 < w) {left : Nat} (nonempty : (ones x).Nonempty) (above : ∀ k ∈ ones x, i ≤ k ∧ k < i + left)
    (count : c.toNat = i) (room : i + left < 2 ^ 32) : IsLeast (ones x : Set Nat) (ctzLoop x left i c).toNat := by
  induction left generalizing i c with
  | zero =>
    obtain ⟨k, mem⟩ := nonempty
    have range := above k mem
    omega
  | succ left ih =>
    rw [ctzLoop]
    by_cases set : i ∈ ones x
    · rw [if_pos ((bit_set_iff pos i).mpr set), count]
      exact ⟨set, fun k mem => (above k mem).1⟩
    · rw [if_neg fun bit => set ((bit_set_iff pos i).mp bit)]
      have next := count_succ (c := c) (by omega)
      refine ih (fun k mem => ?_) (by omega) (by omega)
      have range := above k mem
      have ne : k ≠ i := fun eq => set (eq ▸ mem)
      omega

theorem lsb_isLeast (pos : 0 < w) (width : w < 2 ^ 32) (nonzero : x ≠ 0) : IsLeast (ones x : Set Nat) (lsb x).toNat := by
  rw [lsb, ctz, if_neg nonzero]
  refine ctzLoop_spec pos (ones_nonempty nonzero) (fun k mem => ?_) rfl (by omega)
  exact ⟨Nat.zero_le k, (Nat.zero_add w).symm ▸ BitVec.lt_of_getLsbD (mem_ones.mp mem)⟩

theorem msb_isGreatest (pos : 0 < w) (width : w < 2 ^ 32) (nonzero : x ≠ 0) :
    IsGreatest (ones x : Set Nat) (msb x).toNat ∧ (clz x).toNat + (msb x).toNat + 1 = w := by
  have inside : ∀ k ∈ ones x, k < w := fun k mem => BitVec.lt_of_getLsbD (mem_ones.mp mem)
  obtain ⟨k, greatest, count⟩ := clzLoop_spec (c := 0) pos (ones_nonempty nonzero) inside (by simpa using width)
  have zero : (0 : BitVec 32).toNat = 0 := rfl
  have zeros : (clz x).toNat + k + 1 = w := by
    rw [clz, if_neg nonzero]
    omega
  have eq : (msb x).toNat = k := by
    have top : (BitVec.ofNat 32 (w - 1)).toNat = w - 1 := by
      rw [BitVec.toNat_ofNat]
      exact Nat.mod_eq_of_lt (by omega)
    rw [msb, BitVec.toNat_sub_of_le, top]
    · omega
    · rw [BitVec.le_def, top]
      omega
  rw [eq]
  exact ⟨greatest, zeros⟩

/-- A shift by one takes the lowest bit off. -/
theorem card_ones (pos : 0 < w) (x : BitVec w) : (ones x).card = (x &&& 1).toNat + (ones (x >>> 1)).card := by
  have moved : ∀ i, i ∈ ones (x >>> 1) ↔ i + 1 ∈ ones x := by
    intro i
    rw [mem_ones, mem_ones, BitVec.getLsbD_ushiftRight, Nat.add_comm]
  have apart : Disjoint (if 0 ∈ ones x then {0} else ∅) ((ones (x >>> 1)).image (· + 1)) := by
    rw [Finset.disjoint_left]
    intro i first later
    obtain ⟨k, _, eq⟩ := Finset.mem_image.mp later
    by_cases set : 0 ∈ ones x <;> simp [set] at first
    omega
  have parts : ones x = (if 0 ∈ ones x then {0} else ∅) ∪ (ones (x >>> 1)).image (· + 1) := by
    ext i
    cases i with
    | zero => by_cases set : 0 ∈ ones x <;> simp [set]
    | succ i => by_cases set : 0 ∈ ones x <;> simp [set, moved]
  have lowest : (x &&& 1).toNat = (if 0 ∈ ones x then {0} else ∅ : Finset Nat).card := by
    have bit := bit_set_iff (x := x) pos 0
    rw [BitVec.ushiftRight_zero] at bit
    by_cases set : 0 ∈ ones x
    · have one : (x &&& 1).toNat ≠ 0 := fun zero => bit.mpr set (BitVec.eq_of_toNat_eq zero)
      have small : (x &&& 1).toNat ≤ 1 := by
        rw [BitVec.toNat_and]
        exact Nat.and_le_right.trans (by simp; exact Nat.mod_le _ _)
      rw [if_pos set, Finset.card_singleton]
      omega
    · rw [if_neg set, not_not.mp fun some => set (bit.mp some)]
      rfl
  conv_lhs => rw [parts]
  rw [Finset.card_union_of_disjoint apart, Finset.card_image_of_injective _ (add_left_injective 1), ← lowest]

theorem popcountLoop_spec (pos : 0 < w) (room : c.toNat + (ones x).card < 2 ^ 32) :
    (popcountLoop x c).toNat = c.toNat + (ones x).card := by
  induction x, c using popcountLoop.induct with
  | case1 c => rw [popcountLoop, if_pos rfl, ones_zero, Finset.card_empty, Nat.add_zero]
  | case2 x c nonzero ih =>
    have split := card_ones pos x
    have next : (c + (x &&& 1).setWidth 32).toNat = c.toNat + (x &&& 1).toNat := by
      rw [BitVec.toNat_add, BitVec.toNat_setWidth, Nat.add_mod_mod]
      exact Nat.mod_eq_of_lt (by omega)
    rw [popcountLoop, if_neg nonzero, ih (by omega), next]
    omega

theorem popcount_card (pos : 0 < w) (width : w < 2 ^ 32) (x : BitVec w) : (popcount x).toNat = (ones x).card := by
  have few : (ones x).card ≤ w := (Finset.card_filter_le _ _).trans_eq (Finset.card_range w)
  have zero : (0 : BitVec 32).toNat = 0 := rfl
  rw [popcount, popcountLoop_spec pos (by omega), zero, Nat.zero_add]

end Scans

section Moves

/-- The place a byte swap takes bit `i` to: the same place in the byte, counted from the other end. -/
def mirror (w i : Nat) : Nat := 8 * (w / 8 - 1 - i / 8) + i % 8

/-- One byte of the loop. -/
theorem byte_getLsbD (x : BitVec w) {b : Nat} (inside : b < w / 8) (i : Nat) :
    (((x >>> (b * 8)) &&& 0xFF) <<< ((w / 8 - 1 - b) * 8)).getLsbD i
      = (decide (i / 8 = w / 8 - 1 - b) && x.getLsbD (mirror w i)) := by
  have mask : ∀ k, (0xFF : BitVec w).getLsbD k = decide (k < 8) := by
    intro k
    have low : Nat.testBit 255 k = decide (k < 8) := Nat.testBit_two_pow_sub_one 8 k
    change (BitVec.ofNat w 255).getLsbD k = _
    rw [BitVec.getLsbD_ofNat, low]
    by_cases low : k < 8
    · simp [low]
      omega
    · simp [low]
  rw [BitVec.getLsbD_shiftLeft, BitVec.getLsbD_and, BitVec.getLsbD_ushiftRight, mask]
  by_cases byte : i / 8 = w / 8 - 1 - b
  · have place : b * 8 + (i - (w / 8 - 1 - b) * 8) = mirror w i := by
      rw [mirror]
      omega
    have reach : i < w ∧ ¬ i < (w / 8 - 1 - b) * 8 ∧ i - (w / 8 - 1 - b) * 8 < 8 := by omega
    rw [place]
    simp [byte, reach]
  · have miss : ¬ (¬ i < (w / 8 - 1 - b) * 8 ∧ i - (w / 8 - 1 - b) * 8 < 8) := by omega
    by_cases low : i < (w / 8 - 1 - b) * 8
    · simp [byte, low]
    · have high : ¬ i - (w / 8 - 1 - b) * 8 < 8 := fun near => miss ⟨low, near⟩
      simp [byte, high]

/-- After `m` bytes the last `m` bytes of the result are filled in. -/
theorem bswap_prefix (x : BitVec w) {m : Nat} (inside : m ≤ w / 8) (i : Nat) :
    ((List.range m).foldl (fun y i => y ||| ((x >>> (i * 8)) &&& 0xFF) <<< ((w / 8 - 1 - i) * 8)) 0).getLsbD i
      = (decide (i / 8 < w / 8 ∧ w / 8 ≤ i / 8 + m) && x.getLsbD (mirror w i)) := by
  induction m with
  | zero =>
    have outside : ¬ (i / 8 < w / 8 ∧ w / 8 ≤ i / 8 + 0) := fun both => Nat.not_lt.mpr both.2 both.1
    rw [decide_eq_false outside, Bool.false_and]
    exact BitVec.getLsbD_zero
  | succ m ih =>
    rw [List.range_succ, List.foldl_append, List.foldl_cons, List.foldl_nil, BitVec.getLsbD_or, ih (by omega),
      byte_getLsbD x inside, ← Bool.and_or_distrib_right, ← Bool.decide_or]
    congr 2
    rw [eq_iff_iff]
    omega

theorem bswap_getLsbD (whole : 8 ∣ w) (x : BitVec w) (i : Nat) :
    (bswap x).getLsbD i = (decide (i < w) && x.getLsbD (mirror w i)) := by
  rw [bswap, bswap_prefix x le_rfl]
  congr 2
  rw [eq_iff_iff]
  omega

theorem mirror_mirror (whole : 8 ∣ w) (inside : i < w) : mirror w (mirror w i) = i := by
  rw [mirror, mirror]
  omega

theorem mirror_lt (whole : 8 ∣ w) (inside : i < w) : mirror w i < w := by
  rw [mirror]
  omega

theorem ones_bswap (whole : 8 ∣ w) (x : BitVec w) : ones (bswap x) = (ones x).image (mirror w) := by
  ext i
  rw [mem_ones, bswap_getLsbD whole, Finset.mem_image]
  constructor
  · intro set
    obtain ⟨inside, source⟩ := Bool.and_eq_true_iff.mp set
    have inside := of_decide_eq_true inside
    exact ⟨mirror w i, mem_ones.mpr source, mirror_mirror whole inside⟩
  · rintro ⟨k, mem, rfl⟩
    have set := mem_ones.mp mem
    have inside := BitVec.lt_of_getLsbD set
    rw [mirror_mirror whole inside, set, decide_eq_true (mirror_lt whole inside)]
    rfl

/-- The two shifts together move every one `n` places up, around the end. -/
theorem ones_rotated (inside : n < w) (x : BitVec w) :
    ones (x <<< n ||| x >>> (w - n)) = (ones x).image fun i => (i + n) % w := by
  ext i
  rw [mem_ones, BitVec.getLsbD_or, BitVec.getLsbD_shiftLeft, BitVec.getLsbD_ushiftRight, Finset.mem_image]
  constructor
  · intro set
    rcases Bool.or_eq_true_iff.mp set with up | around
    · obtain ⟨range, set⟩ := Bool.and_eq_true_iff.mp up
      have range : i < w ∧ ¬ i < n := by simpa using range
      refine ⟨i - n, mem_ones.mpr set, ?_⟩
      rw [Nat.sub_add_cancel (Nat.not_lt.mp range.2)]
      exact Nat.mod_eq_of_lt range.1
    · have range := BitVec.lt_of_getLsbD around
      refine ⟨w - n + i, mem_ones.mpr around, ?_⟩
      rw [show w - n + i + n = i + w by omega, Nat.add_mod_right]
      exact Nat.mod_eq_of_lt (by omega)
  · rintro ⟨k, mem, rfl⟩
    have set := mem_ones.mp mem
    have range := BitVec.lt_of_getLsbD set
    by_cases up : k + n < w
    · rw [Nat.mod_eq_of_lt up, Nat.add_sub_cancel]
      simp [set, up]
    · have around : (k + n) % w = k + n - w := by
        rw [Nat.mod_eq_sub_mod (Nat.not_lt.mp up)]
        exact Nat.mod_eq_of_lt (by omega)
      rw [around, show w - n + (k + n - w) = k by omega, set, Bool.or_true]

variable {m : BitVec 32}

theorem rol_eq_some (pos : 0 < m.toNat) (inside : m.toNat < w) (width : w < 2 ^ 32) (x : BitVec w) :
    rol x m = some (x <<< m.toNat ||| x >>> (w - m.toNat)) := by
  have rest : (BitVec.ofNat 32 w - m).toNat = w - m.toNat := by
    rw [BitVec.toNat_sub_of_le (by rw [BitVec.le_def, BitVec.toNat_ofNat, Nat.mod_eq_of_lt width]; exact inside.le),
      BitVec.toNat_ofNat, Nat.mod_eq_of_lt width]
  rw [rol, rest, if_pos ⟨inside, by omega⟩]

/-- A rotation down is one up by the rest of the width. -/
theorem ror_eq_some (pos : 0 < m.toNat) (inside : m.toNat < w) (width : w < 2 ^ 32) (x : BitVec w) :
    ror x m = some (x <<< (w - m.toNat) ||| x >>> (w - (w - m.toNat))) := by
  have rest : (BitVec.ofNat 32 w - m).toNat = w - m.toNat := by
    rw [BitVec.toNat_sub_of_le (by rw [BitVec.le_def, BitVec.toNat_ofNat, Nat.mod_eq_of_lt width]; exact inside.le),
      BitVec.toNat_ofNat, Nat.mod_eq_of_lt width]
  rw [ror, rest, if_pos ⟨inside, by omega⟩, BitVec.or_comm, Nat.sub_sub_self inside.le]

/-- Rotations by the two parts of the width undo each other. -/
theorem rotated_back {a b : Nat} (first : 0 < a) (second : 0 < b) (parts : a + b = w) (x : BitVec w) :
    (x <<< a ||| x >>> (w - a)) <<< b ||| (x <<< a ||| x >>> (w - a)) >>> (w - b) = x := by
  apply ones_injective
  rw [ones_rotated (by omega), ones_rotated (by omega), Finset.image_image]
  refine (Finset.image_congr fun i mem => ?_).trans Finset.image_id
  have range : i < w := BitVec.lt_of_getLsbD (mem_ones.mp mem)
  rw [Function.comp_apply, Nat.mod_add_mod, Nat.add_assoc, parts, Nat.add_mod_right]
  exact Nat.mod_eq_of_lt range

theorem rotation_none (outside : m.toNat = 0 ∨ w ≤ m.toNat) (width : w < 2 ^ 32) (x : BitVec w) :
    rol x m = none ∧ ror x m = none := by
  have fails : ¬ (m.toNat < w ∧ (BitVec.ofNat 32 w - m).toNat < w) := by
    rcases outside with zero | far
    · have eq : m = 0 := BitVec.eq_of_toNat_eq zero
      have full : (BitVec.ofNat 32 w - 0).toNat = w := by
        rw [show BitVec.ofNat 32 w - 0 = BitVec.ofNat 32 w from BitVec.sub_zero _, BitVec.toNat_ofNat]
        exact Nat.mod_eq_of_lt width
      rw [eq, full]
      omega
    · omega
  exact ⟨by rw [rol, if_neg fails], by rw [ror, if_neg fails]⟩

end Moves

/-- The operations of one width. -/
structure WordOps (w : Nat) where
  clz : BitVec w → BitVec 32
  ctz : BitVec w → BitVec 32
  popcount : BitVec w → BitVec 32
  bswap : BitVec w → BitVec w
  rol : BitVec w → BitVec 32 → Option (BitVec w)
  ror : BitVec w → BitVec 32 → Option (BitVec w)
  lsb : BitVec w → BitVec 32
  msb : BitVec w → BitVec 32

def wordOps32 : WordOps 32 := ⟨clz32, ctz32, popcount32, bswap32, rol32, ror32, lsb32, msb32⟩

def wordOps64 : WordOps 64 := ⟨clz64, ctz64, popcount64, bswap64, rol64, ror64, lsb64, msb64⟩

/-- What the operations do to the set of the ones. -/
structure WordOps.Exact (ops : WordOps w) : Prop where
  empty : (ops.clz 0).toNat = w ∧ (ops.ctz 0).toNat = w
  least : ∀ x ≠ 0, IsLeast (ones x : Set Nat) (ops.lsb x).toNat ∧ (ops.ctz x).toNat = (ops.lsb x).toNat
  greatest : ∀ x ≠ 0, IsGreatest (ones x : Set Nat) (ops.msb x).toNat ∧ (ops.clz x).toNat + (ops.msb x).toNat + 1 = w
  count : ∀ x, (ops.popcount x).toNat = (ones x).card
  swapped : ∀ x, ones (ops.bswap x) = (ones x).image (mirror w) ∧ ops.bswap (ops.bswap x) = x
  turned : ∀ x m, 0 < m.toNat → m.toNat < w → ∃ y z, ops.rol x m = some y ∧ ops.ror x m = some z
    ∧ ones y = (ones x).image (fun i => (i + m.toNat) % w) ∧ ones z = (ones x).image (fun i => (i + (w - m.toNat)) % w)
    ∧ ops.ror y m = some x ∧ ops.rol z m = some x
  unturned : ∀ x m, m.toNat = 0 ∨ w ≤ m.toNat → ops.rol x m = none ∧ ops.ror x m = none

theorem loops_exact (pos : 0 < w) (width : w < 2 ^ 32) (whole : 8 ∣ w) :
    WordOps.Exact ⟨@clz w, ctz, popcount, bswap, rol, ror, lsb, msb⟩ where
  empty := by
    have full : (BitVec.ofNat 32 w).toNat = w := Nat.mod_eq_of_lt width
    exact ⟨(congrArg BitVec.toNat (if_pos rfl)).trans full, (congrArg BitVec.toNat (if_pos rfl)).trans full⟩
  least x nonzero := ⟨lsb_isLeast pos width nonzero, rfl⟩
  greatest x nonzero := ⟨(msb_isGreatest pos width nonzero).1, (msb_isGreatest pos width nonzero).2⟩
  count := popcount_card pos width
  swapped x := by
    refine ⟨ones_bswap whole x, ones_injective ?_⟩
    rw [ones_bswap whole, ones_bswap whole, Finset.image_image]
    exact (Finset.image_congr fun i mem => mirror_mirror whole (BitVec.lt_of_getLsbD (mem_ones.mp mem))).trans Finset.image_id
  turned x m low high := by
    have parts : m.toNat + (w - m.toNat) = w := by omega
    refine ⟨_, _, rol_eq_some low high width x, ror_eq_some low high width x, ones_rotated high x,
      ones_rotated (by omega) x, ?_, ?_⟩
    · exact (ror_eq_some low high width _).trans (congrArg some (rotated_back low (by omega) parts x))
    · exact (rol_eq_some low high width _).trans (congrArg some (rotated_back (by omega) low (by omega) x))
  unturned x m outside := rotation_none outside width x

theorem wordOps_exact : wordOps32.Exact ∧ wordOps64.Exact := by
  have same : wordOps64 = ⟨clz, ctz, popcount, bswap, rol, ror, lsb, msb⟩ := by
    rw [show @clz 64 = clz64 from funext fun x => (clz64_eq x).symm]
    rfl
  refine ⟨loops_exact (by decide) (by decide) (by decide), ?_⟩
  rw [same]
  exact loops_exact (by decide) (by decide) (by decide)

end AvaModule
