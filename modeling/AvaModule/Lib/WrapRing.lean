import Mathlib.Tactic.SplitIfs

/-! A ring whose regions never straddle its end. Positions in the byte stream are
natural numbers; the positions from `R` up to `W` are in use. The used cells are
one run from `rp` up to `off`, or, once a region has been placed at the start of
the ring, an upper run from `rp` up to `lim` and a lower one up to `off`. -/
namespace WrapRing

/-- The offset after a region of `size` cells. -/
def advance (cap off size : Nat) : Nat :=
  if off + size < cap then off + size else if off + size = cap then 0 else size

theorem advance_le {cap off size : Nat} (le : size ≤ cap) : advance cap off size ≤ cap := by
  unfold advance
  split_ifs <;> omega

structure Span where
  cap : Nat
  rp : Nat
  off : Nat
  lim : Nat
  R : Nat
  W : Nat

namespace Span
variable {v : Span} {size m n i j k pub start L : Nat}

structure Valid (v : Span) : Prop where
  rp_lt : v.rp < v.cap
  off_lt : v.off < v.cap
  straight : v.rp ≤ v.off → v.lim = v.cap ∧ v.W = v.R + (v.off - v.rp)
  wrapped : v.off < v.rp → v.rp ≤ v.lim ∧ v.lim ≤ v.cap ∧ v.W = v.R + (v.lim - v.rp) + v.off

/-- The cell of a position in use. -/
def cell (v : Span) (k : Nat) : Nat :=
  if k - v.R < v.lim - v.rp then v.rp + (k - v.R) else k - v.R - (v.lim - v.rp)

/-- The end of the run that starts at `rp`. -/
def top (v : Span) : Nat := if v.rp ≤ v.off then v.off else v.lim

/-- The first cell of the next region. -/
def place (v : Span) (size : Nat) : Nat := if v.off + size ≤ v.cap then v.off else 0

def nextOff (v : Span) (size : Nat) : Nat := advance v.cap v.off size

/-- The next region does not reach `rp`. -/
structure Fits (v : Span) (size : Nat) : Prop where
  below : v.off < v.rp → v.off + size < v.rp
  around : v.rp ≤ v.off → v.cap ≤ v.off + size → v.nextOff size < v.rp

def next (v : Span) (size : Nat) : Span :=
  { v with
    off := v.nextOff size
    lim := if v.off + size ≤ v.cap then v.lim else v.off
    W := v.W + size }

/-- `m` positions are given back. -/
def drop (v : Span) (m : Nat) : Span :=
  { v with
    rp := if v.rp + m = v.cap then 0 else v.rp + m
    R := v.R + m }

/-- The upper run is empty and given up. -/
def restart (v : Span) : Span := { v with rp := 0, lim := v.cap }

/-- A region stays inside, ends the ring, or is placed at its start. -/
theorem next_cases (v : Span) (size : Nat) :
    (v.off + size < v.cap ∧ v.place size = v.off ∧ v.nextOff size = v.off + size ∧
      v.next size = { v with off := v.off + size, W := v.W + size }) ∨
    (v.off + size = v.cap ∧ v.place size = v.off ∧ v.nextOff size = 0 ∧
      v.next size = { v with off := 0, W := v.W + size }) ∨
    (v.cap < v.off + size ∧ v.place size = 0 ∧ v.nextOff size = size ∧
      v.next size = { v with off := size, lim := v.off, W := v.W + size }) := by
  unfold next nextOff advance place
  rcases Nat.lt_trichotomy (v.off + size) v.cap with inside | ends | past
  · refine Or.inl ⟨inside, if_pos (Nat.le_of_lt inside), if_pos inside, ?_⟩
    rw [if_pos inside, if_pos (Nat.le_of_lt inside)]
  · refine Or.inr (Or.inl ⟨ends, if_pos (Nat.le_of_eq ends), ?_, ?_⟩)
    · rw [if_neg (by omega), if_pos ends]
    · rw [if_neg (by omega), if_pos ends, if_pos (Nat.le_of_eq ends)]
  · refine Or.inr (Or.inr ⟨past, if_neg (by omega), ?_, ?_⟩)
    · rw [if_neg (by omega), if_neg (by omega)]
    · rw [if_neg (by omega), if_neg (by omega), if_neg (by omega)]

/-- The positions given back end inside the ring or at its end. -/
theorem drop_cases (v : Span) (m : Nat) :
    (v.rp + m ≠ v.cap ∧ v.drop m = { v with rp := v.rp + m, R := v.R + m }) ∨
    (v.rp + m = v.cap ∧ v.drop m = { v with rp := 0, R := v.R + m }) := by
  unfold drop
  by_cases ends : v.rp + m = v.cap
  · rw [if_pos ends]
    exact Or.inr ⟨ends, rfl⟩
  · rw [if_neg ends]
    exact Or.inl ⟨ends, rfl⟩

theorem top_cases (v : Span) :
    (v.rp ≤ v.off ∧ v.top = v.off) ∨ (v.off < v.rp ∧ v.top = v.lim) := by
  unfold top
  by_cases straight : v.rp ≤ v.off
  · exact Or.inl ⟨straight, if_pos straight⟩
  · exact Or.inr ⟨Nat.lt_of_not_le straight, if_neg straight⟩

section Shape

theorem Valid.next (valid : v.Valid) (fits : v.Fits size) : (v.next size).Valid := by
  obtain ⟨rp_lt, off_lt, straight, wrapped⟩ := valid
  obtain ⟨below, around⟩ := fits
  rcases v.next_cases size with ⟨_, _, after, eq⟩ | ⟨_, _, after, eq⟩ | ⟨_, _, after, eq⟩ <;>
    rw [eq] <;> constructor <;> dsimp only <;> omega

theorem Valid.drop (valid : v.Valid) (front : v.rp + m ≤ v.top) : (v.drop m).Valid := by
  obtain ⟨rp_lt, off_lt, straight, wrapped⟩ := valid
  have run := v.top_cases
  rcases v.drop_cases m with ⟨_, eq⟩ | ⟨_, eq⟩ <;> rw [eq] <;> constructor <;> dsimp only <;> omega

theorem Valid.restart (valid : v.Valid) (wrap : v.off < v.rp) (empty : v.rp = v.lim) :
    v.restart.Valid := by
  obtain ⟨rp_lt, off_lt, straight, wrapped⟩ := valid
  unfold Span.restart
  constructor <;> dsimp only <;> omega

end Shape

/-- Over a wrapped span only a region inside the lower run fits. -/
theorem Valid.next_wrapped (valid : v.Valid) (fits : v.Fits size) (wrap : v.off < v.rp) :
    v.next size = { v with off := v.off + size, W := v.W + size } ∧ v.off + size < v.rp := by
  have lower := fits.below wrap
  have inside := valid.rp_lt
  rcases v.next_cases size with ⟨_, _, _, eq⟩ | ⟨_, _, _, _⟩ | ⟨_, _, _, _⟩
  · exact ⟨eq, lower⟩
  · omega
  · omega

/-- The run at `rp` does not shrink. -/
theorem Valid.top_next (valid : v.Valid) (fits : v.Fits size) : v.top ≤ (v.next size).top := by
  rcases Nat.lt_or_ge v.off v.rp with wrap | straight
  · obtain ⟨eq, lower⟩ := valid.next_wrapped fits wrap
    have before : v.top = v.lim := if_neg (Nat.not_le.mpr wrap)
    have after : (v.next size).top = v.lim := by
      rw [eq]
      exact if_neg (Nat.not_le.mpr lower)
    omega
  · have before : v.top = v.off := if_pos straight
    have lim := (valid.straight straight).1
    have off_lt := valid.off_lt
    have around := fits.around straight
    have after := (v.next size).top_cases
    rcases v.next_cases size with ⟨_, _, off, eq⟩ | ⟨_, _, off, eq⟩ | ⟨_, _, off, eq⟩ <;>
      rw [eq] at after ⊢ <;> dsimp only at after <;> omega

/-- The run at `rp` holds used positions only. -/
theorem Valid.front_le (valid : v.Valid) (front : v.rp + n ≤ v.top) : v.R + n ≤ v.W := by
  obtain ⟨rp_lt, off_lt, straight, wrapped⟩ := valid
  have run := v.top_cases
  omega

/-- What is left of the run ends where it ended. -/
theorem top_drop (short : v.rp + m ≠ v.cap) (front : v.rp + m ≤ v.top) : (v.drop m).top = v.top := by
  have before := v.top_cases
  have after := (v.drop m).top_cases
  rcases v.drop_cases m with ⟨_, eq⟩ | ⟨ends, _⟩
  · rw [eq] at after ⊢
    dsimp only at after
    omega
  · exact absurd ends short

section Cells

theorem cell_cases (v : Span) (k : Nat) :
    (k - v.R < v.lim - v.rp ∧ v.cell k = v.rp + (k - v.R)) ∨
    (v.lim - v.rp ≤ k - v.R ∧ v.cell k = k - v.R - (v.lim - v.rp)) := by
  unfold cell
  by_cases upper : k - v.R < v.lim - v.rp
  · exact Or.inl ⟨upper, if_pos upper⟩
  · exact Or.inr ⟨Nat.le_of_not_lt upper, if_neg upper⟩

theorem Valid.cell_lt (valid : v.Valid) (from_R : v.R ≤ k) (to_W : k < v.W) : v.cell k < v.cap := by
  obtain ⟨rp_lt, off_lt, straight, wrapped⟩ := valid
  rcases v.cell_cases k with ⟨_, eq⟩ | ⟨_, eq⟩ <;> omega

theorem Valid.cell_inj (valid : v.Valid) (from_R : v.R ≤ j) (to_W : j < v.W) (from_R' : v.R ≤ k)
    (to_W' : k < v.W) (same : v.cell j = v.cell k) : j = k := by
  obtain ⟨rp_lt, off_lt, straight, wrapped⟩ := valid
  rcases v.cell_cases j with ⟨_, eq⟩ | ⟨_, eq⟩ <;> rcases v.cell_cases k with ⟨_, eq'⟩ | ⟨_, eq'⟩ <;> omega

/-- The run at `rp` is contiguous. -/
theorem Valid.cell_front (valid : v.Valid) (run : v.rp + j < v.top) : v.cell (v.R + j) = v.rp + j := by
  obtain ⟨rp_lt, off_lt, straight, wrapped⟩ := valid
  have run' := v.top_cases
  rcases v.cell_cases (v.R + j) with ⟨_, eq⟩ | ⟨_, eq⟩ <;> omega

theorem Valid.cell_next (valid : v.Valid) (fits : v.Fits size) (from_R : v.R ≤ k) (to_W : k < v.W) :
    (v.next size).cell k = v.cell k := by
  obtain ⟨rp_lt, off_lt, straight, wrapped⟩ := valid
  obtain ⟨below, around⟩ := fits
  have after := (v.next size).cell_cases k
  have before := v.cell_cases k
  rcases v.next_cases size with ⟨_, _, _, eq⟩ | ⟨_, _, _, eq⟩ | ⟨_, _, _, eq⟩ <;>
    rw [eq] at after ⊢ <;> dsimp only at after <;> omega

theorem Valid.cell_drop (valid : v.Valid) (front : v.rp + m ≤ v.top) (from_R : v.R + m ≤ k)
    (to_W : k < v.W) : (v.drop m).cell k = v.cell k := by
  obtain ⟨rp_lt, off_lt, straight, wrapped⟩ := valid
  have run := v.top_cases
  have after := (v.drop m).cell_cases k
  have before := v.cell_cases k
  rcases v.drop_cases m with ⟨_, eq⟩ | ⟨_, eq⟩ <;> rw [eq] at after ⊢ <;> dsimp only at after <;> omega

theorem Valid.cell_restart (valid : v.Valid) (wrap : v.off < v.rp) (empty : v.rp = v.lim)
    (from_R : v.R ≤ k) (to_W : k < v.W) : v.restart.cell k = v.cell k := by
  obtain ⟨rp_lt, off_lt, straight, wrapped⟩ := valid
  have after := v.restart.cell_cases k
  have before := v.cell_cases k
  unfold Span.restart at after ⊢
  dsimp only at after
  omega

end Cells

/-- The positions from `L` on of a region at `start` which was placed when the
offset was `pub`: in the run at `rp`, in the lower run, or as the first region of
the lower run. -/
structure Region (v : Span) (pub start size L : Nat) : Prop where
  inside : pub < v.cap
  placed :
    (start = pub ∧ v.rp ≤ pub ∧ pub + size ≤ v.top ∧ L = v.R + (pub - v.rp)) ∨
    (start = pub ∧ v.off < v.rp ∧ pub + size ≤ v.off ∧ L = v.R + (v.lim - v.rp) + pub) ∨
    (start = 0 ∧ v.off < v.rp ∧ pub = v.lim ∧ size ≤ v.off ∧ L = v.R + (v.lim - v.rp))

namespace Region

theorem range (region : v.Region pub start size L) (valid : v.Valid) : v.R ≤ L ∧ L + size ≤ v.W := by
  obtain ⟨rp_lt, off_lt, straight, wrapped⟩ := valid
  have run := v.top_cases
  rcases region.placed with placed | placed | placed <;> omega

theorem bound (region : v.Region pub start size L) (valid : v.Valid) : start + size ≤ v.cap := by
  obtain ⟨rp_lt, off_lt, straight, wrapped⟩ := valid
  have run := v.top_cases
  rcases region.placed with placed | placed | placed <;> omega

theorem cells (region : v.Region pub start size L) (valid : v.Valid) (inside : j < size) :
    v.cell (L + j) = start + j := by
  obtain ⟨rp_lt, off_lt, straight, wrapped⟩ := valid
  have run := v.top_cases
  have at_cell := v.cell_cases (L + j)
  rcases region.placed with placed | placed | placed <;> omega

/-- The region of a successful request. -/
theorem new (valid : v.Valid) (fits : v.Fits size) :
    (v.next size).Region v.off (v.place size) size v.W := by
  refine ⟨valid.off_lt, ?_⟩
  rcases Nat.lt_or_ge v.off v.rp with wrap | straight
  · obtain ⟨_, _, W⟩ := valid.wrapped wrap
    obtain ⟨eq, lower⟩ := valid.next_wrapped fits wrap
    have inside := valid.rp_lt
    rw [eq]
    exact Or.inr (Or.inl ⟨if_pos (by omega), lower, Nat.le_refl _, W⟩)
  · obtain ⟨lim, W⟩ := valid.straight straight
    have around := fits.around straight
    rcases v.next_cases size with ⟨inside, place, _, eq⟩ | ⟨ends, place, off, eq⟩ | ⟨past, place, off, eq⟩
    · rw [eq]
      exact Or.inl ⟨place, straight, Nat.le_of_eq (if_pos (Nat.le_add_right_of_le straight)).symm, W⟩
    · have lower : 0 < v.rp := by omega
      rw [eq]
      refine Or.inl ⟨place, straight, ?_, W⟩
      have run : top { v with off := 0, W := v.W + size } = v.lim := if_neg (Nat.not_le.mpr lower)
      omega
    · have lower : size < v.rp := by omega
      rw [eq]
      exact Or.inr (Or.inr ⟨place, lower, rfl, Nat.le_refl _, W⟩)

/-- Another request leaves the region alone. -/
theorem next (region : v.Region pub start size L) (valid : v.Valid) (fits : v.Fits m) :
    (v.next m).Region pub start size L := by
  obtain ⟨inside, placed⟩ := region
  rcases Nat.lt_or_ge v.off v.rp with wrap | straight
  · obtain ⟨eq, lower⟩ := valid.next_wrapped fits wrap
    have run : v.top = v.lim := if_neg (Nat.not_le.mpr wrap)
    have run' : (v.next m).top = v.lim := by
      rw [eq]
      exact if_neg (Nat.not_le.mpr lower)
    rw [eq] at run' ⊢
    refine ⟨inside, ?_⟩
    rcases placed with ⟨same, above, upto, place⟩ | ⟨same, _, upto, place⟩ | ⟨zero, _, upto, fit, place⟩
    · exact Or.inl ⟨same, above, by omega, place⟩
    · exact Or.inr (Or.inl ⟨same, lower, by dsimp only; omega, place⟩)
    · exact Or.inr (Or.inr ⟨zero, lower, upto, by dsimp only; omega, place⟩)
  · obtain ⟨lim, W⟩ := valid.straight straight
    have run : v.top = v.off := if_pos straight
    obtain ⟨same, above, upto, place⟩ : start = pub ∧ v.rp ≤ pub ∧ pub + size ≤ v.top ∧ L = v.R + (pub - v.rp) := by
      omega
    have around := fits.around straight
    have run' := (v.next m).top_cases
    refine ⟨inside, Or.inl ⟨same, above, ?_, place⟩⟩
    rcases v.next_cases m with ⟨_, _, off, eq⟩ | ⟨_, _, off, eq⟩ | ⟨_, _, off, eq⟩ <;>
      rw [eq] at run' ⊢ <;> dsimp only at run' <;> omega

/-- Positions before the region are given back. -/
theorem drop (region : v.Region pub start size L) (valid : v.Valid) (front : v.rp + m ≤ v.top)
    (before : v.R + m ≤ L) : (v.drop m).Region pub start size L := by
  obtain ⟨inside, placed⟩ := region
  rcases v.drop_cases m with ⟨short, eq⟩ | ⟨ends, eq⟩
  · have run := top_drop short front
    rw [eq] at run ⊢
    refine ⟨inside, ?_⟩
    rcases placed with ⟨same, above, upto, place⟩ | ⟨same, wrap, upto, place⟩ | ⟨zero, wrap, upto, fit, place⟩
    · exact Or.inl ⟨same, by dsimp only; omega, run ▸ upto, by dsimp only; omega⟩
    · have run' : v.top = v.lim := if_neg (Nat.not_le.mpr wrap)
      exact Or.inr (Or.inl ⟨same, by dsimp only; omega, upto, by dsimp only; omega⟩)
    · have run' : v.top = v.lim := if_neg (Nat.not_le.mpr wrap)
      exact Or.inr (Or.inr ⟨zero, by dsimp only; omega, upto, fit, by dsimp only; omega⟩)
  · have run := v.top_cases
    have off_lt := valid.off_lt
    have wrap : v.off < v.rp := by omega
    obtain ⟨_, lim, _⟩ := valid.wrapped wrap
    have lower : start = pub ∧ pub + size ≤ v.off ∧ L = v.R + (v.lim - v.rp) + pub := by
      rcases placed with ⟨_, above, _, place⟩ | ⟨same, _, upto, place⟩ | ⟨_, _, end_, _, _⟩
      · omega
      · exact ⟨same, upto, place⟩
      · omega
    rw [eq]
    refine ⟨inside, Or.inl ⟨lower.1, Nat.zero_le _, ?_, ?_⟩⟩
    · exact lower.2.1
    · dsimp only
      omega

/-- The upper run may be given up once no published offset is in it. -/
theorem restart (region : v.Region pub start size L) (empty : v.rp = v.lim)
    (lower : pub < v.rp) : v.restart.Region pub start size L := by
  obtain ⟨inside, placed⟩ := region
  refine ⟨inside, ?_⟩
  rcases placed with ⟨_, above, _⟩ | ⟨same, _, upto, place⟩ | ⟨_, _, end_, _⟩
  · omega
  · refine Or.inl ⟨same, Nat.zero_le _, upto, ?_⟩
    simp only [Span.restart]
    omega
  · omega

/-- A front that stops at every published offset stops before every region. -/
theorem beyond (region : v.Region pub start size L) (valid : v.Valid) (front : v.rp + n ≤ v.top)
    (stops : v.rp ≤ pub → v.rp + n ≤ pub) : v.R + n ≤ L := by
  obtain ⟨rp_lt, off_lt, straight, wrapped⟩ := valid
  have run := v.top_cases
  rcases region.placed with placed | placed | placed <;> omega

end Region

/-- The positions from `L` on are a region, wherever it was placed. -/
def Held (v : Span) (size L : Nat) : Prop := ∃ pub start, v.Region pub start size L

namespace Held

theorem range (held : v.Held size L) (valid : v.Valid) : v.R ≤ L ∧ L + size ≤ v.W := by
  obtain ⟨_, _, region⟩ := held
  exact region.range valid

theorem bound (held : v.Held size L) (valid : v.Valid) : size ≤ v.cap := by
  obtain ⟨_, _, region⟩ := held
  have bound := region.bound valid
  omega

theorem new (valid : v.Valid) (fits : v.Fits size) : (v.next size).Held size v.W :=
  ⟨_, _, .new valid fits⟩

theorem next (held : v.Held size L) (valid : v.Valid) (fits : v.Fits m) : (v.next m).Held size L := by
  obtain ⟨_, _, region⟩ := held
  exact ⟨_, _, region.next valid fits⟩

theorem drop (held : v.Held size L) (valid : v.Valid) (front : v.rp + m ≤ v.top)
    (before : v.R + m ≤ L) : (v.drop m).Held size L := by
  obtain ⟨_, _, region⟩ := held
  exact ⟨_, _, region.drop valid front before⟩

/-- The lower run becomes the front, and with it a region placed at its start. -/
theorem restart (held : v.Held size L) (valid : v.Valid) (wrap : v.off < v.rp) (empty : v.rp = v.lim) :
    v.restart.Held size L := by
  obtain ⟨pub, start, inside, placed⟩ := held
  have run : v.top = v.lim := if_neg (Nat.not_le.mpr wrap)
  have cells : 0 < v.cap := Nat.zero_lt_of_lt valid.rp_lt
  rcases placed with ⟨_, above, upto, place⟩ | ⟨_, _, upto, place⟩ | ⟨_, _, _, fit, place⟩
  · refine ⟨0, 0, cells, .inl ⟨rfl, Nat.le_refl _, ?_, ?_⟩⟩
    · have short : size = 0 := by omega
      rw [short]
      exact Nat.zero_le _
    · simp only [Span.restart]
      omega
  · refine ⟨pub, pub, inside, .inl ⟨rfl, Nat.zero_le _, upto, ?_⟩⟩
    simp only [Span.restart]
    omega
  · refine ⟨0, 0, cells, .inl ⟨rfl, Nat.le_refl _, ?_, ?_⟩⟩
    · simpa [top, Span.restart] using fit
    · simp only [Span.restart]
      omega

/-- A region at the front lies in the run at `rp`, unless that run is empty. -/
theorem front (held : v.Held size v.R) (valid : v.Valid) (run : v.rp < v.top ∨ v.W = v.R) :
    v.rp + size ≤ v.top := by
  have range := held.range valid
  obtain ⟨_, _, _, placed⟩ := held
  obtain ⟨_, _, straight, wrapped⟩ := valid
  have run' := v.top_cases
  rcases placed with placed | placed | placed <;> omega

/-- What is left of a region at the front when a part of it is given back. -/
theorem rest (valid : v.Valid) (front : v.rp + size ≤ v.top) (part : m ≤ size) :
    (v.drop m).Held (size - m) (v.R + m) := by
  have run := v.top_cases
  have off_lt := valid.off_lt
  have rp_lt := valid.rp_lt
  have wrapped := valid.wrapped
  rcases v.drop_cases m with ⟨short, eq⟩ | ⟨ends, eq⟩
  · have left := top_drop (v := v) short (by omega)
    rw [eq] at left ⊢
    refine ⟨v.rp + m, v.rp + m, ?_, .inl ⟨rfl, Nat.le_refl _, by omega, ?_⟩⟩ <;> dsimp only <;> omega
  · rw [eq]
    refine ⟨0, 0, ?_, .inl ⟨rfl, Nat.le_refl _, ?_, ?_⟩⟩
    · dsimp only
      omega
    · have short : size - m = 0 := by omega
      rw [short]
      exact Nat.zero_le _
    · dsimp only
      omega

end Held

section Requests

/-- An empty request changes nothing. -/
theorem next_zero (valid : v.Valid) : v.next 0 = v := by
  obtain ⟨rp_lt, off_lt, straight, wrapped⟩ := valid
  rcases v.next_cases 0 with ⟨_, _, _, eq⟩ | ⟨ends, _, _, _⟩ | ⟨past, _, _, _⟩
  · exact eq
  · omega
  · omega

theorem Fits.drop (fits : v.Fits size) (valid : v.Valid) (front : v.rp + m ≤ v.top) :
    (v.drop m).Fits size := by
  obtain ⟨below, around⟩ := fits
  have off_lt := valid.off_lt
  have run := v.top_cases
  have same : (v.drop m).nextOff size = v.nextOff size := rfl
  rcases v.drop_cases m with ⟨_, eq⟩ | ⟨_, eq⟩ <;> rw [eq] at same ⊢ <;> constructor <;> dsimp only <;> omega

theorem Fits.restart (fits : v.Fits size) (valid : v.Valid) (wrap : v.off < v.rp) : v.restart.Fits size := by
  have below := fits.below wrap
  have rp_lt := valid.rp_lt
  constructor
  · intro none
    cases none
  · intro _ ends
    simp only [Span.restart] at ends
    omega

end Requests

end Span

end WrapRing
