import Mathlib.Data.List.Basic

/-! Blocks laid end to end over a range. -/
namespace Tiling
variable {β : Type*} {start size : β → Nat} {lo hi mid : Nat} {b c : β} {bs cs : List β}

/-- The blocks cover the range from `lo` to `hi`, in order and without gaps. -/
def Tiles (start size : β → Nat) : Nat → List β → Nat → Prop
  | lo, [], hi => lo = hi
  | lo, b :: bs, hi => start b = lo ∧ Tiles start size (lo + size b) bs hi

theorem tiles_append : Tiles start size lo (bs ++ cs) hi ↔
    ∃ mid, Tiles start size lo bs mid ∧ Tiles start size mid cs hi := by
  induction bs generalizing lo with
  | nil => simp [Tiles]
  | cons b bs ih => simp [Tiles, ih, and_assoc]

theorem tiles_middle : Tiles start size lo (bs ++ b :: cs) hi ↔
    Tiles start size lo bs (start b) ∧ Tiles start size (start b + size b) cs hi := by
  rw [tiles_append]
  constructor
  · rintro ⟨mid, before, rfl, after⟩
    exact ⟨before, after⟩
  · rintro ⟨before, after⟩
    exact ⟨start b, before, rfl, after⟩

theorem Tiles.le (tiles : Tiles start size lo bs hi) : lo ≤ hi := by
  induction bs generalizing lo with
  | nil => exact Nat.le_of_eq tiles
  | cons b bs ih => exact Nat.le_trans (Nat.le_add_right _ _) (ih tiles.2)

/-- Blocks cover one range from where they start. -/
theorem Tiles.end_eq (tiles : Tiles start size lo bs hi) (tiles' : Tiles start size lo bs mid) : hi = mid := by
  induction bs generalizing lo with
  | nil => exact tiles.symm.trans tiles'
  | cons b bs ih => exact ih tiles.2 tiles'.2

/-- Every block lies inside the range. -/
theorem Tiles.inside (tiles : Tiles start size lo bs hi) (member : b ∈ bs) :
    lo ≤ start b ∧ start b + size b ≤ hi := by
  obtain ⟨before, after, rfl⟩ := List.append_of_mem member
  obtain ⟨front, back⟩ := tiles_middle.mp tiles
  exact ⟨front.le, back.le⟩

/-- An earlier block ends before a later one starts. -/
theorem Tiles.pairwise (tiles : Tiles start size lo bs hi) :
    bs.Pairwise fun b c => start b + size b ≤ start c := by
  induction bs generalizing lo with
  | nil => exact .nil
  | cons b bs ih =>
    obtain ⟨rfl, tiles⟩ := tiles
    exact .cons (fun c member => (tiles.inside member).1) (ih tiles)

/-- Two blocks are the same, or apart. -/
theorem Tiles.apart (tiles : Tiles start size lo bs hi) (b_mem : b ∈ bs) (c_mem : c ∈ bs) :
    b = c ∨ start b + size b ≤ start c ∨ start c + size c ≤ start b := by
  obtain ⟨before, after, rfl⟩ := List.append_of_mem b_mem
  obtain ⟨front, back⟩ := tiles_middle.mp tiles
  rcases List.mem_append.mp c_mem with earlier | same_or_later
  · exact .inr (.inr (front.inside earlier).2)
  · rcases List.mem_cons.mp same_or_later with rfl | later
    · exact .inl rfl
    · exact .inr (.inl (back.inside later).1)

/-- Blocks of whole units start on whole units. -/
theorem Tiles.dvd {d : Nat} (tiles : Tiles start size lo bs hi) (first : d ∣ lo) (sizes : ∀ b ∈ bs, d ∣ size b)
    (member : b ∈ bs) : d ∣ start b := by
  induction bs generalizing lo with
  | nil => cases member
  | cons c bs ih =>
    obtain ⟨rfl, tiles⟩ := tiles
    rcases List.mem_cons.mp member with rfl | later
    · exact first
    · exact ih tiles (Nat.dvd_add first (sizes c List.mem_cons_self))
        (fun b member => sizes b (List.mem_cons_of_mem c member)) later

end Tiling
