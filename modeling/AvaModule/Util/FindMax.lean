import Mathlib.Order.Lattice
import Mathlib.Order.RelClasses

/-! `find_max` of util/mathdef.h: the two paths with vector registers and the scalar one. -/
namespace FindMax

/-- A value or NaN, which is below nothing and above nothing. -/
inductive Extended (α : Type) where
  | nan
  | num (a : α)
  deriving DecidableEq

section Order
variable {α : Type} [LinearOrder α]

instance : LT (Extended α) where
  lt
    | .num a, .num b => a < b
    | _, _ => False

instance : DecidableLT (Extended α)
  | .num a, .num b => inferInstanceAs (Decidable (a < b))
  | .num _, .nan => isFalse id
  | .nan, _ => isFalse id

@[simp] theorem num_lt_num {a b : α} : Extended.num a < .num b ↔ a < b := Iff.rfl

@[simp] theorem not_lt_nan (x : Extended α) : ¬ x < .nan := by cases x <;> exact id

@[simp] theorem not_nan_lt (x : Extended α) : ¬ .nan < x := by cases x <;> exact id

instance : IsStrictOrder (Extended α) (· < ·) where
  irrefl x := by cases x <;> simp
  trans x y z := by cases x <;> cases y <;> cases z <;> simp; exact lt_trans

end Order

variable {β : Type} [LT β] [DecidableLT β] {arr : Nat → β}

/-- `tmp_max` and `idx_max` -/
structure Best (β : Type) where
  tmpMax : β
  idxMax : Nat
  deriving DecidableEq

/-- The test in the body of every loop. -/
def Best.see (best : Best β) (x : β) (i : Nat) : Best β := if x > best.tmpMax then ⟨x, i⟩ else best

/-- The scalar loop over `i`, `i + 1` and so on, for `count` turns. -/
def scan (arr : Nat → β) (best : Best β) (i count : Nat) : Best β :=
  (List.range' i count).foldl (fun best i => best.see (arr i) i) best

/-- `_mm256_max_ps` and `_mm_max_ps` in one lane. -/
def laneMax (a b : β) : β := if a > b then a else b

/-- The loop over the lanes of a register that was stored to `tmp`. -/
def lanes (tmp : Nat → β) (best : Best β) (i count : Nat) : Best β :=
  (List.range count).foldl (fun best j => best.see (tmp j) (i + j)) best

/-- The loop over registers whose lanes go up to `last`, and the scalar loop over what is left. -/
def vectorLoop (last : Nat) (arr : Nat → β) (n i : Nat) (maxVec : Nat → β) (best : Best β) : Best β :=
  if i + last < n then
    let maxVec := fun j => laneMax (maxVec j) (arr (i + j))
    vectorLoop last arr n (i + (last + 1)) maxVec (lanes maxVec best i (last + 1))
  else scan arr best i (n - i)
termination_by n - i

/-- The path with 256-bit registers. -/
def findMaxAvx [Zero β] (arr : Nat → β) (n : Nat) : Best β :=
  if n = 0 then ⟨0, 0⟩ else vectorLoop 7 arr n 0 (fun _ => arr 0) ⟨arr 0, 0⟩

/-- The path with 128-bit registers. -/
def findMaxSse [Zero β] (arr : Nat → β) (n : Nat) : Best β :=
  if n = 0 then ⟨0, 0⟩ else vectorLoop 3 arr n 0 (fun _ => arr 0) ⟨arr 0, 0⟩

/-- `find_max` with neither. -/
def findMax [Zero β] (arr : Nat → β) (n : Nat) : Best β :=
  if n = 0 then ⟨0, 0⟩ else scan arr ⟨arr 0, 0⟩ 1 (n - 1)

variable {best : Best β} {x y : β} {i : Nat}

theorem scan_succ (count : Nat) :
    scan arr best i (count + 1) = (scan arr best i count).see (arr (i + count)) (i + count) := by
  rw [scan, List.range'_1_concat, List.foldl_append]
  rfl

theorem scan_add (count more : Nat) :
    scan arr best i (count + more) = scan arr (scan arr best i count) (i + count) more := by
  rw [scan, ← List.range'_append_1, List.foldl_append]
  rfl

theorem not_gt_laneMax (low : ¬ y > best.tmpMax) (low' : ¬ x > best.tmpMax) : ¬ laneMax y x > best.tmpMax := by
  unfold laneMax
  split <;> assumption

section Lanes
variable [IsStrictOrder β (· < ·)] {maxVec : Nat → β}

/-- What is not above the best stays not above it. -/
theorem Best.see_keeps (low : ¬ y > best.tmpMax) : ¬ y > (best.see x i).tmpMax := by
  unfold Best.see
  split
  case isTrue above => exact fun higher => low (trans_of (· < ·) above higher)
  case isFalse => exact low

/-- What was seen is not above the best. -/
theorem Best.not_gt_see : ¬ x > (best.see x i).tmpMax := by
  unfold Best.see
  split
  case isTrue => exact irrefl_of (· < ·) x
  case isFalse low => exact low

/-- A lane that was not above the best counts as the value just loaded. -/
theorem see_laneMax (low : ¬ y > best.tmpMax) : best.see (laneMax y x) i = best.see x i := by
  unfold laneMax
  split
  case isTrue above =>
    have dull : ¬ x > best.tmpMax := fun higher => low (trans_of (· < ·) higher above)
    rw [Best.see, Best.see, if_neg low, if_neg dull]
  case isFalse => rfl

theorem scan_keeps (count : Nat) (low : ¬ y > best.tmpMax) : ¬ y > (scan arr best i count).tmpMax := by
  induction count with
  | zero => exact low
  | succ count ih =>
    rw [scan_succ]
    exact Best.see_keeps ih

theorem not_gt_scan {count j : Nat} (lt : j < count) : ¬ arr (i + j) > (scan arr best i count).tmpMax := by
  induction count with
  | zero => omega
  | succ count ih =>
    rw [scan_succ]
    rcases Nat.lt_succ_iff_lt_or_eq.mp lt with before | rfl
    · exact Best.see_keeps (ih before)
    · exact Best.not_gt_see

/-- A register none of whose lanes was above the best is seen as the block that was loaded. -/
theorem lanes_eq_scan (count : Nat) (low : ∀ j < count, ¬ maxVec j > best.tmpMax) :
    lanes (fun j => laneMax (maxVec j) (arr (i + j))) best i count = scan arr best i count := by
  induction count with
  | zero => rfl
  | succ count ih =>
    have seen : ¬ maxVec count > (scan arr best i count).tmpMax := scan_keeps count (low count (Nat.lt_succ_self _))
    rw [scan_succ, ← see_laneMax seen, ← ih fun j lt => low j (by omega), lanes, List.range_succ, List.foldl_append]
    rfl

/-- No lane is above the best at the head of the loop, so the registers do the work of the scalar loop. -/
theorem vectorLoop_eq_scan {last n : Nat} (low : ∀ j < last + 1, ¬ maxVec j > best.tmpMax) :
    vectorLoop last arr n i maxVec best = scan arr best i (n - i) := by
  induction i, maxVec, best using vectorLoop.induct last arr n with
  | case1 i maxVec best room block ih =>
    have loaded : lanes block best i (last + 1) = scan arr best i (last + 1) := lanes_eq_scan _ low
    have kept : ∀ j < last + 1, ¬ block j > (lanes block best i (last + 1)).tmpMax := by
      intro j lt
      rw [loaded]
      exact not_gt_laneMax (scan_keeps _ (low j lt)) (not_gt_scan lt)
    have left : n - i = (last + 1) + (n - (i + (last + 1))) := by omega
    rw [vectorLoop, if_pos room, ih kept, loaded, left, scan_add (last + 1)]
  | case2 i maxVec best full => rw [vectorLoop, if_neg full]

/-- The first element is seen once more and changes nothing. -/
theorem scan_first {n : Nat} (pos : n ≠ 0) : scan arr ⟨arr 0, 0⟩ 0 n = scan arr ⟨arr 0, 0⟩ 1 (n - 1) := by
  have split : n = 1 + (n - 1) := by omega
  have first : scan arr ⟨arr 0, 0⟩ 0 1 = ⟨arr 0, 0⟩ := if_neg (irrefl_of (· < ·) (arr 0))
  rw [split, scan_add, first, ← split]

/-- A path with vector registers returns what the scalar one does. -/
theorem vectorPath_eq [Zero β] (last : Nat) (arr : Nat → β) (n : Nat) :
    (if n = 0 then ⟨0, 0⟩ else vectorLoop last arr n 0 (fun _ => arr 0) ⟨arr 0, 0⟩) = findMax arr n := by
  by_cases empty : n = 0
  · rw [findMax, if_pos empty, if_pos empty]
  · rw [if_neg empty, vectorLoop_eq_scan fun _ _ => irrefl_of (· < ·) (arr 0), Nat.sub_zero, scan_first empty, findMax,
      if_neg empty]

theorem findMaxAvx_eq [Zero β] (arr : Nat → β) (n : Nat) : findMaxAvx arr n = findMax arr n := vectorPath_eq 7 arr n

theorem findMaxSse_eq [Zero β] (arr : Nat → β) (n : Nat) : findMaxSse arr n = findMax arr n := vectorPath_eq 3 arr n

end Lanes

section First
variable {α : Type} [LinearOrder α] {arr : Nat → Extended α} {n : Nat}

instance [Zero α] : Zero (Extended α) := ⟨.num 0⟩

/-- `idx` is the first of the indices below `n` at which the largest value, `val`, stands. -/
structure FirstMax (arr : Nat → Extended α) (n : Nat) (val : Extended α) (idx : Nat) : Prop where
  inside : idx < n
  value : arr idx = val
  largest : ∀ i < n, ¬ val < arr i
  first : ∀ i < idx, arr i < val

theorem lt_of_not_lt {x y z : Extended α} (clean : y ≠ .nan) (low : ¬ x < y) (above : x < z) : y < z := by
  cases x <;> cases y <;> cases z <;> simp_all
  exact lt_of_le_of_lt low above

theorem scan_firstMax {count : Nat} (clean : ∀ i < count + 1, arr i ≠ .nan) :
    FirstMax arr (count + 1) (scan arr ⟨arr 0, 0⟩ 1 count).tmpMax (scan arr ⟨arr 0, 0⟩ 1 count).idxMax := by
  induction count with
  | zero =>
    refine ⟨Nat.zero_lt_one, rfl, fun i lt => ?_, fun i lt => absurd lt (Nat.not_lt_zero i)⟩
    obtain rfl : i = 0 := by omega
    exact irrefl_of (· < ·) (arr 0)
  | succ count ih =>
    obtain ⟨inside, value, largest, first⟩ := ih fun i lt => clean i (by omega)
    rw [scan_succ, Best.see, Nat.add_comm 1 count]
    split
    case isTrue above =>
      refine ⟨Nat.lt_succ_self _, rfl, fun i lt => ?_, fun i lt => ?_⟩
      · rcases Nat.lt_succ_iff_lt_or_eq.mp lt with before | rfl
        · exact fun higher => largest i before (trans_of (· < ·) above higher)
        · exact irrefl_of (· < ·) _
      · have before : i < count + 1 := lt
        exact lt_of_not_lt (clean i (by omega)) (largest i before) above
    case isFalse low =>
      refine ⟨by omega, value, fun i lt => ?_, first⟩
      rcases Nat.lt_succ_iff_lt_or_eq.mp lt with before | rfl
      · exact largest i before
      · exact low

theorem findMax_firstMax [Zero α] (pos : 0 < n) (clean : ∀ i < n, arr i ≠ .nan) :
    FirstMax arr n (findMax arr n).tmpMax (findMax arr n).idxMax := by
  obtain ⟨count, rfl⟩ := Nat.exists_eq_add_of_lt pos
  rw [Nat.zero_add] at clean ⊢
  exact scan_firstMax clean

/-- The paths return the same value and index, and without NaN these are the largest value and its first index. -/
theorem findMax_paths [Zero α] (arr : Nat → Extended α) (n : Nat) :
    findMaxAvx arr n = findMax arr n ∧ findMaxSse arr n = findMax arr n ∧
    (0 < n → (∀ i < n, arr i ≠ .nan) → FirstMax arr n (findMax arr n).tmpMax (findMax arr n).idxMax) :=
  ⟨findMaxAvx_eq arr n, findMaxSse_eq arr n, findMax_firstMax⟩

end First

end FindMax
