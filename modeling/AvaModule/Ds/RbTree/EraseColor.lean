import AvaModule.Ds.RbTree.Insert

/-! `rb_erase_color`: restoring the black height above a subtree that is one
short. Each stage of a pass is one rewriting of the tree at the parent. -/
namespace AvaModule.RbTree
open RedBlack RedBlack.Tree

variable {T : Target} {h : RbHeap T} {outside : Usz T → RbNode T} {xs : List (Usz T)}

/-- The subtree `t` misses one black level, or is red and painting it black
supplies that level. -/
def Short (t : RedBlack.Tree (Usz T)) (n : Nat) : Prop :=
  (t.color = .black ∧ Balanced t .black n) ∨
    (t.color = .red ∧ Balanced (t.paint .black) .black (n + 1))

/-- The state between two passes. `xs` is the in-order sequence. -/
structure ShortFocus (outside : Usz T → RbNode T) (h : RbHeap T) (xs : List (Usz T))
    (path : Path (Usz T)) (t : RedBlack.Tree (Usz T)) : Prop where
  holds : Holds outside h (path.fill t)
  seq : (path.fill t).toList = xs
  deficit : ∃ n, path.Balanced .black (n + 1) ∧ Short t n

section Stages

variable {rest : Path (Usz T)} {d : Side} {cp : Color} {p q : Usz T} {t s x y : RedBlack.Tree (Usz T)} {n : Nat}

/-- What the parent's subtree looks like once the sibling is black. -/
structure BlackSibling (outside : Usz T → RbNode T) (h : RbHeap T) (xs : List (Usz T))
    (rest : Path (Usz T)) (d : Side) (cp : Color) (p q : Usz T) (t x y : RedBlack.Tree (Usz T)) (n : Nat) :
    Prop where
  holds : Holds outside h (rest.fill (join d cp p t (join d .black q x y)))
  seq : (rest.fill (join d cp p t (join d .black q x y))).toList = xs
  outer : rest.Balanced cp (if cp = .red then n + 1 else n + 2)
  near : ∃ c, Balanced x c n
  far : ∃ c, Balanced y c n

theorem of_balanced_succ (balanced : Balanced s c (n + 1)) (d : Side) :
    (∃ q x y, s = join d .red q x y ∧ Balanced x .black (n + 1) ∧ Balanced y .black (n + 1)) ∨
    (∃ q x y, s = join d .black q x y ∧ (∃ c, Balanced x c n) ∧ ∃ c, Balanced y c n) := by
  have nonempty : s ≠ .nil := by
    rintro rfl
    cases balanced
  obtain ⟨c', q, x, y, rfl⟩ := exists_join d nonempty
  cases c' with
  | red =>
    obtain ⟨_, bx, byy⟩ := balanced.of_join_red
    exact Or.inl ⟨q, x, y, rfl, bx, byy⟩
  | black =>
    obtain ⟨m, c₁, c₂, _, same, bx, byy⟩ := balanced.of_join_black
    obtain rfl : n = m := Nat.succ.inj same
    exact Or.inr ⟨q, x, y, rfl, ⟨c₁, bx⟩, ⟨c₂, byy⟩⟩

theorem eraseColorSibling_run (holds : Holds outside h (rest.fill (join d cp p t s)))
    (seq : (rest.fill (join d cp p t s)).toList = xs)
    (balanced : Path.Balanced (⟨d, cp, p, s⟩ :: rest) .black (n + 1)) :
    ∃ h' rest' cp' q x y, rbEraseColorSibling d p h = some (q, h') ∧
      BlackSibling outside h' xs rest' d cp' p q t x y n ∧
      2 * rest'.length + (if cp' = .black then 1 else 0) ≤ 2 * rest.length + 2 := by
  have siblingBalanced : ∃ c, Balanced s c (n + 1) := by
    cases cp with
    | red => exact ⟨.black, balanced.2.1⟩
    | black => exact balanced.1
  obtain ⟨c, bs⟩ := siblingBalanced
  obtain ⟨q, x, y, rfl, bx, byy⟩ | ⟨q, x, y, rfl, bx, byy⟩ := of_balanced_succ bs d
  · -- a red sibling has a black parent
    have black : cp = .black := by
      cases cp with
      | red => exact absurd balanced.2.1.color_eq (by simp)
      | black => rfl
    subst black
    obtain ⟨_, outer⟩ := balanced
    obtain ⟨c, bx'⟩ : ∃ c, Balanced x c (n + 1) := ⟨_, bx⟩
    obtain ⟨h₁, run₁, holds₁⟩ := (Holds.to_far.mp holds).setBlack
    obtain ⟨h₂, run₂, holds₂⟩ := (Holds.to_far.mpr holds₁).setRed
    obtain ⟨h₃, run₃, holds₃⟩ := holds₂.rotate
    obtain ⟨q', x', y', rfl, _⟩ | ⟨q', x₁, x₂, rfl, bx₁, bx₂⟩ := of_balanced_succ bx d
    · exact absurd bx.color_eq (by simp)
    · have inner := Holds.to_near.mp holds₃
      refine ⟨h₃, ⟨d, .black, q, y⟩ :: rest, .red, q', x₁, x₂, ?_, ⟨inner, ?_, ⟨⟨_, byy⟩, outer⟩, bx₁, bx₂⟩,
        by simp; omega⟩
      · rw [rbEraseColorSibling, bind_run holds.far_run, ptr_join,
          bind_run (Holds.to_far.mp holds).isRed_run, if_pos (by simp), bind_run run₁, bind_run run₂,
          bind_run run₃, inner.far_run, ptr_join]
      · rw [← seq]
        exact Path.fill_toList_congr rest (rotate_toList d _ _ _ _ _ _ _ _ _).symm
  · refine ⟨h, rest, cp, q, x, y, ?_, ⟨holds, seq, ?_, bx, byy⟩, by split <;> omega⟩
    · rw [rbEraseColorSibling, bind_run holds.far_run, ptr_join,
        bind_run (Holds.to_far.mp holds).isRed_run, if_neg (by simp), pure_run]
    · cases cp with
      | red => simpa using balanced.2.2
      | black => simpa using balanced.2

theorem eraseColorNephews_run {path : Path (Usz T)} {c : Color}
    (holds : Holds outside h (path.fill (join d c q x y))) :
    rbEraseColorNephews q h = some (decide (x.color = .black ∧ y.color = .black), h) := by
  have lookNear := absentOrBlack_run (Holds.to_near.mp holds)
  have lookFar := absentOrBlack_run (Holds.to_far.mp holds)
  have readNear := holds.near_run
  have readFar := holds.far_run
  cases d with
  | left =>
    rw [Side.flip] at readFar
    rw [rbEraseColorNephews, bind_run readNear, bind_run lookNear]
    cases nearColor : x.color
    · rw [if_neg (by simp), pure_run]
      simp
    · rw [if_pos (by simp), bind_run readFar, lookFar]
      simp
  | right =>
    rw [Side.flip] at readFar
    rw [rbEraseColorNephews, bind_run readFar, bind_run lookFar]
    cases farColor : y.color
    · rw [if_neg (by simp), pure_run]
      simp
    · rw [if_pos (by simp), bind_run readNear, lookNear]
      simp

/-- The tree at the parent once the far nephew is red. -/
theorem eraseColorNephew_run (start : BlackSibling outside h xs rest d cp p q t x y n)
    (red : ¬(x.color = .black ∧ y.color = .black)) :
    ∃ h' z X w y₁ y₂, rbEraseColorNephew d p q h = some (z, h') ∧
      Holds outside h' (rest.fill (join d cp p t (join d .black z X (join d .red w y₁ y₂)))) ∧
      (rest.fill (join d cp p t (join d .black z X (join d .red w y₁ y₂)))).toList = xs ∧
      (∃ c, Balanced X c n) ∧ Balanced y₁ .black n ∧ Balanced y₂ .black n := by
  obtain ⟨holds, seq, _, ⟨c₁, bx⟩, ⟨c₂, byy⟩⟩ := start
  have sibling := Holds.to_far.mp holds
  have look := absentOrBlack_run (Holds.to_far.mp sibling)
  cases farColor : y.color with
  | red =>
    obtain ⟨c, w, y₁, y₂, rfl⟩ := exists_join d (t := y) (by rintro rfl; simp [color] at farColor)
    rw [color_join] at farColor
    subst farColor
    obtain ⟨_, by₁, by₂⟩ := byy.of_join_red
    rw [color_join] at look
    refine ⟨h, q, x, w, y₁, y₂, ?_, holds, seq, ⟨c₁, bx⟩, by₁, by₂⟩
    rw [rbEraseColorNephew, bind_run sibling.far_run, bind_run look, if_neg (by simp), pure_run]
  | black =>
    have nearColor : x.color = .red := by
      cases nearColor : x.color with
      | red => rfl
      | black => exact absurd ⟨nearColor, farColor⟩ red
    obtain ⟨c, z, x₁, x₂, rfl⟩ := exists_join d (t := x) (by rintro rfl; simp [color] at nearColor)
    rw [color_join] at nearColor
    subst nearColor
    obtain ⟨_, bx₁, bx₂⟩ := bx.of_join_red
    obtain rfl : c₂ = .black := byy.color_eq.symm.trans farColor
    rw [farColor] at look
    obtain ⟨h₁, run₁, holds₁⟩ := (Holds.to_near.mp sibling).setBlack
    obtain ⟨h₂, run₂, holds₂⟩ := (Holds.to_near.mpr holds₁).setRed
    have mirrored : Holds outside h₂ (Path.fill (⟨d.flip, cp, p, t⟩ :: rest)
        (join d.flip .red q y (join d.flip .black z x₂ x₁))) := by
      simpa only [join_flip] using holds₂
    obtain ⟨h₃, run₃, holds₃⟩ := mirrored.rotate
    have after : Holds outside h₃ (rest.fill
        (join d cp p t (join d .black z x₁ (join d .red q x₂ y)))) := by
      simpa only [Path.fill, join_flip] using holds₃
    refine ⟨h₃, z, x₁, q, x₂, y, ?_, after, ?_, ⟨.black, bx₁⟩, bx₂, byy⟩
    · rw [rbEraseColorNephew, bind_run sibling.far_run, bind_run look, if_pos (by simp),
        bind_run sibling.near_run, ptr_join, bind_run run₁, bind_run run₂, bind_run run₃,
        after.far_run, ptr_join]
    · rw [← seq]
      refine Path.fill_toList_congr rest (toList_join_congr d _ _ p rfl ?_)
      cases d <;> simp [join, toList]

/-- Both nephews black: the sibling is painted red and the parent takes over. -/
theorem eraseColorStep_climb (start : BlackSibling outside h xs rest d cp p q t x y n)
    (short : Balanced t .black n) (bx : x.color = .black) (byy : y.color = .black) :
    ∃ h', (do
        rbSetRed q
        return (⟨false, p, ← rbGetParent p⟩ : ErasePass T)) h =
        some (⟨false, p, parentOf rest⟩, h') ∧
      ShortFocus outside h' xs rest (join d cp p t (join d .red q x y)) := by
  obtain ⟨holds, seq, outer, ⟨c₁, balX⟩, ⟨c₂, balY⟩⟩ := start
  obtain rfl : c₁ = .black := balX.color_eq.symm.trans bx
  obtain rfl : c₂ = .black := balY.color_eq.symm.trans byy
  obtain ⟨h₁, run₁, holds₁⟩ := (Holds.to_far.mp holds).setRed
  have after := Holds.to_far.mpr holds₁
  refine ⟨h₁, ?_, after, ?_, ?_⟩
  · rw [bind_run run₁, bind_run after.parent_run, pure_run]
  · rw [← seq]
    exact Path.fill_toList_congr rest
      (toList_join_congr d _ _ p rfl (toList_join_congr d _ _ q rfl rfl))
  · have sibling := balX.join_red balY d q
    cases cp with
    | red =>
      refine ⟨n, Path.Balanced.to_black outer, Or.inr ⟨color_join .., ?_⟩⟩
      rw [paint_join]
      exact short.join_black sibling d p
    | black => exact ⟨n + 1, outer, Or.inl ⟨color_join .., short.join_black sibling d p⟩⟩

/-- A red nephew: rotations restore the height and the loop breaks. -/
theorem eraseColorStep_finish (start : BlackSibling outside h xs rest d cp p q t x y n)
    (short : Balanced t .black n) (red : ¬(x.color = .black ∧ y.color = .black)) :
    ∃ h' u, (do
        let sibling ← rbEraseColorNephew d p q
        rbSetColor sibling (← rbGetColor p)
        rbSetBlack p
        rbSetBlack (← child d.flip sibling)
        rbRotate d p
        return (⟨true, ← getRoot, p⟩ : ErasePass T)) h = some (⟨true, ptr u, p⟩, h') ∧
      Holds outside h' u ∧ u.toList = xs ∧ ∃ m, Balanced u .black m := by
  obtain ⟨h₁, z, X, w, y₁, y₂, run₁, holds₁, seq₁, ⟨cX, balX⟩, by₁, by₂⟩ := eraseColorNephew_run start red
  obtain ⟨h₂, run₂, holds₂⟩ := (Holds.to_far.mp holds₁).setColor cp
  obtain ⟨h₃, run₃, holds₃⟩ := (Holds.to_far.mpr holds₂).setBlack
  have sibling := Holds.to_far.mp holds₃
  obtain ⟨h₄, run₄, holds₄⟩ := (Holds.to_far.mp sibling).setBlack
  obtain ⟨h₅, run₅, holds₅⟩ := (Holds.to_far.mpr (Holds.to_far.mpr holds₄)).rotate
  have outer := start.outer
  have whole : ∃ m, Balanced (rest.fill
      (join d cp z (join d .black p t X) (join d .black w y₁ y₂))) .black m := by
    have left := short.join_black balX d p
    have right := by₁.join_black by₂ d w
    cases cp with
    | red => exact Path.Balanced.fill outer (left.join_red right d z)
    | black => exact Path.Balanced.fill outer (left.join_black right d z)
  refine ⟨h₅, _, ?_, holds₅, ?_, whole⟩
  · rw [bind_run run₁, bind_run holds₁.color_run, bind_run run₂, bind_run run₃,
      bind_run sibling.far_run, ptr_join, bind_run run₄, bind_run run₅, bind_run getRoot_run,
      pure_run, holds₅.root]
  · rw [← seq₁]
    refine Path.fill_toList_congr rest ?_
    cases d <;> simp [join, toList]

/-- The measure of the loop: every pass that does not break leaves a shorter
path, or an equally long one below a red node, where the loop stops. -/
def climbMeasure (path : Path (Usz T)) (t : RedBlack.Tree (Usz T)) : Nat :=
  2 * path.length + if t.color = .black then 1 else 0

/-- What one pass leaves: a smaller deficit, or a balanced tree and a break. -/
def PassResult (outside : Usz T → RbNode T) (xs : List (Usz T)) (bound : Nat) (pass : ErasePass T)
    (h' : RbHeap T) : Prop :=
  (pass.broke = false ∧ ∃ rest t, pass.node = ptr t ∧ pass.parent = parentOf rest ∧
    ShortFocus outside h' xs rest t ∧ climbMeasure rest t < bound) ∨
  (pass.broke = true ∧ ∃ u, pass.node = ptr u ∧ Holds outside h' u ∧ u.toList = xs ∧
    ∃ m, Balanced u .black m)

theorem eraseColorStep_run (holds : Holds outside h (rest.fill (join d cp p t s)))
    (seq : (rest.fill (join d cp p t s)).toList = xs)
    (balanced : Path.Balanced (⟨d, cp, p, s⟩ :: rest) .black (n + 1)) (short : Balanced t .black n) :
    ∃ h' pass, rbEraseColorStep d p h = some (pass, h') ∧
      PassResult outside xs (2 * rest.length + 3) pass h' := by
  obtain ⟨h₁, rest', cp', q, x, y, run₁, start, bound⟩ := eraseColorSibling_run holds seq balanced
  have look := eraseColorNephews_run (Holds.to_far.mp start.holds)
  by_cases black : x.color = .black ∧ y.color = .black
  · obtain ⟨h₂, run₂, next⟩ := eraseColorStep_climb start short black.1 black.2
    refine ⟨h₂, ⟨false, p, parentOf rest'⟩, ?_,
      Or.inl ⟨rfl, rest', _, (ptr_join ..).symm, rfl, next, ?_⟩⟩
    · rw [rbEraseColorStep, bind_run run₁, bind_run look, if_pos (decide_eq_true black), run₂]
    · simp only [climbMeasure, color_join]
      omega
  · obtain ⟨h₂, u, run₂, result⟩ := eraseColorStep_finish start short black
    refine ⟨h₂, ⟨true, ptr u, p⟩, ?_, Or.inr ⟨rfl, u, rfl, result⟩⟩
    rw [rbEraseColorStep, bind_run run₁, bind_run look, if_neg (by simpa using black), run₂]

theorem eraseColorPass_run (holds : Holds outside h (rest.fill (join d cp p t s)))
    (seq : (rest.fill (join d cp p t s)).toList = xs)
    (balanced : Path.Balanced (⟨d, cp, p, s⟩ :: rest) .black (n + 1)) (short : Balanced t .black n) :
    ∃ h' pass, rbEraseColorPass (ptr t) p h = some (pass, h') ∧
      PassResult outside xs (2 * rest.length + 3) pass h' := by
  obtain ⟨h', pass, run, result⟩ := eraseColorStep_run holds seq balanced short
  refine ⟨h', pass, ?_, result⟩
  cases d with
  | left => rw [rbEraseColorPass, bind_run holds.near_run, if_pos rfl, run]
  | right =>
    -- the sibling carries a black level, so it is there to tell the sides apart
    have sibling : s ≠ .nil := by
      rintro rfl
      cases cp with
      | red => cases balanced.2.1
      | black =>
        obtain ⟨⟨c, impossible⟩, _⟩ := balanced
        cases impossible
    have mirrored : Holds outside h (rest.fill (join .left cp p s t)) := holds
    have apart := mirrored.near_ne_far sibling
    rw [rbEraseColorPass, bind_run mirrored.near_run, if_neg (Ne.symm apart), run]

end Stages

theorem topOf_mem {path : Path (Usz T)} (outer : path ≠ []) (hole : Usz T) :
    topOf hole path ∈ path.nodes := by
  induction path generalizing hole with
  | nil => exact absurd rfl outer
  | cons f path ih =>
    by_cases last : path = []
    · subst last
      simp [topOf, Path.nodes]
    · have := ih last f.val
      simp only [topOf, Path.nodes, List.flatMap_cons, List.mem_append] at *
      exact Or.inr this

/-- Only an empty path has the root word at its focus. -/
theorem Holds.root_ne {path : Path (Usz T)} {t : RedBlack.Tree (Usz T)} (holds : Holds outside h (path.fill t))
    (outer : path ≠ []) : ptr t ≠ h.rbNode := by
  have inPath := topOf_mem outer (ptr t)
  rw [← ptr_fill, ← holds.root] at inPath
  have nodup := holds.focus_nodup
  rw [List.nodup_append] at nodup
  by_cases empty : t = .nil
  · subst empty
    have present := (holds.shape.mem_ne_null h.rbNode (mem_fill.mpr (Or.inr inPath))).1
    exact Ne.symm present
  · exact nodup.2.2 _ (ptr_mem empty) _ inPath

/-- The loop ends with a tree that is balanced once its focus is painted black. -/
theorem eraseColorLoop_run {path : Path (Usz T)} {t : RedBlack.Tree (Usz T)}
    (focus : ShortFocus outside h xs path t) :
    ∃ (h' : RbHeap T) (path' : Path (Usz T)) (t' : RedBlack.Tree (Usz T)),
      rbEraseColorLoop (ptr t) (parentOf path) h = some (ptr t', h') ∧ Holds outside h' (path'.fill t') ∧ (path'.fill t').toList = xs ∧
      ∃ m, Balanced (path'.fill (t'.paint .black)) .black m := by
  induction size : climbMeasure path t using Nat.strong_induction_on generalizing h path t with
  | _ k ih =>
    obtain ⟨holds, seq, n, balanced, short⟩ := focus
    have look := absentOrBlack_run holds
    rw [rbEraseColorLoop_turn, bind_run look, bind_run getRoot_run]
    rcases short with ⟨black, bt⟩ | ⟨red, bt⟩
    · match path, balanced with
      | [], _ =>
        have root := holds.root
        simp only [Path.fill] at root
        refine ⟨h, [], t, ?_, holds, seq, ?_⟩
        · rw [if_neg (by simp [root]), pure_run]
        · exact bt.paint_root
      | ⟨d, cp, p, s⟩ :: rest, balanced =>
        obtain ⟨h₁, pass, run₁, result⟩ := eraseColorPass_run (Holds.to_near.mpr holds) seq balanced bt
        have bound : 2 * rest.length + 3 = k := by
          simp only [climbMeasure, black, if_true, List.length_cons] at size
          omega
        rw [bound] at result
        rw [parentOf_cons, if_pos (by simp [black, holds.root_ne]), bind_run run₁]
        rcases result with ⟨going, rest', t', node, parent, next, less⟩ | ⟨stop, u, node, holds', seq', done⟩
        · obtain ⟨h₂, path', u, run₂, final⟩ := ih _ less next rfl
          refine ⟨h₂, path', u, ?_, final⟩
          rw [going, if_neg (by simp), node, parent, run₂]
        · obtain ⟨m, bu⟩ := done
          refine ⟨h₁, [], u, ?_, holds', seq', bu.paint_root⟩
          rw [stop, if_pos rfl, node, pure_run]
    · refine ⟨h, path, t, ?_, holds, seq, balanced.fill bt⟩
      rw [if_neg (by simp [red]), pure_run]

theorem eraseColor_run {path : Path (Usz T)} {t : RedBlack.Tree (Usz T)} (focus : ShortFocus outside h xs path t) :
    ∃ h' u, rbEraseColor (ptr t) (parentOf path) h = some ((), h') ∧ Holds outside h' u ∧
      u.toList = xs ∧ ∃ m, Balanced u .black m := by
  obtain ⟨h₁, path', t', run₁, holds₁, seq₁, m, balanced⟩ := eraseColorLoop_run focus
  rw [rbEraseColor, bind_run run₁]
  by_cases empty : t' = .nil
  · subst empty
    exact ⟨h₁, _, rfl, holds₁, seq₁, m, balanced⟩
  · obtain ⟨c, p, l, r, rfl⟩ := exists_join .left empty
    obtain ⟨h₂, run₂, holds₂⟩ := holds₁.setBlack
    rw [ptr_join, if_pos holds₁.present, run₂]
    refine ⟨h₂, _, rfl, holds₂, ?_, m, by simpa only [paint_join] using balanced⟩
    rw [← seq₁]
    exact Path.fill_toList_congr path' (toList_join_congr .left _ _ p rfl rfl)

end AvaModule.RbTree
