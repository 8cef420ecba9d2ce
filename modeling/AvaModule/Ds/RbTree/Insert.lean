import AvaModule.Ds.RbTree.Rotate

/-! Insertion: linking a red leaf at an empty slot and climbing with
`rb_insert_color`. The climb is an induction on the path above the red node. -/
namespace AvaModule.RbTree
open RedBlack RedBlack.Tree

variable {T : Target} {h : RbHeap T} {outside : Usz T → RbNode T}

/-- The word the focus of a path is stored in. -/
def linkOf : Path (Usz T) → RbLink T
  | [] => .root
  | f :: _ => .child f.side f.val

theorem writeLink_run {path : Path (Usz T)} (along : PathShape h.nodes hole path) (p : Usz T) :
    writeLink p (linkOf path) h = some ((), relinked h path p) := by
  cases path with
  | nil => rfl
  | cons f path => exact setChild_run along.1 _ _

/-- A leaf is linked as a red node at an empty slot. -/
theorem Holds.link {path : Path (Usz T)} (holds : Holds outside h (path.fill .nil)) {node : Usz T}
    (present : node ≠ null) (aligned : Aligned node) (fresh : node ∉ (path.fill .nil).toList) :
    ∃ h', rbLinkNode node (parentOf path) (linkOf path) h = some ((), h') ∧
      Holds outside h' (path.fill (.node .red .nil node .nil)) := by
  obtain ⟨along, _⟩ := holds.at_focus
  have nodup := holds.focus_nodup
  simp only [toList, List.nil_append] at nodup
  simp only [mem_fill, toList, List.not_mem_nil, false_or] at fresh
  let record : RbNode T := ⟨parentOf path, null, null⟩
  let h₁ := ((h.update node { h.nodes node with rbParentColor := parentOf path }).update node
    ⟨parentOf path, null, (h.nodes node).rbLeft⟩).update node record
  have same₁ : ∀ q, q ≠ node → h₁.nodes q = h.nodes q := by
    intro q ne
    rw [update_of_ne ne, update_of_ne ne, update_of_ne ne]
  have along₁ : PathShape h₁.nodes null path :=
    along.congr fun q member => same₁ q fun same => fresh (same ▸ member)
  refine ⟨relinked h₁ path node, ?_, ?_, ?_, ?_, ?_⟩
  · rw [rbLinkNode, bind_run (assign_run present _), bind_run (assign_run present _), update_self,
      bind_run (assign_run present _), update_self]
    exact writeLink_run along₁ node
  · rw [ptr_fill]
    refine relinked_root path null node ?_
    rw [update_root, update_root, update_root, holds.root, ptr_fill, ptr_nil]
  · refine (shape_fill path _).mpr ⟨relinked_pathShape along₁ nodup node, present, aligned, ?_, trivial,
      trivial⟩
    rw [relinked_outside fresh, update_self]
    simp only [record, cell, packed, colorWord, ptr_nil]
    congr
    exact BitVec.or_zero.symm
  · rw [(Path.fill_perm path _).nodup_iff]
    exact List.nodup_cons.mpr ⟨fresh, nodup⟩
  · intro q outer
    simp only [mem_fill, toList, List.nil_append, List.mem_singleton, not_or] at outer
    rw [relinked_outside outer.2, same₁ q outer.1, holds.frame q]
    simpa [mem_fill, toList] using outer.2

theorem presentAndRed_run {path : Path (Usz T)} {t : RedBlack.Tree (Usz T)}
    (holds : Holds outside h (path.fill t)) :
    presentAndRed (ptr t) h = some (decide (t.color = .red), h) := by
  by_cases empty : t = .nil
  · subst empty
    rfl
  · obtain ⟨c, p, near, far, rfl⟩ := exists_join .left empty
    rw [presentAndRed, ptr_join, if_pos holds.present, holds.isRed_run, color_join]

theorem absentOrBlack_run {path : Path (Usz T)} {t : RedBlack.Tree (Usz T)}
    (holds : Holds outside h (path.fill t)) :
    absentOrBlack (ptr t) h = some (decide (t.color = .black), h) := by
  by_cases empty : t = .nil
  · subst empty
    rfl
  · obtain ⟨c, p, near, far, rfl⟩ := exists_join .left empty
    rw [absentOrBlack, ptr_join, if_neg holds.present, holds.isBlack_run, color_join]

/-- The state between two passes of the insertion loop: a red node whose only
possible fault is a red parent. `xs` is the in-order sequence. -/
def RedFocus (outside : Usz T → RbNode T) (h : RbHeap T) (xs : List (Usz T)) (p : Usz T)
    (path : Path (Usz T)) : Prop :=
  ∃ d a b n, Holds outside h (path.fill (join d .red p a b)) ∧ path.Balanced .black n ∧
    Balanced a .black n ∧ Balanced b .black n ∧ (path.fill (join d .red p a b)).toList = xs

theorem RedFocus.from_side (d : Side) (focus : RedFocus outside h xs p path) :
    ∃ a b n, Holds outside h (path.fill (join d .red p a b)) ∧ path.Balanced .black n ∧
      Balanced a .black n ∧ Balanced b .black n ∧ (path.fill (join d .red p a b)).toList = xs := by
  obtain ⟨d', a, b, n, holds, outer, ba, bb, seq⟩ := focus
  by_cases same : d' = d
  · subst same
    exact ⟨a, b, n, holds, outer, ba, bb, seq⟩
  · have flipped : d' = d.flip := by
      revert same
      cases d <;> cases d' <;> simp [Side.flip]
    subst flipped
    rw [join_flip] at holds seq
    exact ⟨b, a, n, holds, outer, bb, ba, seq⟩

section Step

variable {rest : Path (Usz T)} {d : Side} {x y p : Usz T} {s t u a b : RedBlack.Tree (Usz T)} {n : Nat}

/-- A red uncle: the fault moves two levels up. -/
theorem recolor_step {df : Side} {q : Usz T} {u₁ u₂ : RedBlack.Tree (Usz T)}
    (holds : Holds outside h (rest.fill
      (join d .black y (join df .red x t s) (join .left .red q u₁ u₂)))) :
    ∃ h', rbInsertColorStep d p x y h = some (y, h') ∧ Holds outside h' (rest.fill
      (join d .red y (join df .black x t s) (join .left .black q u₁ u₂))) := by
  have look := presentAndRed_run (Holds.to_far.mp holds)
  rw [ptr_join, color_join, decide_eq_true rfl] at look
  obtain ⟨h₁, run₁, holds₁⟩ := (Holds.to_far.mp holds).setBlack
  obtain ⟨h₂, run₂, holds₂⟩ := (Holds.to_near.mp (Holds.to_far.mpr holds₁)).setBlack
  obtain ⟨h₃, run₃, holds₃⟩ := (Holds.to_near.mpr holds₂).setRed
  refine ⟨h₃, ?_, holds₃⟩
  rw [rbInsertColorStep, bind_run holds.far_run, ptr_join, bind_run look, if_pos rfl, bind_run run₁,
    bind_run run₂, bind_run run₃, pure_run]

/-- A black uncle and an outer red grandchild: one rotation. -/
theorem outer_step (black : u.color = .black) (presentT : t ≠ .nil)
    (holds : Holds outside h (rest.fill (join d .black y (join d .red x t s) u))) :
    ∃ h', rbInsertColorStep d (ptr t) x y h = some (ptr t, h') ∧
      Holds outside h' (rest.fill (join d .black x t (join d .red y s u))) := by
  have look := presentAndRed_run (Holds.to_far.mp holds)
  rw [black, decide_eq_false (by simp)] at look
  have inner := Holds.to_near.mp holds
  obtain ⟨h₁, run₁, holds₁⟩ := inner.setBlack
  obtain ⟨h₂, run₂, holds₂⟩ := (Holds.to_near.mpr holds₁).setRed
  have mirrored : Holds outside h₂
      (rest.fill (join d.flip .red y u (join d.flip .black x s t))) := by
    simpa only [join_flip] using holds₂
  obtain ⟨h₃, run₃, holds₃⟩ := mirrored.rotate
  refine ⟨h₃, ?_, by simpa only [join_flip] using holds₃⟩
  rw [rbInsertColorStep, bind_run holds.far_run, bind_run look, if_neg (by simp),
    bind_run inner.far_run, if_neg (inner.near_ne_far presentT), bind_run run₁, bind_run run₂,
    bind_run run₃, pure_run]

/-- A black uncle and an inner red grandchild: two rotations, and the old
parent is the next node. -/
theorem inner_step (black : u.color = .black)
    (holds : Holds outside h (rest.fill
      (join d .black y (join d .red x s (join d .red p a b)) u))) :
    ∃ h', rbInsertColorStep d p x y h = some (x, h') ∧
      Holds outside h' (rest.fill (join d .black p (join d .red x s a) (join d .red y b u))) := by
  have look := presentAndRed_run (Holds.to_far.mp holds)
  rw [black, decide_eq_false (by simp)] at look
  have inner := Holds.to_near.mp holds
  obtain ⟨h₁, run₁, holds₁⟩ := inner.rotate
  obtain ⟨h₂, run₂, holds₂⟩ := holds₁.setBlack
  obtain ⟨h₃, run₃, holds₃⟩ := (Holds.to_near.mpr holds₂).setRed
  have mirrored : Holds outside h₃ (rest.fill
      (join d.flip .red y u (join d.flip .black p b (join d .red x s a)))) := by
    simpa only [join_flip] using holds₃
  obtain ⟨h₄, run₄, holds₄⟩ := mirrored.rotate
  refine ⟨h₄, ?_, by simpa only [join_flip] using holds₄⟩
  rw [rbInsertColorStep, bind_run holds.far_run, bind_run look, if_neg (by simp),
    bind_run inner.far_run, ptr_join, if_pos rfl, bind_run run₁, bind_run run₂, bind_run run₃,
    bind_run run₄, pure_run]

/-- One pass of the loop keeps the sequence and shortens the path. -/
theorem insert_step {df : Side} (focus : RedFocus outside h xs p
    (⟨df, .red, x, s⟩ :: ⟨d, .black, y, u⟩ :: rest)) :
    ∃ h' p' path', rbInsertColorStep d p x y h = some (p', h') ∧
      RedFocus outside h' xs p' path' ∧ path'.length ≤ rest.length + 1 := by
  obtain ⟨a, b, n, holds, balanced, ba, bb, seq⟩ := focus.from_side d
  obtain ⟨_, bs, ⟨c', bu⟩, outer⟩ := balanced
  cases uncle : u.color with
  | red =>
    obtain ⟨cu, q, u₁, u₂, rfl⟩ := exists_join .left (t := u) (by rintro rfl; simp [color] at uncle)
    rw [color_join] at uncle
    subst uncle
    obtain ⟨rfl, bu₁, bu₂⟩ := bu.of_join_red
    obtain ⟨h', run, holds'⟩ := recolor_step holds
    refine ⟨h', y, rest, run, ⟨d, _, _, n + 1, holds', outer, ?_, ?_, ?_⟩, by simp⟩
    · exact (ba.join_red bb d p).join_black bs df x
    · exact bu₁.join_black bu₂ .left q
    · rw [← seq]
      exact Path.fill_toList_congr rest
        (toList_join_congr d _ _ y (toList_join_congr df _ _ x rfl rfl) (toList_join_congr .left _ _ q rfl rfl))
  | black =>
    obtain rfl : c' = .black := bu.color_eq.symm.trans uncle
    by_cases same : df = d
    · subst same
      obtain ⟨h', run, holds'⟩ := outer_step uncle (join_ne_nil df _ p a b) holds
      rw [ptr_join] at run
      refine ⟨h', p, ⟨df, .black, x, join df .red y s u⟩ :: rest, run,
        ⟨df, a, b, n, holds', ⟨⟨.red, bs.join_red bu df y⟩, outer⟩, ba, bb, ?_⟩, by simp⟩
      rw [← seq]
      cases df <;> simp [Path.fill_toList, Path.fill, join, toList]
    · have flipped : df = d.flip := by
        revert same
        cases d <;> cases df <;> simp [Side.flip]
      subst flipped
      have inner : Holds outside h (rest.fill
          (join d .black y (join d .red x s (join d .red p a b)) u)) := by
        simpa only [Path.fill, join_flip] using holds
      obtain ⟨h', run, holds'⟩ := inner_step uncle inner
      refine ⟨h', x, ⟨d, .black, p, join d .red y b u⟩ :: rest, run,
        ⟨d, s, a, n, holds', ⟨⟨.red, bb.join_red bu d y⟩, outer⟩, bs, ba, ?_⟩, by simp⟩
      rw [← seq]
      cases d <;> simp [Path.fill_toList, Path.fill, join, toList, Side.flip]

theorem insert_pass {df : Side} (focus : RedFocus outside h xs p
    (⟨df, .red, x, s⟩ :: ⟨d, .black, y, u⟩ :: rest)) :
    ∃ h' p' path', rbInsertColorPass p x y h = some (p', h') ∧
      RedFocus outside h' xs p' path' ∧ path'.length ≤ rest.length + 1 := by
  obtain ⟨d', a, b, n, holds, _⟩ := id focus
  have outer := Holds.to_near.mpr (Holds.to_near.mpr holds)
  obtain ⟨h', p', path', run, next⟩ := insert_step focus
  refine ⟨h', p', path', ?_, next⟩
  cases d with
  | left => rw [rbInsertColorPass, bind_run outer.near_run, ptr_join, if_pos rfl, run]
  | right =>
    have read : child .left y h = some (ptr u, h) := outer.far_run
    have apart := outer.near_ne_far (join_ne_nil _ _ _ _ _)
    rw [ptr_join] at apart
    rw [rbInsertColorPass, bind_run read, if_neg (Ne.symm apart), run]

end Step

/-- The loop ends with a tree that only lacks a black root. -/
theorem insertColorLoop_run (focus : RedFocus outside h xs p path) :
    ∃ h' t, rbInsertColorLoop p h = some ((), h') ∧ Holds outside h' t ∧ t.toList = xs ∧
      t ≠ .nil ∧ ∃ n, Balanced (t.paint .black) .black n := by
  induction size : path.length using Nat.strong_induction_on generalizing h p path with
  | _ k ih =>
    obtain ⟨d, a, b, n, holds, balanced, ba, bb, seq⟩ := id focus
    rw [rbInsertColorLoop_turn, bind_run holds.parent_run]
    match path, balanced with
    | [], _ => exact ⟨h, _, rfl, holds, seq, join_ne_nil _ _ _ _ _, (ba.join_red bb d p).paint_root⟩
    | ⟨df, .black, x, s⟩ :: rest, ⟨⟨c', bs⟩, outer⟩ =>
      obtain ⟨m, whole⟩ := outer.fill ((ba.join_red bb d p).join_black bs df x)
      have look := presentAndRed_run (Holds.to_near.mpr holds)
      rw [ptr_join, color_join] at look
      refine ⟨h, _, ?_, holds, seq, Path.fill_ne_nil _ (join_ne_nil _ _ _ _ _), whole.paint_root⟩
      rw [parentOf_cons, bind_run look]
      rfl
    | ⟨df, .red, x, s⟩ :: ⟨dg, .black, y, u⟩ :: rest, _ =>
      obtain ⟨h', p', path', run, next, shorter⟩ := insert_pass focus
      have parent := Holds.to_near.mpr holds
      have look := presentAndRed_run parent
      rw [ptr_join, color_join] at look
      have short : path'.length < k := by
        simp only [List.length_cons] at size
        omega
      obtain ⟨h'', t, rest', result⟩ := ih _ short next rfl
      refine ⟨h'', t, ?_, result⟩
      rw [parentOf_cons, bind_run look, if_pos (by simp), bind_run parent.parent_run, parentOf_cons,
        bind_run run]
      exact rest'

/-- `rb_link_node` at an empty slot followed by `rb_insert_color`. -/
theorem insert_run {path : Path (Usz T)} (holds : Holds outside h (path.fill .nil))
    (balanced : Balanced (path.fill .nil) .black m) {node : Usz T} (present : node ≠ null)
    (aligned : Aligned node) (fresh : node ∉ (path.fill .nil).toList) :
    ∃ h' t n, (rbLinkNode node (parentOf path) (linkOf path) >>= fun _ => rbInsertColor node) h =
        some ((), h') ∧ Holds outside h' t ∧ Balanced t .black n ∧
      t.toList = path.before ++ node :: path.after := by
  obtain ⟨c, n, outer, empty⟩ := Path.Balanced.of_fill balanced
  cases empty
  obtain ⟨h₁, run₁, holds₁⟩ := holds.link present aligned fresh
  have focus : RedFocus outside h₁ (path.before ++ node :: path.after) node path :=
    ⟨.left, .nil, .nil, 0, holds₁, outer, .nil, .nil, by simp [Path.fill_toList, join, toList]⟩
  obtain ⟨h₂, t, run₂, holds₂, seq, nonempty, n, black⟩ := insertColorLoop_run focus
  obtain ⟨c, p, l, r, rfl⟩ := exists_join .left nonempty
  have root : Holds outside h₂ (Path.fill [] (join .left c p l r)) := holds₂
  obtain ⟨h₃, run₃, holds₃⟩ := root.setBlack
  rw [paint_join] at black
  refine ⟨h₃, _, n, ?_, holds₃, black, ?_⟩
  · rw [bind_run run₁, rbInsertColor, bind_run run₂, bind_run getRoot_run, holds₂.root, ptr_join, run₃]
  · rw [← seq]
    rfl

end AvaModule.RbTree
