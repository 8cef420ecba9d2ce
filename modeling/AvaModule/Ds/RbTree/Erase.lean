import AvaModule.Ds.RbTree.EraseColor

/-! `rb_erase`: cutting out a node with at most one child, or putting the
in-order successor in the node's place, and then repairing the black height. -/
namespace AvaModule.RbTree
open RedBlack RedBlack.Tree

variable {T : Target} {h h' : RbHeap T} {outside : Usz T → RbNode T}
variable {path : Path (Usz T)} {d : Side} {c : Color} {p old s : Usz T} {l r t : RedBlack.Tree (Usz T)}

/-- A heap that holds `t` with a frame that differs from `outside` only at `p`
and inside `t` holds it with the frame that records what `p` has become. -/
theorem Holds.forget (holds : Holds outside' h t)
    (agree : ∀ q, q ∉ t.toList → q ≠ p → outside' q = outside q) :
    Holds (Function.update outside p (h.nodes p)) h t := by
  refine ⟨holds.root, holds.shape, holds.nodup, ?_⟩
  intro q outer
  by_cases self : q = p
  · subst self
    simp
  · rw [Function.update_of_ne self, holds.frame q outer, agree q outer self]

/-- Cutting out a node without a `d` child: its other child moves up. -/
theorem Holds.cut (holds : Holds outside h (path.fill (join d c p .nil t)))
    (adopted : Adopted h h' t (parentOf path)) :
    Holds (Function.update outside p ((relinked h' path (ptr t)).nodes p))
      (relinked h' path (ptr t)) (path.fill t) := by
  obtain ⟨root, same, moved⟩ := adopted
  obtain ⟨along, focus⟩ := holds.at_focus
  rw [ptr_join] at along
  obtain ⟨present, aligned, _, _, shape⟩ := (shape_join d _ c p .nil t).mp focus
  have nodup := ((join_perm d c p .nil t).append_right path.nodes).nodup_iff.mp holds.focus_nodup
  simp only [toList, List.nil_append, List.cons_append, List.nodup_cons, List.mem_append, not_or] at nodup
  obtain ⟨⟨notT, notPath⟩, nodup⟩ := nodup
  have nodupT := (List.nodup_append.mp nodup).1
  have nodupPath := (List.nodup_append.mp nodup).2.1
  have apart := (List.nodup_append.mp nodup).2.2
  have along' : PathShape h'.nodes p path := along.congr fun q member => same q (by
    by_cases empty : t = .nil
    · exact Or.inr empty
    · exact Or.inl fun at_top => apart _ (ptr_mem empty) q member at_top.symm)
  refine ⟨?_, (shape_fill path t).mpr ⟨relinked_pathShape along' nodupPath _, ?_⟩,
    (Path.fill_perm path t).nodup_iff.mpr nodup, ?_⟩
  · rw [ptr_fill]
    refine relinked_root path p _ ?_
    rw [root, holds.root, ptr_fill, ptr_join]
  · refine shape.reparent aligned nodupT ?_ ?_
    · intro q member below
      rw [relinked_outside (fun inPath => apart q member q inPath rfl), same q (Or.inl below)]
    · intro nonempty
      rw [relinked_outside (fun inPath => apart _ (ptr_mem nonempty) _ inPath rfl), moved nonempty]
  · intro q outer
    by_cases self : q = p
    · subst self
      simp
    · rw [mem_fill, not_or] at outer
      rw [Function.update_of_ne self, relinked_outside outer.2, same q (not_ptr_of_not_mem outer.1)]
      refine holds.frame q ?_
      rw [mem_fill, (join_perm d c p .nil t).mem_iff]
      simp [self, toList, outer]

theorem eraseLeaf_run (holds : Holds outside h (path.fill (join d c p .nil t))) :
    ∃ h', rbEraseLeaf p (ptr t) h = some ((ptr t, parentOf path, colorWord c), h') ∧
      Holds (Function.update outside p (h'.nodes p)) h' (path.fill t) := by
  obtain ⟨along, focus⟩ := holds.at_focus
  rw [ptr_join] at along
  obtain ⟨present, _, _, _, shape⟩ := (shape_join d _ c p .nil t).mp focus
  obtain ⟨h₁, adopted, _, run₁⟩ := adopt_run (pure_run (ptr t)) shape (parentOf path)
  have nodup := ((join_perm d c p .nil t).append_right path.nodes).nodup_iff.mp holds.focus_nodup
  simp only [toList, List.nil_append, List.cons_append, List.nodup_cons, List.mem_append, not_or] at nodup
  have along₁ : PathShape h₁.nodes p path := along.congr fun q member => adopted.same q
    (not_ptr_of_not_mem fun inside => (List.nodup_append.mp nodup.2).2.2 q inside q member rfl)
  refine ⟨_, ?_, holds.cut adopted⟩
  rw [rbEraseLeaf, bind_run holds.parent_run, bind_run holds.color_run]
  refine (run₁ _).trans ?_
  rw [bind_run (replaceChild_run .left along₁ present nodup.1.2 _), pure_run]

/-- Walking down one side ends at the node without a child on that side. -/
theorem descend_run (d : Side) (holds : Holds outside h (path.fill t)) (nonempty : t ≠ .nil) :
    ∃ (inner : Path (Usz T)) (c : Color) (s : Usz T) (far : RedBlack.Tree (Usz T)),
      t = inner.fill (join d c s .nil far) ∧ (∀ f ∈ inner, f.side = d) ∧
      rbDescend d (ptr t) h = some (s, h) := by
  induction depth : t.depth using Nat.strong_induction_on generalizing path t with
  | _ k ih =>
    obtain ⟨c, p, near, far, rfl⟩ := exists_join d nonempty
    by_cases empty : near = .nil
    · subst empty
      refine ⟨[], c, p, far, rfl, by simp, ?_⟩
      rw [rbDescend_turn, ptr_join, bind_run holds.near_run, if_neg (by simp), pure_run]
    · have smaller : near.depth < k := by
        rw [← depth]
        cases d <;> simp only [join, Tree.depth] <;> omega
      obtain ⟨inner, c', s, far', same, sides, run⟩ := ih _ smaller (Holds.to_near.mp holds) empty rfl
      have present := (Holds.to_near.mp holds).at_focus.2.ptr_ne_null empty
      refine ⟨inner ++ [⟨d, c, p, far⟩], c', s, far', ?_, ?_, ?_⟩
      · rw [Path.fill_append, ← same]
        rfl
      · intro f member
        simp only [List.mem_append, List.mem_singleton] at member
        rcases member with member | rfl
        · exact sides f member
        · rfl
      · rw [rbDescend_turn, ptr_join, bind_run holds.near_run, if_pos present, run]

/-- Putting the detached node `s` in the place of `old`. -/
theorem splice_run (holds : Holds outside h (path.fill (join .left c old l r)))
    (nonempty : l ≠ .nil) (present : s ≠ null) (aligned : Aligned s)
    (fresh : s ∉ (path.fill (join .left c old l r)).toList) :
    ∃ h', rbEraseSplice old s h = some ((), h') ∧
      Holds (Function.update outside old (h'.nodes old)) h' (path.fill (join .left c s l r)) := by
  obtain ⟨along, focus⟩ := holds.at_focus
  rw [ptr_join] at along
  obtain ⟨presentOld, alignedOld, record, shapeL, shapeR⟩ := (shape_join .left _ c old l r).mp focus
  have nodup := ((join_perm .left c old l r).append_right path.nodes).nodup_iff.mp holds.focus_nodup
  rw [mem_fill, (join_perm .left c old l r).mem_iff] at fresh
  simp only [List.cons_append, List.nodup_cons, List.nodup_append, List.mem_cons, List.mem_append,
    not_or] at nodup fresh
  obtain ⟨⟨⟨oldL, oldR⟩, oldPath⟩, ⟨nodupL, nodupR, apartLR⟩, nodupPath, apartPath⟩ := nodup
  obtain ⟨⟨neOld, sL, sR⟩, sPath⟩ := fresh
  let h₁ := ((h.update s { h.nodes s with rbParentColor := packed (parentOf path) c }).update s
    ⟨packed (parentOf path) c, (h.nodes s).rbRight, ptr l⟩).update s
    (cell .left (parentOf path) c (ptr l) (ptr r))
  have same₁ : ∀ q, q ≠ s → h₁.nodes q = h.nodes q := by
    intro q ne
    rw [update_of_ne ne, update_of_ne ne, update_of_ne ne]
  have along₁ : PathShape h₁.nodes old path := along.congr fun q member => same₁ q (by grind)
  let h₂ := relinked h₁ path s
  have same₂ : ∀ q, q ≠ s → q ∉ path.nodes → h₂.nodes q = h.nodes q :=
    fun q ne outer => (relinked_outside outer s).trans (same₁ q ne)
  have presentL := shapeL.ptr_ne_null nonempty
  have neL : old ≠ ptr l := fun same => oldL (same ▸ ptr_mem nonempty)
  let h₃ := h₂.update (ptr l) ((h₂.nodes (ptr l)).reparent s)
  have record₃ : h₃.nodes old = cell .left (parentOf path) c (ptr l) (ptr r) := by
    rw [update_of_ne neL, same₂ old (Ne.symm neOld) oldPath, record]
  have read₃ : child .right old h₃ = some (ptr r, h₃) := by
    rw [child_run presentOld, record₃]
    rfl
  have shapeR₃ : Shape h₃.nodes old r := shapeR.congr fun q member => by
    rw [update_of_ne (by grind [ptr_mem]), same₂ q (by grind) (by grind)]
  obtain ⟨h₄, ⟨root₄, same₄, moved₄⟩, run₄, _⟩ := adopt_run (β := Unit) read₃ shapeR₃ s
  have outer₄ : ∀ q, q ∉ l.toList → q ∉ r.toList → h₄.nodes q = h₂.nodes q := by
    intro q notL notR
    have below : q ≠ ptr l := by
      rintro rfl
      exact notL (ptr_mem nonempty)
    rw [same₄ q (not_ptr_of_not_mem notR), update_of_ne below]
  refine ⟨h₄, ?_, ?_, ?_, ?_, ?_⟩
  · have recordOld₁ := (same₁ old (Ne.symm neOld)).trans record
    have readL : child .left old h₂ = some (ptr l, h₂) := by
      rw [child_run presentOld, same₂ old (Ne.symm neOld) oldPath, record]
      rfl
    rw [rbEraseSplice, bind_run (deref_run presentOld), record, cell_parentColor,
      bind_run (assign_run present _), bind_run (child_run presentOld _), update_of_ne (Ne.symm neOld),
      record, cell_child, bind_run (setChild_run present _ _), update_self,
      bind_run (child_run presentOld _), update_of_ne (Ne.symm neOld), update_of_ne (Ne.symm neOld),
      record, show (cell .left (parentOf path) c (ptr l) (ptr r)).child .right = ptr r from rfl,
      bind_run (setChild_run present _ _), update_self]
    change (rbGetParent old >>= _) h₁ = _
    have parent : rbGetParent old h₁ = some (parentOf path, h₁) := by
      rw [rbGetParent, bind_run (deref_run presentOld), recordOld₁, cell_parentColor,
        packed_parent along.parent_aligned, pure_run]
    rw [bind_run parent, bind_run (replaceChild_run .left along₁ presentOld oldPath s), bind_run readL,
      bind_run (rbSetParent_run presentL s), bind_run read₃]
    exact run₄
  · rw [root₄, update_root, ptr_fill, ptr_join]
    refine relinked_root path old s ?_
    rw [update_root, update_root, update_root, holds.root, ptr_fill, ptr_join]
  · refine (shape_fill path _).mpr ⟨?_, ?_⟩
    · rw [ptr_join]
      exact (relinked_pathShape along₁ nodupPath s).congr fun q member => outer₄ q (by grind) (by grind)
    · refine (shape_join .left _ c s l r).mpr ⟨present, aligned, ?_, ?_, ?_⟩
      · rw [outer₄ s sL sR, relinked_outside sPath, update_self]
      · refine shapeL.reparent alignedOld nodupL ?_ ?_
        · intro q member below
          rw [same₄ q (not_ptr_of_not_mem (by grind)), update_of_ne below,
            same₂ q (by grind) (by grind)]
        · intro _
          rw [same₄ _ (not_ptr_of_not_mem (by grind [ptr_mem])), update_self,
            same₂ _ (by grind [ptr_mem]) (by grind [ptr_mem])]
      · refine shapeR₃.reparent alignedOld nodupR (fun q _ below => same₄ q (Or.inl below)) moved₄
  · rw [(Path.fill_perm path _).nodup_iff, ((join_perm .left c s l r).append_right _).nodup_iff]
    simp only [List.cons_append, List.nodup_cons, List.nodup_append, List.mem_append, not_or]
    exact ⟨⟨⟨sL, sR⟩, sPath⟩, ⟨nodupL, nodupR, apartLR⟩, nodupPath,
      fun q member => apartPath q member⟩
  · intro q outer
    rw [mem_fill, (join_perm .left c s l r).mem_iff] at outer
    simp only [List.mem_cons, List.mem_append, not_or] at outer
    obtain ⟨⟨neS, notL, notR⟩, notPath⟩ := outer
    by_cases self : q = old
    · subst self
      simp
    · rw [Function.update_of_ne self, outer₄ q notL notR, same₂ q neS notPath]
      refine holds.frame q ?_
      rw [mem_fill, (join_perm .left c old l r).mem_iff]
      simp [self, notL, notR, notPath]

/-- The in-order successor of a node with two children takes its place; the
hole it has left is below its new position. -/
theorem eraseInner_run (holds : Holds outside h (path.fill (join .left c old l r)))
    (nonemptyL : l ≠ .nil) (nonemptyR : r ≠ .nil) :
    ∃ (h' : RbHeap T) (inner : Path (Usz T)) (cs : Color) (s : Usz T) (rs : RedBlack.Tree (Usz T)),
      r = inner.fill (join .left cs s .nil rs) ∧ (∀ f ∈ inner, f.side = .left) ∧
      rbEraseInner old h = some
        ((ptr rs, parentOf (inner ++ ⟨.right, c, s, l⟩ :: path), colorWord cs), h') ∧
      Holds (Function.update outside old (h'.nodes old)) h'
        ((inner ++ ⟨.right, c, s, l⟩ :: path).fill rs) := by
  obtain ⟨inner, cs, s, rs, rfl, sides, descend⟩ := descend_run .left (Holds.to_far.mp holds) nonemptyR
  have presentOld := holds.present
  have readR := holds.far_run
  have deep := Holds.to_far.mp holds
  rw [← Path.fill_append] at deep
  obtain ⟨along, focus⟩ := deep.at_focus
  obtain ⟨presentS, alignedS, _, _, shapeS⟩ := (shape_join .left _ cs s .nil rs).mp focus
  have nodup := ((join_perm .left cs s .nil rs).append_right _).nodup_iff.mp deep.focus_nodup
  obtain ⟨h₁, adopted, _, run₁⟩ := adopt_run (pure_run (ptr rs)) shapeS
    (parentOf (inner ++ ⟨Side.left.flip, c, old, l⟩ :: path))
  have cut := deep.cut adopted
  have spliced : Path.fill (inner ++ ⟨Side.left.flip, c, old, l⟩ :: path) rs =
      path.fill (join .left c old l (inner.fill rs)) := by
    rw [Path.fill_append]
    rfl
  rw [spliced] at cut
  have fresh : s ∉ (path.fill (join .left c old l (inner.fill rs))).toList := by
    rw [← spliced, mem_fill, ← List.mem_append]
    exact (List.nodup_cons.mp nodup).1
  obtain ⟨h₂, run₂, holds₂⟩ := splice_run cut nonemptyL presentS alignedS fresh
  refine ⟨h₂, inner, cs, s, rs, rfl, sides, ?_, ?_⟩
  · rw [rbEraseInner, bind_run (show child .right old h = _ from readR), bind_run descend,
      bind_run (show child .right s h = _ from deep.far_run),
      bind_run deep.parent_run, bind_run deep.color_run]
    refine (run₁ _).trans ?_
    cases inner with
    | nil =>
      rw [List.nil_append, parentOf_cons, if_pos rfl]
      refine (bind_run (setChild_run presentOld .right (ptr rs))).trans ?_
      exact (bind_run run₂).trans rfl
    | cons f inner =>
      have left : f.side = .left := sides f (by simp)
      have apart : f.val ≠ old := by
        have nodupNodes := (List.nodup_append.mp (List.nodup_cons.mp nodup).2).2.1
        simp only [Path.nodes, List.cons_append, List.flatMap_cons, List.flatMap_append,
          List.nodup_cons] at nodupNodes
        rintro rfl
        exact nodupNodes.1 (by simp)
      have presentF : f.val ≠ null := along.1
      rw [List.cons_append, parentOf_cons, if_neg apart]
      rw [List.cons_append, relinked, left] at run₂
      refine (bind_run (setChild_run presentF .left (ptr rs))).trans ?_
      exact (bind_run run₂).trans rfl
  · rw [Path.fill_append]
    refine Holds.forget holds₂ ?_
    intro q outer ne
    have neS : q ≠ s := by
      rintro rfl
      exact outer (mem_fill.mpr (Or.inr (by simp [Path.nodes])))
    rw [Function.update_of_ne ne, Function.update_of_ne neS]

/-- Only the colours along a path matter for its balance. -/
theorem balanced_revalue {inner path : Path (Usz T)} {side side' : Side} {v v' : Usz T}
    (balanced : Path.Balanced (inner ++ ⟨side, c, v, l⟩ :: path) c' n) :
    Path.Balanced (inner ++ ⟨side', c, v', l⟩ :: path) c' n := by
  induction inner generalizing c' n with
  | nil => cases c <;> exact balanced
  | cons f inner ih =>
    obtain ⟨_, cf, _, _⟩ := f
    cases cf with
    | red => exact ⟨balanced.1, balanced.2.1, ih balanced.2.2⟩
    | black => exact ⟨balanced.1, ih balanced.2⟩

theorem Short.of_balanced (balanced : Balanced t c n) : Short t n := by
  cases c with
  | black => exact Or.inl ⟨balanced.color_eq, balanced⟩
  | red =>
    refine Or.inr ⟨balanced.color_eq, ?_⟩
    cases balanced with
    | red hl hr => exact .black hl hr

/-- Removing a node without a `d` child leaves the path balanced around its
other child, or one black node short there. -/
theorem eraseFinish_run {path : Path (Usz T)} (holds : Holds outside h (path.fill t))
    (balanced : Path.Balanced path c n) (removed : Balanced (join d c p .nil t) c n) :
    ∃ h' u, (if (colorWord c : Usz T) = rbBlack then rbEraseColor (ptr t) (parentOf path) else pure ()) h =
        some ((), h') ∧ Holds outside h' u ∧ u.toList = (path.fill t).toList ∧
      ∃ m, Balanced u .black m := by
  cases c with
  | red =>
    obtain ⟨_, _, rest⟩ := removed.of_join_red
    have kept : (colorWord .red : Usz T) ≠ rbBlack := by
      cases T <;> decide
    refine ⟨h, _, ?_, holds, rfl, balanced.to_black.fill rest⟩
    rw [if_neg kept, pure_run]
  | black =>
    obtain ⟨m, _, _, _, rfl, _, rest⟩ := removed.of_join_black
    obtain ⟨h', u, run, result⟩ := eraseColor_run ⟨holds, rfl, m, balanced, .of_balanced rest⟩
    refine ⟨h', u, ?_, result⟩
    rw [if_pos (show (colorWord .black : Usz T) = rbBlack from rfl), run]

theorem Path.before_of_left {path : Path (Usz T)} (sides : ∀ f ∈ path, f.side = .left) :
    path.before = [] := by
  induction path with
  | nil => rfl
  | cons f path ih =>
    obtain ⟨side, c, v, s⟩ := f
    obtain rfl : side = .left := sides ⟨side, c, v, s⟩ (by simp)
    exact ih fun f member => sides f (by simp [member])

/-- Up to its label `rb_erase` takes the given node out of the tree; what hung below the place that has become empty is
left there. -/
theorem detach_run (holds : Holds outside h (path.fill (join .left c p l r)))
    (balanced : Balanced (path.fill (join .left c p l r)) .black n) :
    ∃ (h' : RbHeap T) (path' : Path (Usz T)) (d : Side) (c' : Color) (s : Usz T) (t : RedBlack.Tree (Usz T)) (k : Nat),
      rbEraseDetach p h = some ((ptr t, parentOf path', colorWord c'), h') ∧
      Holds (Function.update outside p (h'.nodes p)) h' (path'.fill t) ∧
      (path'.fill t).toList = path.before ++ (l.toList ++ r.toList) ++ path.after ∧
      Path.Balanced path' c' k ∧ Balanced (join d c' s .nil t) c' k := by
  have shapes := ((shape_join .left _ c p l r).mp holds.at_focus.2).2.2.2
  have readL : child .left p h = some (ptr l, h) := holds.near_run
  have readR : child .right p h = some (ptr r, h) := holds.far_run
  by_cases emptyL : l = .nil
  · subst emptyL
    obtain ⟨h₁, run₁, holds₁⟩ := eraseLeaf_run holds
    obtain ⟨c', k, outer, removed⟩ := Path.Balanced.of_fill balanced
    obtain rfl : c = c' := (color_join .left c p .nil r).symm.trans removed.color_eq
    refine ⟨h₁, path, .left, c, p, r, k, ?_, holds₁, Path.fill_toList path r, outer, removed⟩
    rw [rbEraseDetach, bind_run readL, if_pos (ptr_nil), bind_run readR, run₁]
  · have presentL : ptr l ≠ null := shapes.1.ptr_ne_null emptyL
    by_cases emptyR : r = .nil
    · subst emptyR
      rw [← join_flip] at holds balanced
      obtain ⟨h₁, run₁, holds₁⟩ := eraseLeaf_run holds
      obtain ⟨c', k, outer, removed⟩ := Path.Balanced.of_fill balanced
      obtain rfl : c = c' := (color_join _ c p .nil l).symm.trans removed.color_eq
      refine ⟨h₁, path, _, c, p, l, k, ?_, holds₁, ?_, outer, removed⟩
      · rw [rbEraseDetach, bind_run readL, if_neg presentL, bind_run readR, if_pos ptr_nil,
          bind_run readL, run₁]
      · rw [Path.fill_toList, toList, List.append_nil]
    · have presentR : ptr r ≠ null := shapes.2.ptr_ne_null emptyR
      obtain ⟨h₁, inner, cs, s, rs, rfl, sides, run₁, holds₁⟩ := eraseInner_run holds emptyL emptyR
      have deep : Balanced ((inner ++ ⟨.right, c, p, l⟩ :: path).fill (join .left cs s .nil rs)) .black n := by
        rw [Path.fill_append]
        exact balanced
      obtain ⟨c', k, outer, removed⟩ := Path.Balanced.of_fill deep
      obtain rfl : cs = c' := (color_join .left cs s .nil rs).symm.trans removed.color_eq
      refine ⟨h₁, _, .left, cs, s, rs, k, ?_, holds₁, ?_, balanced_revalue outer, removed⟩
      · rw [rbEraseDetach, bind_run readL, if_neg presentL, bind_run readR, if_neg presentR, run₁]
      · rw [Path.fill_append, Path.fill, Path.fill_toList, Path.fill_toList inner, Path.before_of_left sides]
        simp [join, toList, Path.fill_toList, Path.before_of_left sides]

/-- `rb_erase` removes exactly the given node and restores the balance. -/
theorem erase_run (holds : Holds outside h (path.fill (join .left c p l r)))
    (balanced : Balanced (path.fill (join .left c p l r)) .black n) :
    ∃ h' u, rbErase p h = some ((), h') ∧ Holds (Function.update outside p (h'.nodes p)) h' u ∧
      u.toList = path.before ++ (l.toList ++ r.toList) ++ path.after ∧
      ∃ m, Balanced u .black m := by
  obtain ⟨h₁, path', d, c', s, t, k, run₁, holds₁, seq, outer, removed⟩ := detach_run holds balanced
  obtain ⟨h₂, u, run₂, holds₂, same, restored⟩ := eraseFinish_run holds₁ outer removed
  refine ⟨h₂, u, ?_, ?_, same.trans seq, restored⟩
  · rw [rbErase, bind_run run₁]
    exact run₂
  · exact holds₂.forget fun q _ ne => Function.update_of_ne ne _ _

end AvaModule.RbTree
