import AvaModule.Ds.RbTree.Shape

/-! Rotation at the focus of a path. The heap passes through states that hold
no tree; only the records that change are tracked between them. -/
namespace AvaModule.RbTree
open RedBlack RedBlack.Tree

variable {T : Target} {h : RbHeap T} {outside : Usz T → RbNode T}

/-- The heap after the parent word of a possibly absent subtree is set to `q`. -/
structure Adopted (h h' : RbHeap T) (t : RedBlack.Tree (Usz T)) (q : Usz T) : Prop where
  root : h'.rbNode = h.rbNode
  same : ∀ p, p ≠ ptr t ∨ t = .nil → h'.nodes p = h.nodes p
  moved : t ≠ .nil → h'.nodes (ptr t) = (h.nodes (ptr t)).reparent q

theorem adopt_run {β : Type} {t : RedBlack.Tree (Usz T)} {get : RbM T (Usz T)} (value : get h = some (ptr t, h))
    (shape : Shape h.nodes parent t) (q : Usz T) :
    ∃ h', Adopted h h' t q ∧
      (if ptr t ≠ null then do let p ← get; rbSetParent p q else pure ()) h = some ((), h') ∧
      ∀ k : RbM T β, (if ptr t ≠ null then do let p ← get; rbSetParent p q; k else k) h = k h' := by
  by_cases empty : t = .nil
  · subst empty
    exact ⟨h, ⟨rfl, fun _ _ => rfl, fun absent => absurd rfl absent⟩, by simp,
      fun k => by rw [if_neg (by simp)]⟩
  · have present := shape.ptr_ne_null empty
    refine ⟨h.update (ptr t) ((h.nodes (ptr t)).reparent q), ⟨rfl, ?_, ?_⟩, ?_, ?_⟩
    · rintro p (ne | none)
      · exact update_of_ne ne _
      · exact absurd none empty
    · intro _
      exact update_self _ _ _
    · rw [if_pos present, bind_run value, rbSetParent_run present q]
    · intro k
      rw [if_pos present, bind_run value, bind_run (rbSetParent_run present q)]

theorem not_ptr_of_not_mem {t : RedBlack.Tree (Usz T)} {p : Usz T} (outside : p ∉ t.toList) :
    p ≠ ptr t ∨ t = .nil := by
  by_cases empty : t = .nil
  · exact Or.inr empty
  · exact Or.inl fun same => outside (same ▸ ptr_mem empty)

variable {path : Path (Usz T)} {d : Side} {c c' : Color} {n m : Usz T} {a b e : RedBlack.Tree (Usz T)}

/-- Rotation towards `d` brings the far child to the top of the focus. -/
theorem Holds.rotate
    (holds : Holds outside h (path.fill (join d c n a (join d c' m b e)))) :
    ∃ h', rbRotate d n h = some ((), h') ∧
      Holds outside h' (path.fill (join d c' m (join d c n a b) e)) := by
  obtain ⟨along, focus⟩ := holds.at_focus
  rw [ptr_join] at along
  have flat : (join d c n a (join d c' m b e)).toList.Perm
      (n :: (a.toList ++ m :: (b.toList ++ e.toList))) :=
    (join_perm d c n a _).trans (((join_perm d c' m b e).append_left a.toList).cons n)
  have nodup := (flat.append_right path.nodes).nodup_iff.mp holds.focus_nodup
  obtain ⟨presentN, alignedN, recordN, shapeA, inner⟩ := (shape_join d _ c n a _).mp focus
  obtain ⟨presentM, alignedM, recordM, shapeB, shapeE⟩ := (shape_join d _ c' m b e).mp inner
  rw [ptr_join] at recordN
  simp only [List.nodup_append, List.cons_append, List.nodup_cons, List.mem_append, List.mem_cons,
    not_or] at nodup
  obtain ⟨⟨⟨notA, neM, notB, notE⟩, notPath⟩, ⟨nodupA, ⟨⟨mB, mE⟩, nodupB, nodupE, apartBE⟩, apartA⟩,
    nodupPath, apartPath⟩ := nodup
  have read : child d m h = some (ptr b, h) := by rw [child_run presentM, recordM, cell_child]
  rw [rbRotate, bind_run holds.far_run, ptr_join, bind_run holds.parent_run, bind_run read,
    bind_run (setChild_run presentN _ _), recordN, cell_setChild_flip]
  beta_reduce
  let h₁ := h.update n (cell d (parentOf path) c (ptr a) (ptr b))
  have recordM₁ : h₁.nodes m = cell d n c' (ptr b) (ptr e) :=
    (update_of_ne (Ne.symm neM) _).trans recordM
  have shapeB₁ : Shape h₁.nodes m b := shapeB.congr fun q member => update_of_ne (by grind) _
  have read₁ : child d m h₁ = some (ptr b, h₁) := by rw [child_run presentM, recordM₁, cell_child]
  obtain ⟨h₂, ⟨root₂, same₂, moved₂⟩, _, run₂⟩ := adopt_run read₁ shapeB₁ n
  have recordM₂ := (same₂ m (not_ptr_of_not_mem mB)).trans recordM₁
  have recordN₂ : h₂.nodes n = cell d (parentOf path) c (ptr a) (ptr b) :=
    (same₂ n (not_ptr_of_not_mem notB)).trans (update_self _ _ _)
  let h₃ := h₂.update m (cell d n c' n (ptr e))
  let h₄ := h₃.update m (cell d (parentOf path) c' n (ptr e))
  have same₄ : ∀ q, q ∉ n :: m :: b.toList → h₄.nodes q = h.nodes q := by
    intro q others
    simp only [List.mem_cons, not_or] at others
    rw [update_of_ne others.2.1, update_of_ne others.2.1,
      same₂ q (not_ptr_of_not_mem others.2.2), update_of_ne others.1]
  have along₄ : PathShape h₄.nodes n path := along.congr fun q member => same₄ q (by grind)
  let h₅ := relinked h₄ path m
  have recordN₅ : h₅.nodes n = cell d (parentOf path) c (ptr a) (ptr b) := by
    rw [relinked_outside notPath, update_of_ne neM, update_of_ne neM, recordN₂]
  have recordM₅ : h₅.nodes m = cell d (parentOf path) c' n (ptr e) := by
    rw [relinked_outside (by grind), update_self]
  let h₆ := h₅.update n (cell d m c (ptr a) (ptr b))
  have same₆ : ∀ q, q ∉ n :: m :: b.toList → q ∉ path.nodes → h₆.nodes q = h.nodes q := by
    intro q others outer
    rw [update_of_ne (by grind), relinked_outside outer, same₄ q others]
  have inner₆ : ∀ q ∈ b.toList, h₆.nodes q = h₂.nodes q := by
    intro q member
    rw [update_of_ne (by grind), relinked_outside (by grind), update_of_ne (by grind),
      update_of_ne (by grind)]
  have root : h₄.rbNode = topOf n path := by
    have root := holds.root
    rw [ptr_fill, ptr_join] at root
    exact root₂.trans root
  refine ⟨h₆, ?_, holds.refocus ?_ ?_ ?_ ?_ ?_⟩
  · rw [run₂, bind_run (setChild_run presentM _ _), recordM₂, cell_setChild,
      bind_run (rbSetParent_run presentM _), update_self, cell_reparent alignedN,
      bind_run (replaceChild_run d along₄ presentN notPath m), rbSetParent_run presentN, recordN₅,
      cell_reparent along.parent_aligned]
  · exact .of_eq (rotate_toList d c c' c c' n m a b e).symm
  · rw [ptr_join]
    exact relinked_root path n m root
  · rw [ptr_join]
    exact (relinked_pathShape along₄ nodupPath m).congr fun q member => update_of_ne (by grind) _
  · refine (shape_join d _ c' m _ e).mpr ⟨presentM, alignedM, ?_, ?_, ?_⟩
    · rw [ptr_join, update_of_ne (Ne.symm neM), recordM₅]
    · refine (shape_join d m c n a b).mpr ⟨presentN, alignedN, update_self _ _ _, ?_, ?_⟩
      · exact shapeA.congr fun q member => same₆ q (by grind) (by grind)
      · refine shapeB.reparent alignedM nodupB ?_ ?_
        · intro q member below
          rw [inner₆ q member, same₂ q (Or.inl below), update_of_ne (by grind)]
        · intro nonempty
          rw [inner₆ _ (ptr_mem nonempty), moved₂ nonempty, update_of_ne (by grind [ptr_mem])]
    · exact shapeE.congr fun q member => same₆ q (by grind) (by grind)
  · intro q outer
    rw [mem_fill, not_or, flat.mem_iff] at outer
    exact same₆ q (by grind) outer.2

end AvaModule.RbTree
