import AvaModule.Ds.RbTree.Heap

/-! When a heap holds a given tree. Reads, repaints and rotations are specified
once, at the focus of a path: each turns a heap that holds one tree into a heap
that holds another, and leaves every record outside the tree alone. -/
namespace AvaModule.RbTree
open RedBlack RedBlack.Tree

variable {T : Target}

/-- The address of a subtree, as its parent's child word holds it. -/
def ptr : RedBlack.Tree (Usz T) → Usz T
  | .nil => null
  | .node _ _ p _ => p

@[simp] theorem ptr_nil : ptr (.nil : RedBlack.Tree (Usz T)) = null := rfl

@[simp] theorem ptr_join (d : Side) (c : Color) (p : Usz T) (near far : RedBlack.Tree (Usz T)) :
    ptr (join d c p near far) = p := by
  cases d <;> rfl

@[simp] theorem ptr_paint (c : Color) (t : RedBlack.Tree (Usz T)) : ptr (t.paint c) = ptr t := by
  cases t <;> rfl

/-- The records of a tree whose root's parent is `parent`. -/
def Shape (nodes : Usz T → RbNode T) : Usz T → RedBlack.Tree (Usz T) → Prop
  | _, .nil => True
  | parent, .node c l p r => p ≠ null ∧ Aligned p ∧
      nodes p = cell .left parent c (ptr l) (ptr r) ∧ Shape nodes p l ∧ Shape nodes p r

def parentOf : Path (Usz T) → Usz T
  | [] => null
  | f :: _ => f.val

@[simp] theorem parentOf_cons (f : Frame (Usz T)) (path : Path (Usz T)) :
    parentOf (f :: path) = f.val := rfl

/-- The root's address when the focus of the path is at `hole`. -/
def topOf (hole : Usz T) : Path (Usz T) → Usz T
  | [] => hole
  | f :: path => topOf f.val path

/-- The records along a path whose focus is at address `hole`. -/
def PathShape (nodes : Usz T → RbNode T) : Usz T → Path (Usz T) → Prop
  | _, [] => True
  | hole, f :: path => f.val ≠ null ∧ Aligned f.val ∧
      nodes f.val = cell f.side (parentOf path) f.color hole (ptr f.sibling) ∧
      Shape nodes f.val f.sibling ∧ PathShape nodes f.val path

/-- The heap holds exactly `t`; outside it the records are those of `outside`. -/
structure Holds (outside : Usz T → RbNode T) (h : RbHeap T) (t : RedBlack.Tree (Usz T)) : Prop where
  root : h.rbNode = ptr t
  shape : Shape h.nodes null t
  nodup : t.toList.Nodup
  frame : ∀ q, q ∉ t.toList → h.nodes q = outside q

variable {nodes nodes' : Usz T → RbNode T} {h h' : RbHeap T} {outside : Usz T → RbNode T}

section Shapes

theorem shape_join (d : Side) (parent : Usz T) (c : Color) (p : Usz T) (near far : RedBlack.Tree (Usz T)) :
    Shape nodes parent (join d c p near far) ↔ p ≠ null ∧ Aligned p ∧
      nodes p = cell d parent c (ptr near) (ptr far) ∧ Shape nodes p near ∧ Shape nodes p far := by
  cases d
  · rfl
  · simp only [join, Shape, ← cell_flip .left, Side.flip]
    tauto

theorem Shape.ptr_ne_null {t : RedBlack.Tree (Usz T)} (shape : Shape nodes parent t) (nonempty : t ≠ .nil) :
    ptr t ≠ null := by
  cases t with
  | nil => exact absurd rfl nonempty
  | node c l p r => exact shape.1

theorem Shape.ptr_eq_null {t : RedBlack.Tree (Usz T)} (shape : Shape nodes parent t) :
    ptr t = null ↔ t = .nil := by
  constructor
  · intro zero
    by_contra nonempty
    exact shape.ptr_ne_null nonempty zero
  · rintro rfl
    rfl

theorem Shape.mem_ne_null {t : RedBlack.Tree (Usz T)} (shape : Shape nodes parent t) :
    ∀ q ∈ t.toList, q ≠ null ∧ Aligned q := by
  induction t generalizing parent with
  | nil => simp [toList]
  | node c l p r ihl ihr =>
    obtain ⟨present, aligned, _, left, right⟩ := shape
    intro q member
    simp only [toList, List.mem_append, List.mem_cons] at member
    rcases member with member | rfl | member
    · exact ihl left q member
    · exact ⟨present, aligned⟩
    · exact ihr right q member

theorem ptr_mem {t : RedBlack.Tree (Usz T)} (nonempty : t ≠ .nil) : ptr t ∈ t.toList := by
  cases t with
  | nil => exact absurd rfl nonempty
  | node c l p r => simp [ptr, toList]

theorem Shape.congr {t : RedBlack.Tree (Usz T)} (shape : Shape nodes parent t)
    (same : ∀ q ∈ t.toList, nodes' q = nodes q) : Shape nodes' parent t := by
  induction t generalizing parent with
  | nil => trivial
  | node c l p r ihl ihr =>
    obtain ⟨present, aligned, record, left, right⟩ := shape
    refine ⟨present, aligned, (same p (by simp [toList])).trans record, ?_, ?_⟩
    · exact ihl left fun q member => same q (by simp [toList, member])
    · exact ihr right fun q member => same q (by simp [toList, member])

/-- A subtree moves to another parent when its root's word is rewritten. -/
theorem Shape.reparent {t : RedBlack.Tree (Usz T)} (shape : Shape nodes parent t) (aligned : Aligned parent)
    (nodup : t.toList.Nodup)
    (below : ∀ q ∈ t.toList, q ≠ ptr t → nodes' q = nodes q)
    (top : t ≠ .nil → nodes' (ptr t) = (nodes (ptr t)).reparent parent') :
    Shape nodes' parent' t := by
  cases t with
  | nil => trivial
  | node c l p r =>
    obtain ⟨present, alignedP, record, left, right⟩ := shape
    simp only [toList, List.nodup_append, List.nodup_cons] at nodup
    obtain ⟨_, ⟨notRight, _⟩, apart⟩ := nodup
    refine ⟨present, alignedP, ?_, ?_, ?_⟩
    · have moved := top (by simp)
      simp only [ptr] at moved
      rw [moved, record, cell_reparent aligned]
    · refine left.congr fun q member => below q (by simp [toList, member]) ?_
      exact apart q member p (by simp)
    · refine right.congr fun q member => below q (by simp [toList, member]) ?_
      rintro rfl
      exact notRight member

theorem PathShape.congr {path : Path (Usz T)} {hole : Usz T} (shape : PathShape nodes hole path)
    (same : ∀ q ∈ path.nodes, nodes' q = nodes q) : PathShape nodes' hole path := by
  induction path generalizing hole with
  | nil => trivial
  | cons f path ih =>
    obtain ⟨present, aligned, record, sibling, outer⟩ := shape
    simp only [Path.nodes, List.flatMap_cons, List.cons_append, List.mem_cons, List.mem_append] at same
    refine ⟨present, aligned, (same _ (Or.inl rfl)).trans record, ?_, ?_⟩
    · exact sibling.congr fun q member => same q (Or.inr (Or.inl member))
    · exact ih outer fun q member => same q (Or.inr (Or.inr member))

theorem shape_fill (path : Path (Usz T)) (t : RedBlack.Tree (Usz T)) :
    Shape nodes null (path.fill t) ↔
      PathShape nodes (ptr t) path ∧ Shape nodes (parentOf path) t := by
  induction path generalizing t with
  | nil => simp [Path.fill, PathShape, parentOf]
  | cons f path ih =>
    simp only [Path.fill, ih, ptr_join, shape_join, PathShape, parentOf]
    tauto

theorem ptr_fill (path : Path (Usz T)) (t : RedBlack.Tree (Usz T)) : ptr (path.fill t) = topOf (ptr t) path := by
  induction path generalizing t with
  | nil => rfl
  | cons f path ih => simp only [Path.fill, ih, ptr_join, topOf]

theorem PathShape.parent_aligned {path : Path (Usz T)} (shape : PathShape nodes hole path) :
    Aligned (parentOf path) := by
  cases path with
  | nil => exact aligned_null
  | cons f path => exact shape.2.1

theorem PathShape.parent_eq_null {path : Path (Usz T)} (shape : PathShape nodes hole path) :
    parentOf path = null ↔ path = [] := by
  cases path with
  | nil => simp [parentOf]
  | cons f path => simp [parentOf, shape.1]

/-- The records of a path after its innermost node's word for the focus is
pointed at `new`. -/
def relinked (h : RbHeap T) (path : Path (Usz T)) (new : Usz T) : RbHeap T :=
  match path with
  | [] => { h with rbNode := new }
  | f :: _ => h.update f.val ((h.nodes f.val).setChild f.side new)

theorem relinked_outside {path : Path (Usz T)} (outer : q ∉ path.nodes) (new : Usz T) :
    (relinked h path new).nodes q = h.nodes q := by
  cases path with
  | nil => rfl
  | cons f path =>
    refine update_of_ne ?_ _
    rintro rfl
    exact outer (by simp [Path.nodes])

theorem relinked_root (path : Path (Usz T)) (old new : Usz T) (root : h.rbNode = topOf old path) :
    (relinked h path new).rbNode = topOf new path := by
  cases path with
  | nil => rfl
  | cons f path => exact root

theorem relinked_pathShape {path : Path (Usz T)} (shape : PathShape h.nodes old path)
    (nodup : path.nodes.Nodup) (new : Usz T) : PathShape (relinked h path new).nodes new path := by
  cases path with
  | nil => trivial
  | cons f path =>
    obtain ⟨present, aligned, record, sibling, outer⟩ := shape
    simp only [Path.nodes, List.flatMap_cons, List.cons_append, List.nodup_cons, List.mem_append,
      not_or] at nodup
    obtain ⟨⟨notSibling, notOuter⟩, _⟩ := nodup
    refine ⟨present, aligned, ?_, ?_, ?_⟩
    · simp only [relinked, update_self, record, cell_setChild]
    · refine sibling.congr fun q member => update_of_ne ?_ _
      rintro rfl
      exact notSibling member
    · refine outer.congr fun q member => update_of_ne ?_ _
      rintro rfl
      exact notOuter member

/-- `replaceChild` finds the word that holds the focus from either side. -/
theorem replaceChild_run (d : Side) {path : Path (Usz T)} (shape : PathShape h.nodes old path)
    (present : old ≠ null) (apart : old ∉ path.nodes) (new : Usz T) :
    replaceChild d (parentOf path) old new h = some ((), relinked h path new) := by
  cases path with
  | nil => simp [replaceChild, parentOf, relinked]
  | cons f path =>
    obtain ⟨presentF, _, record, sibling, _⟩ := shape
    have other : ptr f.sibling ≠ old := by
      intro same
      by_cases empty : f.sibling = .nil
      · rw [empty] at same
        exact present same.symm
      · have member := ptr_mem empty
        rw [same] at member
        exact apart (by simp [Path.nodes, member])
    rw [replaceChild, if_pos (show parentOf (f :: path) ≠ null from presentF)]
    simp only [parentOf]
    rw [bind_run (child_run presentF d), record]
    by_cases same : d = f.side
    · subst same
      rw [cell_child, if_pos rfl, setChild_run presentF]
      rfl
    · have flipped : d = f.side.flip := by
        revert same
        cases d <;> cases f.side <;> simp [Side.flip]
      subst flipped
      rw [cell_child_flip, if_neg other, setChild_run presentF, Side.flip_flip]
      rfl

end Shapes

/-- A record outside the tree can be rewritten freely. -/
theorem Holds.write_outside {t : RedBlack.Tree (Usz T)} (holds : Holds outside h t) (outer : p ∉ t.toList)
    (record : RbNode T) : Holds (Function.update outside p record) (h.update p record) t := by
  refine ⟨holds.root, ?_, holds.nodup, ?_⟩
  · refine holds.shape.congr fun q member => update_of_ne ?_ _
    rintro rfl
    exact outer member
  · intro q outer'
    by_cases self : q = p
    · rw [self, update_self, Function.update_self]
    · rw [update_of_ne self, Function.update_of_ne self, holds.frame q outer']

section Focus

theorem Holds.at_focus {path : Path (Usz T)} {t : RedBlack.Tree (Usz T)} (holds : Holds outside h (path.fill t)) :
    PathShape h.nodes (ptr t) path ∧ Shape h.nodes (parentOf path) t :=
  (shape_fill path t).mp holds.shape

theorem Holds.focus_nodup {path : Path (Usz T)} {t : RedBlack.Tree (Usz T)}
    (holds : Holds outside h (path.fill t)) : (t.toList ++ path.nodes).Nodup :=
  (Path.fill_perm path t).nodup_iff.mp holds.nodup

/-- Rearranging the nodes of the focus keeps the rest of the heap's contract. -/
theorem Holds.refocus {path : Path (Usz T)} {t u : RedBlack.Tree (Usz T)}
    (holds : Holds outside h (path.fill t)) (perm : u.toList.Perm t.toList)
    (root : h'.rbNode = topOf (ptr u) path)
    (along : PathShape h'.nodes (ptr u) path) (shape : Shape h'.nodes (parentOf path) u)
    (frame : ∀ q, q ∉ (path.fill t).toList → h'.nodes q = h.nodes q) :
    Holds outside h' (path.fill u) := by
  have same : (path.fill u).toList.Perm (path.fill t).toList :=
    (Path.fill_perm path u).trans ((perm.append_right _).trans (Path.fill_perm path t).symm)
  refine ⟨root.trans (ptr_fill path u).symm, (shape_fill path u).mpr ⟨along, shape⟩,
    same.nodup_iff.mpr holds.nodup, ?_⟩
  intro q outer
  have outer' : q ∉ (path.fill t).toList := fun member => outer (same.mem_iff.mpr member)
  rw [frame q outer', holds.frame q outer']

theorem mem_fill {path : Path (Usz T)} {t : RedBlack.Tree (Usz T)} :
    q ∈ (path.fill t).toList ↔ q ∈ t.toList ∨ q ∈ path.nodes := by
  rw [(Path.fill_perm path t).mem_iff, List.mem_append]

variable {path : Path (Usz T)} {d : Side} {c : Color} {p : Usz T} {near far : RedBlack.Tree (Usz T)}

theorem Holds.present (holds : Holds outside h (path.fill (join d c p near far))) : p ≠ null :=
  ((shape_join d _ c p near far).mp holds.at_focus.2).1

theorem Holds.record (holds : Holds outside h (path.fill (join d c p near far))) :
    h.nodes p = cell d (parentOf path) c (ptr near) (ptr far) :=
  ((shape_join d _ c p near far).mp holds.at_focus.2).2.2.1

theorem Holds.near_run (holds : Holds outside h (path.fill (join d c p near far))) :
    child d p h = some (ptr near, h) := by
  rw [child_run holds.present, holds.record, cell_child]

theorem Holds.far_run (holds : Holds outside h (path.fill (join d c p near far))) :
    child d.flip p h = some (ptr far, h) := by
  rw [child_run holds.present, holds.record, cell_child_flip]

theorem Holds.parent_run (holds : Holds outside h (path.fill (join d c p near far))) :
    rbGetParent p h = some (parentOf path, h) := by
  rw [rbGetParent, bind_run (deref_run holds.present), holds.record, cell_parentColor,
    packed_parent holds.at_focus.1.parent_aligned]
  rfl

theorem Holds.color_run (holds : Holds outside h (path.fill (join d c p near far))) :
    rbGetColor p h = some (colorWord c, h) := by
  rw [rbGetColor, bind_run (deref_run holds.present), holds.record, cell_parentColor,
    packed_color holds.at_focus.1.parent_aligned]
  rfl

theorem Holds.isRed_run (holds : Holds outside h (path.fill (join d c p near far))) :
    rbIsRed p h = some (decide (c = .red), h) := by
  rw [rbIsRed, bind_run holds.color_run]
  have same : decide ((colorWord c : Usz T) = colorWord .red) = decide (c = .red) :=
    decide_eq_decide.mpr colorWord_inj
  exact congrArg (fun b => some (b, h)) same

theorem Holds.isBlack_run (holds : Holds outside h (path.fill (join d c p near far))) :
    rbIsBlack p h = some (decide (c = .black), h) := by
  rw [rbIsBlack, bind_run holds.color_run]
  have same : decide ((colorWord c : Usz T) = colorWord .black) = decide (c = .black) :=
    decide_eq_decide.mpr colorWord_inj
  exact congrArg (fun b => some (b, h)) same

/-- Repainting the focus. -/
theorem Holds.setColor (holds : Holds outside h (path.fill (join d c p near far))) (c' : Color) :
    ∃ h', rbSetColor p (colorWord c') h = some ((), h') ∧
      Holds outside h' (path.fill (join d c' p near far)) := by
  refine ⟨_, rbSetColor_run holds.present c', ?_⟩
  obtain ⟨along, focus⟩ := holds.at_focus
  have nodup := holds.focus_nodup
  have perm : (p :: (near.toList ++ far.toList) ++ path.nodes).Nodup :=
    ((join_perm d c p near far).append_right _).nodup_iff.mp nodup
  simp only [List.cons_append, List.nodup_cons, List.mem_append, not_or] at perm
  obtain ⟨⟨⟨notNear, notFar⟩, notPath⟩, _⟩ := perm
  obtain ⟨present, aligned, record, left, right⟩ := (shape_join d _ c p near far).mp focus
  refine holds.refocus ?_ ?_ ?_ ?_ ?_
  · exact (join_perm d c' p near far).trans (join_perm d c p near far).symm
  · rw [update_root, holds.root, ptr_fill, ptr_join, ptr_join]
  · rw [ptr_join]
    rw [ptr_join] at along
    refine along.congr fun q member => update_of_ne ?_ _
    rintro rfl
    exact notPath member
  · refine (shape_join d _ c' p near far).mpr ⟨present, aligned, ?_, ?_, ?_⟩
    · rw [update_self, record, cell_repaint along.parent_aligned]
    · refine left.congr fun q member => update_of_ne ?_ _
      rintro rfl
      exact notNear member
    · refine right.congr fun q member => update_of_ne ?_ _
      rintro rfl
      exact notFar member
  · intro q outer
    refine update_of_ne ?_ _
    rintro rfl
    exact outer (mem_fill.mpr (Or.inl ((join_perm d c q near far).mem_iff.mpr (by simp))))

theorem Holds.setBlack (holds : Holds outside h (path.fill (join d c p near far))) :
    ∃ h', rbSetBlack p h = some ((), h') ∧
      Holds outside h' (path.fill (join d .black p near far)) :=
  holds.setColor .black

theorem Holds.setRed (holds : Holds outside h (path.fill (join d c p near far))) :
    ∃ h', rbSetRed p h = some ((), h') ∧
      Holds outside h' (path.fill (join d .red p near far)) :=
  holds.setColor .red

/-- Stepping down to the near child. -/
theorem Holds.to_near : Holds outside h (path.fill (join d c p near far)) ↔
    Holds outside h (Path.fill (⟨d, c, p, far⟩ :: path) near) := Iff.rfl

/-- Stepping down to the far child. -/
theorem Holds.to_far : Holds outside h (path.fill (join d c p near far)) ↔
    Holds outside h (Path.fill (⟨d.flip, c, p, near⟩ :: path) far) := by
  rw [Path.fill, join_flip]

theorem Holds.near_ne_far (holds : Holds outside h (path.fill (join d c p near far)))
    (nonempty : near ≠ .nil) : ptr far ≠ ptr near := by
  have nodup := ((join_perm d c p near far).append_right path.nodes).nodup_iff.mp holds.focus_nodup
  simp only [List.cons_append, List.nodup_cons, List.nodup_append] at nodup
  obtain ⟨_, ⟨_, _, apart⟩, _⟩ := nodup
  have nearPresent := ((shape_join d _ c p near far).mp holds.at_focus.2).2.2.2.1.ptr_ne_null nonempty
  intro same
  by_cases empty : far = .nil
  · subst empty
    exact nearPresent same.symm
  · exact apart _ (ptr_mem nonempty) _ (ptr_mem empty) same.symm

end Focus

end AvaModule.RbTree
