import AvaModule.Ds.RbTree.Runs

/-! What one insertion and one deletion do to the in-order sequence of a valid
tree. Validity is stated on the words of the heap; a run that succeeds has
terminated and met no NULL dereference. -/
namespace AvaModule.RbTree
open RedBlack RedBlack.Tree

variable {T : Target} {h : RbHeap T} {t : RedBlack.Tree (Usz T)} {parent p q : Usz T}

/-- A red-black tree as `rb_link_node` and the colour macros store it: the two
low bits of a node's word hold nothing but its colour. -/
structure ValidTree (h : RbHeap T) (t : RedBlack.Tree (Usz T)) : Prop where
  pointers : PointerTree h null h.rbNode t
  words : ∀ p ∈ t.toList, Aligned p ∧ (h.nodes p).rbParentColor &&& 2 = 0
  distinct : t.toList.Nodup
  balanced : ∃ n, Balanced t .black n

/-- The in-order sequence `new` is `old` with `node` put next to the node that
owns the slot, or alone when the slot is the empty root. -/
def Inserted (node : Usz T) (old new : List (Usz T)) : RbLink T → Prop
  | .root => old = [] ∧ new = [node]
  | .child .left q => ∃ xs ys, old = xs ++ q :: ys ∧ new = xs ++ node :: q :: ys
  | .child .right q => ∃ xs ys, old = xs ++ q :: ys ∧ new = xs ++ q :: node :: ys

section Validity

theorem eq_packed {word : Usz T} {c : Color} (up : word &&& ~~~3 = parent)
    (color : word &&& 1 = colorWord c) (clear : word &&& 2 = 0) : word = packed parent c := by
  have masks : (~~~3 ||| (1 ||| 2) : Usz T) = BitVec.allOnes _ := by cases T <;> decide
  calc word = word &&& (~~~3 ||| (1 ||| 2)) := by rw [masks, BitVec.and_allOnes]
    _ = parent ||| (colorWord c ||| 0) := by
      rw [BitVec.and_or_distrib_left, BitVec.and_or_distrib_left, up, color, clear]
    _ = packed parent c := by rw [packed, show colorWord c ||| (0 : Usz T) = colorWord c from BitVec.or_zero]

theorem PointerTree.shape (tree : PointerTree h parent p t)
    (words : ∀ q ∈ t.toList, Aligned q ∧ (h.nodes q).rbParentColor &&& 2 = 0) :
    Shape h.nodes parent t := by
  induction t generalizing parent p with
  | nil => trivial
  | node c l v r ihl ihr =>
    obtain ⟨rfl, present, up, color, left, right⟩ := tree
    obtain ⟨aligned, clear⟩ := words p (by simp [toList])
    refine ⟨present, aligned, ?_, ?_, ?_⟩
    · rw [← left.eq_ptr, ← right.eq_ptr, cell, ← eq_packed up color clear]
    · exact ihl left fun q member => words q (by simp [toList, member])
    · exact ihr right fun q member => words q (by simp [toList, member])

theorem ValidTree.holds (valid : ValidTree h t) : Holds h.nodes h t :=
  ⟨valid.pointers.eq_ptr, valid.pointers.shape valid.words, valid.distinct, fun _ _ => rfl⟩

theorem Shape.word_clear (shape : Shape h.nodes parent t) (aligned : Aligned parent) :
    ∀ q ∈ t.toList, (h.nodes q).rbParentColor &&& 2 = 0 := by
  induction t generalizing parent with
  | nil => simp [toList]
  | node c l v r ihl ihr =>
    obtain ⟨_, alignedV, record, left, right⟩ := shape
    intro q member
    simp only [toList, List.mem_append, List.mem_cons] at member
    rcases member with member | rfl | member
    · exact ihl left alignedV q member
    · have mask : (3 : Usz T) &&& 2 = 2 := by cases T <;> decide
      have low : (colorWord c : Usz T) &&& 2 = 0 := by cases T <;> cases c <;> decide
      rw [record, cell_parentColor, ← mask, ← BitVec.and_assoc, packed_low aligned, low]
    · exact ihr right alignedV q member

theorem Holds.validTree (holds : Holds outside h t) (balanced : ∃ n, Balanced t .black n) :
    ValidTree h t := by
  refine ⟨?_, fun q member => ⟨?_, ?_⟩, holds.nodup, balanced⟩
  · rw [holds.root]
    exact holds.shape.pointerTree aligned_null
  · exact (holds.shape.mem_ne_null q member).2
  · exact holds.shape.word_clear aligned_null q member

/-- A black root with two red children. -/
def threeNodes : RbHeap .host := ⟨fun p => if p = 16 then ⟨1, 24, 8⟩ else ⟨16, 0, 0⟩, 16⟩

def threeTree : RedBlack.Tree (Usz .host) :=
  .node .black (.node .red .nil 8 .nil) 16 (.node .red .nil 24 .nil)

theorem threeNodes_valid : ValidTree threeNodes threeTree := by
  have leaf : ∀ p : Usz .host, p = 8 ∨ p = 24 →
      PointerTree threeNodes 16 p (.node .red .nil p .nil) := by
    rintro p (rfl | rfl) <;> exact ⟨rfl, by decide, by decide, by decide, rfl, rfl⟩
  have words : ∀ p ∈ threeTree.toList, Aligned p ∧ (threeNodes.nodes p).rbParentColor &&& 2 = 0 := by
    intro p member
    simp only [threeTree, toList, List.nil_append, List.cons_append, List.mem_cons, List.not_mem_nil,
      or_false] at member
    rcases member with rfl | rfl | rfl <;> exact ⟨by decide, by decide⟩
  refine ⟨?_, words, by decide, 1, .black (.red .nil .nil) (.red .nil .nil)⟩
  exact ⟨rfl, by decide, by decide, by decide, leaf 8 (Or.inl rfl), leaf 24 (Or.inr rfl)⟩

end Validity

section Insertion

/-- Filling the hole of a path puts the node next to the path's innermost node. -/
theorem inserted_path (node : Usz T) (path : Path (Usz T)) :
    Inserted node (path.before ++ path.after) (path.before ++ node :: path.after) (linkOf path) := by
  cases path with
  | nil => exact ⟨rfl, rfl⟩
  | cons f path =>
    obtain ⟨side, c, v, s⟩ := f
    cases side with
    | left => exact ⟨_, _, rfl, rfl⟩
    | right =>
      refine ⟨Path.before path ++ s.toList, Path.after path, ?_, ?_⟩ <;>
        simp [Path.before, Path.after]

/-- `rb_link_node` at an empty slot of a valid tree followed by
`rb_insert_color` leaves a valid tree whose in-order sequence has the new node
directly before or after the owner of the slot. -/
theorem insertion_inOrder (valid : ValidTree h t) {node : Usz T} {link : RbLink T}
    (slot : EmptySlot h parent link) (present : node ≠ null) (aligned : Aligned node)
    (fresh : node ∉ t.toList) :
    ∃ h' t', (RbOp.insert node parent link).run h = some ((), h') ∧ ValidTree h' t' ∧
      Inserted node t.toList t'.toList link := by
  obtain ⟨path, rfl, rfl, rfl⟩ := valid.holds.slot slot
  obtain ⟨n, balanced⟩ := valid.balanced
  obtain ⟨h', t', m, run, holds', balanced', seq⟩ :=
    insert_run valid.holds balanced present aligned fresh
  refine ⟨h', t', run, holds'.validTree ⟨m, balanced'⟩, ?_⟩
  rw [seq, Path.fill_toList, toList, List.append_nil]
  exact inserted_path node path

/-- A node linked to the left of a red node with a red uncle. -/
theorem insertion_inOrder_red_uncle :
    ∃ h' t', (RbOp.insert 4 8 (.child .left 8)).run threeNodes = some ((), h') ∧ ValidTree h' t' ∧
      Inserted 4 [8, 16, 24] t'.toList (.child .left (8 : Usz .host)) := by
  have root : InTree threeNodes 16 := .root (by decide)
  have left : InTree threeNodes 8 := .child .left root (by decide)
  exact insertion_inOrder threeNodes_valid ⟨rfl, left, by decide⟩ (by decide) (by decide) (by decide)

end Insertion

section Deletion

/-- Child and parent words of a held tree's nodes are NULL or name its nodes. -/
theorem Shape.neighbor_mem (shape : Shape h.nodes parent t) (aligned : Aligned parent)
    (member : p ∈ t.toList) :
    ((h.nodes p).rbParentColor &&& ~~~3 = parent ∨ (h.nodes p).rbParentColor &&& ~~~3 ∈ t.toList) ∧
      ∀ d, (h.nodes p).child d = null ∨ (h.nodes p).child d ∈ t.toList := by
  refine ⟨?_, fun d => ?_⟩
  · induction t generalizing parent with
    | nil => simp [toList] at member
    | node c l v r ihl ihr =>
      obtain ⟨_, alignedV, record, left, right⟩ := shape
      simp only [toList, List.mem_append, List.mem_cons] at member ⊢
      rcases member with member | rfl | member
      · rcases ihl left alignedV member with same | inside
        · exact Or.inr (Or.inr (Or.inl same))
        · exact Or.inr (Or.inl inside)
      · rw [record, cell_parentColor, packed_parent aligned]
        exact Or.inl rfl
      · rcases ihr right alignedV member with same | inside
        · exact Or.inr (Or.inr (Or.inl same))
        · exact Or.inr (Or.inr (Or.inr inside))
  · by_cases absent : (h.nodes p).child d = null
    · exact Or.inl absent
    · exact Or.inr (shape.child_mem member d absent)

/-- `rb_erase` of a node of a valid tree leaves a valid tree whose in-order
sequence lacks exactly that node, and no node left in it points at the node. -/
theorem deletion_inOrder (valid : ValidTree h t) {node : Usz T} (member : node ∈ t.toList) :
    ∃ h' t', (RbOp.erase node).run h = some ((), h') ∧ ValidTree h' t' ∧
      (∃ xs ys, t.toList = xs ++ node :: ys ∧ t'.toList = xs ++ ys) ∧
      ∀ q ∈ t'.toList, (h'.nodes q).rbParentColor &&& ~~~3 ≠ node ∧ ∀ d, (h'.nodes q).child d ≠ node := by
  obtain ⟨path, c, l, r, rfl⟩ := Path.exists_focus member
  obtain ⟨n, balanced⟩ := valid.balanced
  obtain ⟨h', t', run, holds', seq, balanced'⟩ := erase_run valid.holds balanced
  have split : (path.fill (.node c l node r)).toList =
      (path.before ++ l.toList) ++ node :: (r.toList ++ path.after) := by
    simp [Path.fill_toList, toList]
  have rest : t'.toList = (path.before ++ l.toList) ++ (r.toList ++ path.after) := by
    simp [seq]
  refine ⟨h', t', run, holds'.validTree balanced', ⟨_, _, split, rest⟩, fun q inside => ?_⟩
  have gone : node ∉ t'.toList := by
    have apart := valid.distinct
    rw [split, List.perm_middle.nodup_iff, List.nodup_cons] at apart
    rw [rest]
    exact apart.1
  have present : node ≠ null := (valid.holds.shape.mem_ne_null node member).1
  obtain ⟨up, down⟩ := holds'.shape.neighbor_mem aligned_null inside
  constructor
  · rintro rfl
    exact up.elim present gone
  · rintro d rfl
    exact (down d).elim present gone

/-- The root of a three-node tree is erased. -/
theorem deletion_inOrder_root :
    ∃ h' t', (RbOp.erase 16).run threeNodes = some ((), h') ∧ ValidTree h' t' ∧
      (∃ xs ys, [8, 16, 24] = xs ++ 16 :: ys ∧ t'.toList = xs ++ ys) ∧
      ∀ q ∈ t'.toList, (h'.nodes q).rbParentColor &&& ~~~3 ≠ 16 ∧ ∀ d, (h'.nodes q).child d ≠ 16 :=
  deletion_inOrder threeNodes_valid (by decide)

end Deletion

end AvaModule.RbTree
