import AvaModule.Ds.RbTree.Order

/-! In-order walks. `rb_next` and `rb_prev` keep no stack: from a node they
either descend into the subtree ahead or climb while the node is the child on
that side. Both follow the in-order list of any tree with consistent parent
words, whatever its colours. -/
namespace AvaModule.RbTree
open RedBlack RedBlack.Tree

variable {T : Target} {h : RbHeap T} {parent p q : Usz T} {t : RedBlack.Tree (Usz T)}

/-- A turn of a client's loop, with the nodes met so far. -/
def rbWalkTurn (d : Side) : Usz T × List (Usz T) → RbM T (Turn (Usz T × List (Usz T)) (List (Usz T))) :=
  fun (p, met) => do
    if p = null then
      return .done met
    else
      let next ← rbNeighbor d p
      return .next (next, met ++ [p])

/-- A client's loop: the nodes met from `node` on until NULL is returned. -/
def rbWalk (d : Side) (node : Usz T) : RbM T (List (Usz T)) := Loop.runState (rbWalkTurn d) (node, [])

/-- The words along a path whose focus is at address `hole`, up to the root. -/
def PointerPath (h : RbHeap T) : Usz T → Path (Usz T) → Prop
  | hole, [] => h.rbNode = hole
  | hole, f :: path => f.val ≠ null ∧ (h.nodes f.val).rbParentColor &&& ~~~3 = parentOf path ∧
      (h.nodes f.val).child f.side = hole ∧
      PointerTree h f.val ((h.nodes f.val).child f.side.flip) f.sibling ∧ PointerPath h f.val path

section Words

theorem pointerTree_join {d : Side} {c : Color} {v : Usz T} {near far : RedBlack.Tree (Usz T)}
    (tree : PointerTree h parent p (join d c v near far)) :
    p = v ∧ p ≠ null ∧ (h.nodes p).rbParentColor &&& ~~~3 = parent ∧
      PointerTree h p ((h.nodes p).child d) near ∧ PointerTree h p ((h.nodes p).child d.flip) far := by
  cases d with
  | left => exact ⟨tree.1, tree.2.1, tree.2.2.1, tree.2.2.2.2⟩
  | right => exact ⟨tree.1, tree.2.1, tree.2.2.1, tree.2.2.2.2.symm⟩

theorem PointerTree.mem_ne_null (tree : PointerTree h parent p t) : ∀ q ∈ t.toList, q ≠ null := by
  induction t generalizing parent p with
  | nil => simp [toList]
  | node c l v r ihl ihr =>
    obtain ⟨rfl, present, _, _, left, right⟩ := tree
    intro q member
    simp only [toList, List.mem_append, List.mem_cons] at member
    rcases member with member | rfl | member
    · exact ihl left q member
    · exact present
    · exact ihr right q member

/-- Focusing a node turns the tree's words into the path's and the subtree's. -/
theorem PointerTree.focus {path : Path (Usz T)} (tree : PointerTree h null h.rbNode (path.fill t)) :
    PointerPath h (ptr t) path ∧ PointerTree h (parentOf path) (ptr t) t := by
  induction path generalizing t with
  | nil => exact ⟨tree.eq_ptr, tree.eq_ptr ▸ tree⟩
  | cons f path ih =>
    obtain ⟨along, focus⟩ := ih tree
    obtain ⟨same, present, up, near, far⟩ := pointerTree_join focus
    rw [same] at present up near far along
    exact ⟨⟨present, up, near.eq_ptr, far, along⟩, near.eq_ptr ▸ near⟩

theorem rbGetParent_run (present : p ≠ null) :
    rbGetParent p h = some ((h.nodes p).rbParentColor &&& ~~~3, h) := by
  rw [rbGetParent, bind_run (deref_run present), pure_run]

end Words

section Steps

/-- Descending ends at the first node met when moving the other way. -/
theorem PointerTree.descend_run (d : Side) (tree : PointerTree h parent p t) (nonempty : t ≠ .nil) :
    rbDescend d.flip p h = some ((t.walk d).headD null, h) := by
  induction depth : t.depth using Nat.strong_induction_on generalizing parent p t with
  | _ k ih =>
    obtain ⟨c, v, near, far, rfl⟩ := exists_join d.flip nonempty
    obtain ⟨rfl, present, _, nearTree, _⟩ := pointerTree_join tree
    rw [rbDescend_turn, bind_run (child_run present d.flip), walk_join_flip]
    by_cases empty : near = .nil
    · subst empty
      have absent : (h.nodes p).child d.flip = null := nearTree
      rw [if_neg (by simp [absent]), pure_run, walk_nil]
      rfl
    · have smaller : near.depth < k := by
        rw [← depth]
        cases d <;> simp only [join, Side.flip, Tree.depth] <;> omega
      have below : (h.nodes p).child d.flip ≠ null := by
        rw [nearTree.eq_ptr]
        exact nearTree.mem_ne_null _ (ptr_mem empty)
      obtain ⟨first, rest, walk⟩ := exists_walk_cons d empty
      rw [if_pos below, ih _ smaller nearTree empty rfl, walk]
      rfl

/-- Climbing from a node stops at the first value ahead of its subtree. -/
theorem PointerPath.climb_run (d : Side) {path : Path (Usz T)} (along : PointerPath h p path)
    (present : p ≠ null) (apart : p ∉ path.nodes) (distinct : path.nodes.Nodup) :
    rbClimb d p (parentOf path) h = some ((path.ahead d).headD null, h) := by
  induction path generalizing p with
  | nil =>
    rw [rbClimb_turn, parentOf, if_pos rfl, pure_run]
    rfl
  | cons f path ih =>
    obtain ⟨presentF, up, hole, sibling, outer⟩ := along
    rw [Path.nodes, List.flatMap_cons, List.cons_append, List.nodup_cons, List.mem_append, not_or]
      at distinct
    obtain ⟨⟨_, notOuter⟩, distinct⟩ := distinct
    rw [rbClimb_turn, parentOf_cons, if_neg presentF, bind_run (child_run presentF d)]
    rcases f.side.eq_or_flip d with same | other
    · rw [same] at hole
      rw [hole, if_pos rfl, bind_run (rbGetParent_run presentF), up, Path.ahead, if_pos same]
      exact ih outer presentF notOuter (List.nodup_append.mp distinct).2.1
    · rw [other, Side.flip_flip] at sibling
      have elsewhere : p ≠ (h.nodes f.val).child d := by
        intro same
        refine apart ?_
        rw [Path.nodes, List.flatMap_cons, List.cons_append, List.mem_cons, List.mem_append]
        refine Or.inr (Or.inl ?_)
        rw [same, sibling.eq_ptr]
        refine ptr_mem fun empty => present ?_
        rw [same, sibling.eq_ptr, empty, ptr_nil]
      rw [if_neg elsewhere, pure_run, Path.ahead, if_neg (by rw [other]; exact Side.flip_ne d)]
      rfl

/-- The neighbour towards `d` is the value after the node in the walk towards `d`. -/
theorem rbNeighbor_run (d : Side) {behind rest : List (Usz T)}
    (tree : PointerTree h null h.rbNode t) (distinct : t.toList.Nodup)
    (split : t.walk d = behind ++ p :: rest) :
    rbNeighbor d p h = some (rest.headD null, h) := by
  obtain ⟨path, c, near, far, rfl, rfl⟩ := Path.walk_split d distinct split
  obtain ⟨along, focus⟩ := tree.focus
  rw [ptr_join] at along focus
  obtain ⟨_, present, up, nearTree, _⟩ := pointerTree_join focus
  rw [rbNeighbor, bind_run (child_run present d)]
  by_cases empty : near = .nil
  · subst empty
    have absent : (h.nodes p).child d = null := nearTree
    have apart := (Path.fill_perm path _).nodup_iff.mp distinct
    rw [List.nodup_append] at apart
    have outside : p ∉ path.nodes := by
      intro member
      exact apart.2.2 p (by cases d <;> simp [join, toList]) p member rfl
    rw [if_neg (by simp [absent]), bind_run (rbGetParent_run present), up, walk_nil, List.nil_append]
    exact along.climb_run d present outside apart.2.1
  · have below : (h.nodes p).child d ≠ null := by
      rw [nearTree.eq_ptr]
      exact nearTree.mem_ne_null _ (ptr_mem empty)
    obtain ⟨first, rest, walk⟩ := exists_walk_cons d empty
    rw [if_pos below, nearTree.descend_run d empty, walk]
    rfl

/-- The first of a walk is found by going down from the root against it. -/
theorem PointerTree.outermost_run (d : Side) (tree : PointerTree h null h.rbNode t) :
    (getRoot >>= fun n => if n = null then pure null else rbDescend d.flip n) h = some ((t.walk d).headD null, h) := by
  rw [bind_run getRoot_run]
  by_cases empty : t = .nil
  · subst empty
    rw [if_pos (show h.rbNode = null from tree), pure_run, walk_nil]
    rfl
  · have present : h.rbNode ≠ null := by
      rw [tree.eq_ptr]
      exact tree.mem_ne_null _ (ptr_mem empty)
    rw [if_neg present]
    exact tree.descend_run d empty

theorem rbFirst_walk (tree : PointerTree h null h.rbNode t) :
    rbFirst h = some ((t.walk .right).headD null, h) := tree.outermost_run .right

theorem rbLast_walk (tree : PointerTree h null h.rbNode t) :
    rbLast h = some ((t.walk .left).headD null, h) := tree.outermost_run .left

/-- The loop at a value of the walk meets that value and all after it. -/
theorem rbWalkTurn_run (d : Side) (tree : PointerTree h null h.rbNode t) (distinct : t.toList.Nodup)
    {rest : List (Usz T)} (met : List (Usz T)) : ∀ {behind : List (Usz T)}, t.walk d = behind ++ rest →
      Loop.runState (rbWalkTurn d) (rest.headD null, met) h = some (met ++ rest, h) := by
  induction rest generalizing met with
  | nil =>
    intro behind split
    rw [Loop.runState_eq, rbWalkTurn, List.headD_nil, if_pos rfl, List.append_nil]
    rfl
  | cons p rest ih =>
    intro behind split
    have present : p ≠ null := by
      refine tree.mem_ne_null p ((mem_walk d).mp ?_)
      rw [split]
      simp
    have later := ih (met ++ [p]) (show t.walk d = (behind ++ [p]) ++ rest by simp [split])
    rw [List.append_assoc] at later
    rw [Loop.runState_eq, rbWalkTurn, List.headD_cons, if_neg present, bind_assoc,
      bind_run (rbNeighbor_run d tree distinct split), pure_bind]
    exact later

theorem rbWalk_run (d : Side) (tree : PointerTree h null h.rbNode t) (distinct : t.toList.Nodup) :
    rbWalk d ((t.walk d).headD null) h = some (t.walk d, h) :=
  rbWalkTurn_run d tree distinct [] (List.nil_append _).symm

/-- Stepping towards `d` and back returns to the node. -/
theorem rbNeighbor_back (d : Side) (tree : PointerTree h null h.rbNode t) (distinct : t.toList.Nodup)
    (member : p ∈ t.toList) :
    ∃ m, rbNeighbor d p h = some (m, h) ∧ (m ≠ null → rbNeighbor d.flip m h = some (p, h)) := by
  obtain ⟨behind, rest, split⟩ := List.append_of_mem ((mem_walk d).mpr member)
  refine ⟨_, rbNeighbor_run d tree distinct split, fun present => ?_⟩
  cases rest with
  | nil => exact absurd rfl present
  | cons m rest =>
    have back : t.walk d.flip = rest.reverse ++ m :: (p :: behind.reverse) := by
      rw [walk_flip, split]
      simp
    exact rbNeighbor_run d.flip tree distinct back

end Steps

/-- In every binary tree with consistent parent words, the walk by `rb_next` from
`rb_first` meets the in-order list and then NULL, the walk by `rb_prev` from
`rb_last` its reverse, and either step undoes the other. -/
theorem walks_inOrder (tree : PointerTree h null h.rbNode t) (distinct : t.toList.Nodup) :
    (rbFirst >>= rbWalk .right) h = some (t.toList, h) ∧
    (rbLast >>= rbWalk .left) h = some (t.toList.reverse, h) ∧
    ∀ n ∈ t.toList,
      (∃ m, rbNext n h = some (m, h) ∧ (m ≠ null → rbPrev m h = some (n, h))) ∧
      ∃ m, rbPrev n h = some (m, h) ∧ (m ≠ null → rbNext m h = some (n, h)) := by
  refine ⟨?_, ?_, fun n member => ⟨?_, ?_⟩⟩
  · rw [bind_run (rbFirst_walk tree)]
    exact rbWalk_run .right tree distinct
  · rw [bind_run (rbLast_walk tree)]
    exact rbWalk_run .left tree distinct
  · exact rbNeighbor_back .right tree distinct member
  · exact rbNeighbor_back .left tree distinct member

/-- A root with two children. -/
theorem walks_inOrder_three :
    (rbFirst >>= rbWalk .right) threeNodes = some ([8, 16, 24], threeNodes) ∧
    (rbLast >>= rbWalk .left) threeNodes = some ([24, 16, 8], threeNodes) ∧
    ∀ n ∈ ([8, 16, 24] : List (Usz .host)),
      (∃ m, rbNext n threeNodes = some (m, threeNodes) ∧
        (m ≠ null → rbPrev m threeNodes = some (n, threeNodes))) ∧
      ∃ m, rbPrev n threeNodes = some (m, threeNodes) ∧
        (m ≠ null → rbNext m threeNodes = some (n, threeNodes)) :=
  walks_inOrder threeNodes_valid.pointers threeNodes_valid.distinct

end AvaModule.RbTree
