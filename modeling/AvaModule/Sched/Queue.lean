import Mathlib.Data.List.Nodup
import Mathlib.Data.Prod.Lex
import AvaModule.Ds.RbTree.Erase
import AvaModule.Sched.Model

/-! The tree of the scheduler as a queue of task indices: insertion is stable,
removal takes one task out, the first node is the head, and a task's packed word
tells whether it is queued. -/
namespace AvaModule.Scheduler
open RedBlack RbTree

variable {T : Target} {P : Platform T} {h : RbHeap T} {outside : Usz T → RbNode T}
variable {tasks : Nat → SchedTask T} {queue xs ys : List Nat}

/-- What `sched_cfs_task_cmp` compares. -/
def SchedTask.key (task : SchedTask T) : Nat ×ₗ Nat :=
  toLex (task.status.nextExecTs.toNat, task.cfg.priority.toNat)

theorem schedCfsTaskCmp_neg {a b : SchedTask T} : schedCfsTaskCmp a b < 0 ↔ a.key < b.key := by
  rw [SchedTask.key, SchedTask.key, Prod.Lex.toLex_lt_toLex]
  unfold schedCfsTaskCmp
  simp only [gt_iff_lt, BitVec.lt_def]
  split
  · constructor
    · intro _
      exact Or.inl (by assumption)
    · intro _
      decide
  · split
    · constructor
      · intro absurd
        omega
      · omega
    · split
      · constructor
        · intro _
          exact Or.inr ⟨by omega, by assumption⟩
        · intro _
          decide
      · constructor
        · intro absurd
          split at absurd <;> omega
        · omega

/-- The heap's tree holds the queued tasks in order, and every other task's
packed word is zero. -/
structure HeapQueue (P : Platform T) (h : RbHeap T) (queue : List Nat) : Prop where
  within : ∀ i ∈ queue, i < P.taskMax
  tree : ∃ outside t n, Holds outside h t ∧ Balanced t .black n ∧ t.toList = queue.map P.node ∧
    ∀ i < P.taskMax, i ∉ queue → (outside (P.node i)).rbParentColor = null

theorem node_inj (hi : i < P.taskMax) (hj : j < P.taskMax) (same : P.node i = P.node j) : i = j := by
  rw [← P.containerOf_node i hi, same, P.containerOf_node j hj]

theorem node_mem (within : ∀ i ∈ queue, i < P.taskMax) (hi : i < P.taskMax) :
    P.node i ∈ queue.map P.node ↔ i ∈ queue := by
  constructor
  · intro member
    obtain ⟨j, inQueue, same⟩ := List.mem_map.mp member
    rwa [node_inj hi (within j inQueue) same.symm]
  · exact List.mem_map_of_mem

namespace HeapQueue

theorem nodup (q : HeapQueue P h queue) : queue.Nodup := by
  obtain ⟨_, outside, t, n, holds, _, seq, _⟩ := q
  have nodup := holds.nodup
  rw [seq] at nodup
  exact List.Nodup.of_map P.node nodup

/-- The root is black, so the packed word of a linked node is never zero. -/
theorem linked_iff (q : HeapQueue P h queue) (hi : i < P.taskMax) :
    (h.nodes (P.node i)).rbParentColor ≠ null ↔ i ∈ queue := by
  obtain ⟨within, outside, t, n, holds, balanced, seq, clear⟩ := q
  have member := node_mem within hi
  rw [← seq] at member
  by_cases inQueue : i ∈ queue
  · refine ⟨fun _ => inQueue, fun _ zero => ?_⟩
    obtain ⟨path, c, l, r, rfl⟩ := Path.exists_focus (member.mpr inQueue)
    have aligned := holds.at_focus.1.parent_aligned
    have record := holds.at_focus.2.2.2.1
    rw [record, cell_parentColor, packed_eq_zero aligned] at zero
    obtain ⟨top, red⟩ := zero
    obtain rfl : path = [] := holds.at_focus.1.parent_eq_null.mp top
    have black : c = .black := balanced.color_eq
    rw [red] at black
    cases black
  · refine ⟨fun nonzero => absurd ?_ nonzero, fun inside => absurd inside inQueue⟩
    rw [holds.frame _ (fun inTree => inQueue (member.mp inTree)), clear i hi inQueue]

end HeapQueue

section First

theorem fill_toList_left {path : Path (Usz T)} (sides : ∀ f ∈ path, f.side = .left) (t : RedBlack.Tree (Usz T)) :
    (path.fill t).toList = t.toList ++ path.after := by
  rw [Path.fill_toList, Path.before_of_left sides, List.nil_append]

theorem rbFirst_run {t : RedBlack.Tree (Usz T)} (holds : Holds outside h t) :
    rbFirst h = some (t.toList.headD null, h) := by
  by_cases empty : t = .nil
  · subst empty
    rw [rbFirst, bind_run getRoot_run, holds.root, if_pos ptr_nil]
    rfl
  · have root : Holds outside h (Path.fill [] t) := holds
    obtain ⟨inner, c, s, far, rfl, sides, run⟩ := descend_run .left root empty
    have present := holds.shape.ptr_ne_null empty
    rw [rbFirst, bind_run getRoot_run, holds.root, if_neg present, run, fill_toList_left sides]
    rfl

theorem HeapQueue.first_run (q : HeapQueue P h queue) :
    rbFirst h = some ((queue.map P.node).headD null, h) := by
  obtain ⟨_, outside, t, n, holds, _, seq, _⟩ := q
  rw [rbFirst_run holds, seq]

end First

section Insert

theorem readLink_run {path : Path (Usz T)} {t : RedBlack.Tree (Usz T)} (holds : Holds outside h (path.fill t)) :
    readLink (linkOf path) h = some (ptr t, h) := by
  cases path with
  | nil =>
    rw [linkOf, readLink, getRoot_run, holds.root]
    rfl
  | cons f path => exact holds.near_run

/-- The descent ends at the one slot that keeps the order, after all equal keys. -/
theorem cfsSlot_run {path : Path (Usz T)} {t : RedBlack.Tree (Usz T)} (task : SchedTask T)
    (holds : Holds outside h (path.fill t))
    (sorted : t.toList.Pairwise fun p q => (tasks (P.containerOf p)).key ≤ (tasks (P.containerOf q)).key) :
    ∃ (path' : Path (Usz T)) (xs ys : List (Usz T)),
      cfsSlot P tasks task (parentOf path) (linkOf path) h =
        some ((parentOf path', linkOf path'), h) ∧
      path'.fill .nil = path.fill t ∧ t.toList = xs ++ ys ∧
      path'.before = path.before ++ xs ∧ path'.after = ys ++ path.after ∧
      (∀ x ∈ xs, (tasks (P.containerOf x)).key ≤ task.key) ∧
      ∀ y ∈ ys, task.key < (tasks (P.containerOf y)).key := by
  induction t generalizing path with
  | nil =>
    refine ⟨path, [], [], ?_, rfl, rfl, (List.append_nil _).symm, rfl, by simp, by simp⟩
    rw [cfsSlot_turn, bind_run (readLink_run holds), if_neg (by simp), pure_run]
  | node c l v r ihl ihr =>
    have present : v ≠ null := holds.at_focus.2.1
    simp only [Tree.toList, List.pairwise_append, List.pairwise_cons, List.mem_cons] at sorted
    obtain ⟨sortedL, ⟨above, sortedR⟩, across⟩ := sorted
    rw [cfsSlot_turn, bind_run (readLink_run holds), if_pos (show ptr (.node c l v r) ≠ null from present)]
    by_cases smaller : schedCfsTaskCmp task (tasks (P.containerOf v)) < 0
    · have first := schedCfsTaskCmp_neg.mp smaller
      obtain ⟨path', xs, ys, run, filled, split, before, after, low, high⟩ :=
        @ihl (⟨.left, c, v, r⟩ :: path) holds sortedL
      refine ⟨path', xs, ys ++ v :: r.toList, ?_, filled, ?_, before, ?_, low, ?_⟩
      · rw [ptr, if_pos smaller]
        exact run
      · rw [Tree.toList, split, List.append_assoc]
      · rw [after, Path.after, List.append_assoc]
      · intro y member
        simp only [List.mem_append, List.mem_cons] at member
        rcases member with inLeft | rfl | inRight
        · exact high y inLeft
        · exact first
        · exact lt_of_lt_of_le first (above y inRight)
    · have last : (tasks (P.containerOf v)).key ≤ task.key := by
        rw [schedCfsTaskCmp_neg] at smaller
        exact not_lt.mp smaller
      obtain ⟨path', xs, ys, run, filled, split, before, after, low, high⟩ :=
        @ihr (⟨.right, c, v, l⟩ :: path) holds sortedR
      refine ⟨path', l.toList ++ v :: xs, ys, ?_, filled, ?_, ?_, after, ?_, high⟩
      · rw [ptr, if_neg smaller]
        exact run
      · rw [Tree.toList, split, List.append_assoc, List.cons_append]
      · rw [before, Path.before]
        simp
      · intro x member
        simp only [List.mem_append, List.mem_cons] at member
        rcases member with inLeft | rfl | inRight
        · exact le_trans (across x inLeft v (Or.inl rfl)) last
        · exact last
        · exact low x inRight

/-- Insertion puts a task after every queued task whose key is not greater. -/
theorem HeapQueue.link_run (q : HeapQueue P h queue) (hi : i < P.taskMax) (fresh : i ∉ queue)
    (sorted : queue.Pairwise fun a b => (tasks a).key ≤ (tasks b).key) :
    ∃ h' xs ys, cfsLink P tasks i h = some ((), h') ∧ queue = xs ++ ys ∧
      HeapQueue P h' (xs ++ i :: ys) ∧ (∀ x ∈ xs, (tasks x).key ≤ (tasks i).key) ∧
      ∀ y ∈ ys, (tasks i).key < (tasks y).key := by
  obtain ⟨within, outside, t, n, holds, balanced, seq, clear⟩ := q
  have decode : ∀ x ∈ queue, P.containerOf (P.node x) = x :=
    fun x member => P.containerOf_node x (within x member)
  have sortedTree : t.toList.Pairwise fun p q =>
      (tasks (P.containerOf p)).key ≤ (tasks (P.containerOf q)).key := by
    rw [seq, List.pairwise_map]
    refine sorted.imp_of_mem ?_
    intro a b ha hb le
    rwa [decode a ha, decode b hb]
  have root : Holds outside h (Path.fill [] t) := holds
  obtain ⟨path, us, vs, slot, filled, split, before, after, low, high⟩ :=
    cfsSlot_run (P := P) (tasks i) root sortedTree
  rw [Path.fill] at filled
  rw [seq] at split
  obtain ⟨xs, ys, rfl, rfl, rfl⟩ := List.map_eq_append_iff.mp split
  have member := node_mem within hi
  rw [← seq, ← filled] at member
  rw [← filled] at holds balanced
  obtain ⟨h', t', m, run, holds', balanced', seq'⟩ := insert_run holds balanced
    (P.node_ne_null i hi) (P.node_aligned i hi) (fun inTree => fresh (member.mp inTree))
  refine ⟨h', xs, ys, ?_, rfl, ⟨?_, outside, t', m, holds', balanced', ?_, ?_⟩, ?_, ?_⟩
  · rw [cfsLink]
    exact (bind_run slot).trans run
  · intro j inside
    simp only [List.mem_append, List.mem_cons] at inside
    rcases inside with left | rfl | right
    · exact within j (List.mem_append_left _ left)
    · exact hi
    · exact within j (List.mem_append_right _ right)
  · rw [seq', before, after]
    simp [Path.before, Path.after]
  · intro j hj others
    refine clear j hj ?_
    simp only [List.mem_append, List.mem_cons, not_or] at others ⊢
    exact ⟨others.1, others.2.2⟩
  · intro x inside
    have key := low (P.node x) (List.mem_map_of_mem inside)
    rwa [decode x (List.mem_append_left _ inside)] at key
  · intro y inside
    have key := high (P.node y) (List.mem_map_of_mem inside)
    rwa [decode y (List.mem_append_right _ inside)] at key

end Insert

/-- Removal unlinks one task and clears its words. -/
theorem HeapQueue.unlink_run (q : HeapQueue P h (xs ++ i :: ys)) :
    ∃ h', cfsUnlink P i h = some ((), h') ∧ HeapQueue P h' (xs ++ ys) := by
  have nodup := q.nodup
  obtain ⟨within, outside, t, n, holds, balanced, seq, clear⟩ := q
  have hi : i < P.taskMax := within i (by simp)
  have within' : ∀ j ∈ xs ++ ys, j < P.taskMax := fun j member => within j (by
    simp only [List.mem_append, List.mem_cons] at member ⊢
    tauto)
  have apart : i ∉ xs ++ ys := by
    rw [List.perm_middle.nodup_iff, List.nodup_cons] at nodup
    exact nodup.1
  have inTree : P.node i ∈ t.toList := by
    rw [seq]
    simp
  have nodupTree := holds.nodup
  obtain ⟨path, c, l, r, rfl⟩ := Path.exists_focus inTree
  obtain ⟨h₁, u, run, holds₁, seq₁, m, balanced₁⟩ := erase_run holds balanced
  rw [seq, List.map_append, List.map_cons, List.perm_middle.nodup_iff, List.nodup_cons,
    List.mem_append, not_or] at nodupTree
  rw [Path.fill_toList, Tree.toList, List.map_append, List.map_cons] at seq
  have parts : (path.before ++ l.toList) ++ P.node i :: (r.toList ++ path.after) =
      xs.map P.node ++ P.node i :: ys.map P.node := by
    rw [← seq]
    simp
  obtain ⟨left, _, right⟩ :=
    (List.append_cons_inj_of_notMem nodupTree.1.1 nodupTree.1.2).mp parts.symm
  have seq' : u.toList = (xs ++ ys).map P.node := by
    rw [seq₁, List.map_append, left, right]
    simp
  have gone : P.node i ∉ u.toList := by
    rw [seq', node_mem within' hi]
    exact apart
  refine ⟨_, ?_, within', _, u, m, holds₁.write_outside gone ⟨0, 0, 0⟩, balanced₁, seq', ?_⟩
  · rw [cfsUnlink, bind_run run, assign_run (P.node_ne_null i hi)]
  · intro j hj others
    by_cases self : j = i
    · rw [self, Function.update_self]
      rfl
    · have ne : P.node j ≠ P.node i := fun same => self (node_inj hj hi same)
      rw [Function.update_of_ne ne, Function.update_of_ne ne]
      refine clear j hj ?_
      simp only [List.mem_append, List.mem_cons, not_or] at others ⊢
      exact ⟨others.1, self, others.2⟩

end AvaModule.Scheduler
