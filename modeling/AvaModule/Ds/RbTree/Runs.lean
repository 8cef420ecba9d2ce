import AvaModule.Ds.RbTree.Erase
import AvaModule.Lib.Transition

/-! Sequences of insertions and deletions on one tree. What a heap holds is
described here only through the words the source reads; the trees of the other
modules are the witnesses. -/
namespace AvaModule.RbTree
open RedBlack Transition

variable {T : Target}

/-- The nodes a client reaches from the root by child words. -/
inductive InTree (h : RbHeap T) : Usz T → Prop where
  | root : h.rbNode ≠ null → InTree h h.rbNode
  | child {p : Usz T} (d : Side) : InTree h p → (h.nodes p).child d ≠ null → InTree h ((h.nodes p).child d)

/-- The word `link` is an empty child slot below `parent`, or the empty root. -/
def EmptySlot (h : RbHeap T) (parent : Usz T) : RbLink T → Prop
  | .root => h.rbNode = null ∧ parent = null
  | .child d q => parent = q ∧ InTree h q ∧ (h.nodes q).child d = null

inductive RbOp (T : Target) where
  | insert (node parent : Usz T) (link : RbLink T)
  | erase (node : Usz T)

def RbOp.run : RbOp T → RbM T Unit
  | .insert node parent link => do
      rbLinkNode node parent link
      rbInsertColor node
  | .erase node => rbErase node

def rbStep (op : RbOp T) (h : RbHeap T) : Option (RbHeap T) := (op.run h).map Prod.snd

/-- A node that is linked lies on its own in memory, at an aligned address. -/
def RbOp.Ok (op : RbOp T) (h : RbHeap T) : Prop :=
  match op with
  | .insert node parent link =>
      node ≠ null ∧ Aligned node ∧ ¬InTree h node ∧ EmptySlot h parent link
  | .erase node => InTree h node

/-- The words below `p` form the finite tree `t`, and every node's parent word
names the node it hangs from. -/
def PointerTree (h : RbHeap T) : Usz T → Usz T → RedBlack.Tree (Usz T) → Prop
  | _, p, .nil => p = null
  | parent, p, .node c l v r => p = v ∧ p ≠ null ∧ (h.nodes p).rbParentColor &&& ~~~3 = parent ∧
      (h.nodes p).rbParentColor &&& 1 = colorWord c ∧
      PointerTree h p (h.nodes p).rbLeft l ∧ PointerTree h p (h.nodes p).rbRight r

/-- The heap's tree is a red-black tree of logarithmic height: its nodes are
distinct, its root is black, no red node has a red child, and all paths from the
root to an absent child meet equally many black nodes. -/
structure RedBlackHeap (h : RbHeap T) (t : RedBlack.Tree (Usz T)) : Prop where
  pointers : PointerTree h null h.rbNode t
  distinct : t.toList.Nodup
  balanced : ∃ n, Balanced t .black n
  height : t.depth ≤ 2 * Nat.log 2 (t.toList.length + 1)

variable {h h' : RbHeap T} {t : RedBlack.Tree (Usz T)} {p q : Usz T}

section Contents

theorem PointerTree.eq_ptr {parent : Usz T} (tree : PointerTree h parent p t) : p = ptr t := by
  cases t with
  | nil => exact tree
  | node c l v r => exact tree.1

theorem Shape.pointerTree {parent : Usz T} (shape : Shape h.nodes parent t) (aligned : Aligned parent) :
    PointerTree h parent (ptr t) t := by
  induction t generalizing parent with
  | nil => rfl
  | node c l p r ihl ihr =>
    obtain ⟨present, alignedP, record, left, right⟩ := shape
    refine ⟨rfl, present, ?_, ?_, ?_, ?_⟩
    · rw [ptr, record, cell_parentColor, packed_parent aligned]
    · rw [ptr, record, cell_parentColor, packed_color aligned]
    · rw [ptr, record]
      exact ihl left alignedP
    · rw [ptr, record]
      exact ihr right alignedP

theorem Shape.child_mem {parent : Usz T} (shape : Shape h.nodes parent t) (member : p ∈ t.toList)
    (d : Side) (present : (h.nodes p).child d ≠ null) : (h.nodes p).child d ∈ t.toList := by
  induction t generalizing parent with
  | nil => simp [Tree.toList] at member
  | node c l v r ihl ihr =>
    obtain ⟨_, _, record, left, right⟩ := shape
    simp only [Tree.toList, List.mem_append, List.mem_cons] at member ⊢
    rcases member with inLeft | rfl | inRight
    · exact Or.inl (ihl left inLeft)
    · rw [record] at present ⊢
      cases d with
      | left => exact Or.inl (ptr_mem fun empty => present (by rw [empty]; rfl))
      | right => exact Or.inr (Or.inr (ptr_mem fun empty => present (by rw [empty]; rfl)))
    · exact Or.inr (Or.inr (ihr right inRight))

theorem Shape.reach {parent : Usz T} (shape : Shape h.nodes parent t)
    (top : t ≠ .nil → InTree h (ptr t)) (member : p ∈ t.toList) : InTree h p := by
  induction t generalizing parent with
  | nil => simp [Tree.toList] at member
  | node c l v r ihl ihr =>
    obtain ⟨_, _, record, left, right⟩ := shape
    have reached : InTree h v := top (by simp)
    simp only [Tree.toList, List.mem_append, List.mem_cons] at member
    rcases member with inLeft | rfl | inRight
    · refine ihl left (fun nonempty => ?_) inLeft
      have step := InTree.child .left reached
      rw [record] at step
      exact step (left.ptr_ne_null nonempty)
    · exact reached
    · refine ihr right (fun nonempty => ?_) inRight
      have step := InTree.child .right reached
      rw [record] at step
      exact step (right.ptr_ne_null nonempty)

/-- The nodes reachable by child words are the nodes of the held tree. -/
theorem Holds.inTree_iff (holds : Holds outside h t) : InTree h p ↔ p ∈ t.toList := by
  constructor
  · intro reached
    induction reached with
    | root present =>
      rw [holds.root] at present ⊢
      exact ptr_mem fun empty => present (by rw [empty]; rfl)
    | child d _ present ih => exact holds.shape.child_mem ih d present
  · refine holds.shape.reach fun nonempty => ?_
    rw [← holds.root]
    refine .root ?_
    rw [holds.root]
    exact holds.shape.ptr_ne_null nonempty

theorem Holds.redBlackHeap (holds : Holds outside h t) (balanced : Balanced t .black n) :
    RedBlackHeap h t := by
  refine ⟨?_, holds.nodup, ⟨n, balanced⟩, balanced.depth_le_log⟩
  rw [holds.root]
  exact holds.shape.pointerTree aligned_null

/-- An empty slot is the hole of a path. -/
theorem Holds.slot (holds : Holds outside h t) {link : RbLink T} (slot : EmptySlot h parent link) :
    ∃ path : Path (Usz T), t = path.fill .nil ∧ parent = parentOf path ∧ link = linkOf path := by
  cases link with
  | root =>
    obtain ⟨zero, rfl⟩ := slot
    rw [holds.root, holds.shape.ptr_eq_null] at zero
    exact ⟨[], zero, rfl, rfl⟩
  | child d q =>
    obtain ⟨rfl, reached, empty⟩ := slot
    obtain ⟨path, c, l, r, rfl⟩ := Path.exists_focus (holds.inTree_iff.mp reached)
    obtain ⟨_, _, record, left, right⟩ := holds.at_focus.2
    rw [record] at empty
    cases d with
    | left =>
      obtain rfl : l = .nil := left.ptr_eq_null.mp empty
      exact ⟨⟨.left, c, parent, r⟩ :: path, rfl, rfl, rfl⟩
    | right =>
      obtain rfl : r = .nil := right.ptr_eq_null.mp empty
      exact ⟨⟨.right, c, parent, l⟩ :: path, rfl, rfl, rfl⟩

end Contents

/-- Some red-black tree is held; the operations keep this. -/
def HoldsSome (h : RbHeap T) : Prop :=
  ∃ outside t n, Holds outside h t ∧ Balanced t .black n

theorem holdsSome_empty (empty : h.rbNode = null) : HoldsSome h := by
  refine ⟨h.nodes, .nil, 0, ⟨empty, trivial, ?_, fun _ _ => rfl⟩, .nil⟩
  simp [Tree.toList]

/-- What an operation makes of the set of linked nodes. -/
def RbOp.members (op : RbOp T) (linked : Usz T → Prop) (p : Usz T) : Prop :=
  match op with
  | .insert node _ _ => p = node ∨ linked p
  | .erase node => p ≠ node ∧ linked p

theorem rbStep_run {op : RbOp T} (start : HoldsSome h) (ok : op.Ok h) :
    ∃ h', rbStep op h = some h' ∧ HoldsSome h' ∧ ∀ p, InTree h' p ↔ op.members (InTree h) p := by
  obtain ⟨outside, t, n, holds, balanced⟩ := start
  cases op with
  | insert node parent link =>
    obtain ⟨present, aligned, fresh, slot⟩ := ok
    rw [holds.inTree_iff] at fresh
    obtain ⟨path, rfl, rfl, rfl⟩ := holds.slot slot
    obtain ⟨h', u, m, run, holds', balanced', seq⟩ := insert_run holds balanced present aligned fresh
    refine ⟨h', ?_, ⟨outside, u, m, holds', balanced'⟩, ?_⟩
    · rw [rbStep, RbOp.run, run, Option.map_some]
    · intro p
      rw [holds'.inTree_iff, RbOp.members, holds.inTree_iff, seq, Path.fill_toList]
      simp only [Tree.toList, List.append_nil, List.mem_append, List.mem_cons]
      tauto
  | erase node =>
    obtain ⟨path, c, l, r, rfl⟩ := Path.exists_focus (holds.inTree_iff.mp ok)
    obtain ⟨h', u, run, holds', seq, m, balanced'⟩ := erase_run holds balanced
    refine ⟨h', ?_, ⟨_, u, m, holds', balanced'⟩, ?_⟩
    · rw [rbStep, RbOp.run, run, Option.map_some]
    · intro p
      have nodup := holds.nodup
      rw [holds'.inTree_iff, RbOp.members, holds.inTree_iff, seq, Path.fill_toList]
      simp only [Path.fill_toList, Tree.toList, List.append_assoc, List.cons_append] at nodup
      rw [← List.append_assoc, List.perm_middle.nodup_iff, List.nodup_cons] at nodup
      have apart := nodup.1
      simp only [Tree.toList, List.mem_append, List.mem_cons] at apart ⊢
      constructor
      · intro member
        refine ⟨?_, by tauto⟩
        rintro rfl
        tauto
      · tauto

/-- Every sequence of insertions at empty slots and deletions of linked nodes,
started on an empty tree, runs to its end and leaves a red-black tree, as does
each of its initial segments. -/
theorem rbRuns_redBlack (ops : List (RbOp T)) (empty : h.rbNode = null)
    (admits : Admits rbStep RbOp.Ok ops h) (done : List (RbOp T)) (part : done <+: ops) :
    ∃ h' t, runs rbStep done h = some h' ∧ RedBlackHeap h' t ∧ ∀ p, InTree h' p ↔ p ∈ t.toList := by
  obtain ⟨rest, rfl⟩ := part
  have progress : ∀ {op : RbOp T} {h : RbHeap T}, HoldsSome h → op.Ok h →
      ∃ h', rbStep op h = some h' ∧ HoldsSome h' := by
    intro op h start ok
    obtain ⟨h', run, kept, _⟩ := rbStep_run start ok
    exact ⟨h', run, kept⟩
  obtain ⟨h', run, outside, t, n, holds, balanced⟩ :=
    runs_total progress (holdsSome_empty empty) admits.left
  exact ⟨h', t, run, holds.redBlackHeap balanced, fun p => holds.inTree_iff⟩

section Ascending

/-- What an insertion leaves whose loop ends within three turns. -/
def grown (h : RbHeap T) (node parent : Usz T) (link : RbLink T) : Option (RbHeap T) := do
  let linked ← rbLinkNode node parent link h
  let coloured ← (Loop.sharing rbInsertColorTurn).runFor 3 (node, linked.2)
  let (root, h) ← getRoot coloured.2
  (rbSetBlack root h).map Prod.snd

theorem rbStep_of_grown {h h' : RbHeap T} {node parent : Usz T} {link : RbLink T}
    (step : grown h node parent link = some h') : rbStep (.insert node parent link) h = some h' := by
  obtain ⟨linked, link, step⟩ := Option.bind_eq_some_iff.mp step
  obtain ⟨coloured, loop, step⟩ := Option.bind_eq_some_iff.mp step
  have left : rbInsertColorLoop node linked.2 = some coloured := Loop.run_of_runFor loop
  change (rbLinkNode node parent _ h >>= fun linked => (rbInsertColor node) linked.2).map Prod.snd = _
  rw [link]
  change ((rbInsertColorLoop node linked.2).bind _).map Prod.snd = _
  rw [left]
  exact step

def bare : RbHeap .host := ⟨fun _ => ⟨0, 0, 0⟩, null⟩

/-- Ascending nodes, each linked to the right of the one before. -/
def chain : Nat → Option (RbHeap .host)
  | 0 => some bare
  | 1 => grown bare 8 null .root
  | n + 2 => do
    let last : Usz .host := BitVec.ofNat _ (8 * (n + 1))
    grown (← chain (n + 1)) (last + 8) last (.child .right last)

theorem chain_next {h : RbHeap .host} {n : Nat} (here : chain (n + 1) = some h) :
    chain (n + 2) = grown h (BitVec.ofNat _ (8 * (n + 1)) + 8) (BitVec.ofNat _ (8 * (n + 1)))
      (.child .right (BitVec.ofNat _ (8 * (n + 1)))) := by
  rw [chain, here]
  rfl

/-- The third node rotates the tree, and the fourth finds a red uncle. The deletion rotates again. -/
def chainOps : List (RbOp .host) :=
  [.insert 8 null .root, .insert 16 8 (.child .right 8), .insert 24 16 (.child .right 16),
    .insert 32 24 (.child .right 24), .erase 8]

/-- A link of the chain. -/
theorem chain_link {h h' : RbHeap .host} {last : Usz .host} {nodes : List (Usz .host)} (kept : HoldsSome h)
    (inside : ∀ p, InTree h p ↔ p ∈ last :: nodes) (fresh : last + 8 ∉ last :: nodes)
    (present : last + 8 ≠ null ∧ Aligned (last + 8)) (slot : (h.nodes last).rbRight = null)
    (step : grown h (last + 8) last (.child .right last) = some h') :
    RbOp.Ok (.insert (last + 8) last (.child .right last)) h ∧
      rbStep (.insert (last + 8) last (.child .right last)) h = some h' ∧ HoldsSome h' ∧
      ∀ p, InTree h' p ↔ p ∈ (last + 8) :: last :: nodes := by
  have ok : RbOp.Ok (.insert (last + 8) last (.child .right last)) h :=
    ⟨present.1, present.2, fun reached => fresh ((inside _).mp reached), rfl, (inside _).mpr List.mem_cons_self, slot⟩
  have run := rbStep_of_grown step
  obtain ⟨h'', run', kept', members⟩ := rbStep_run kept ok
  obtain rfl := Option.some.inj (run.symm.trans run')
  refine ⟨ok, run, kept', fun p => ?_⟩
  rw [members, RbOp.members, inside, List.mem_cons (b := last + 8)]

theorem rbRuns_redBlack_chain :
    ∃ h' t, runs rbStep chainOps bare = some h' ∧ RedBlackHeap h' t ∧ ∀ p, InTree h' p ↔ p ∈ t.toList := by
  have none : ∀ p, ¬InTree bare p := by
    intro p reached
    induction reached with
    | root present => exact present rfl
    | child _ _ _ ih => exact ih
  obtain ⟨h₁, first, slot₁⟩ : ∃ h, chain 1 = some h ∧ (h.nodes 8).rbRight = null :=
    Option.map_eq_some_iff.mp (by decide +kernel)
  obtain ⟨h₂, second, slot₂⟩ : ∃ h, chain 2 = some h ∧ (h.nodes 16).rbRight = null :=
    Option.map_eq_some_iff.mp (by decide +kernel)
  obtain ⟨h₃, third, slot₃⟩ : ∃ h, chain 3 = some h ∧ (h.nodes 24).rbRight = null :=
    Option.map_eq_some_iff.mp (by decide +kernel)
  obtain ⟨h₄, fourth⟩ := Option.isSome_iff_exists.mp (by decide +kernel : (chain 4).isSome)
  have step₂ := (chain_next first).symm.trans second
  have step₃ := (chain_next second).symm.trans third
  have step₄ := (chain_next third).symm.trans fourth
  have ok₁ : RbOp.Ok (.insert 8 null .root) bare := ⟨by decide, by decide, none 8, rfl, rfl⟩
  have run₁ := rbStep_of_grown first
  obtain ⟨_, run, kept₁, members⟩ := rbStep_run (holdsSome_empty rfl) ok₁
  obtain rfl := Option.some.inj (run₁.symm.trans run)
  have inside₁ : ∀ p, InTree h₁ p ↔ p ∈ [8] := fun p => by
    rw [members, RbOp.members, or_iff_left (none p), List.mem_singleton]
  obtain ⟨ok₂, run₂, kept₂, inside₂⟩ :=
    chain_link kept₁ inside₁ (by decide) (by decide) slot₁ step₂
  obtain ⟨ok₃, run₃, kept₃, inside₃⟩ :=
    chain_link kept₂ inside₂ (by decide) (by decide) slot₂ step₃
  obtain ⟨ok₄, run₄, kept₄, inside₄⟩ :=
    chain_link kept₃ inside₃ (by decide) (by decide) slot₃ step₄
  refine rbRuns_redBlack chainOps rfl ?_ chainOps List.prefix_rfl
  refine .cons ok₁ run₁ (.cons ok₂ run₂ (.cons ok₃ run₃ (.cons ok₄ run₄ ⟨?_, fun _ _ => trivial⟩)))
  exact (inside₄ 8).mpr (by decide)

end Ascending

end AvaModule.RbTree
