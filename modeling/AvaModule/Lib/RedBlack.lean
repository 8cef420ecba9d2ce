import Mathlib.Data.List.Nodup
import Mathlib.Data.List.Perm.Basic
import Mathlib.Data.Nat.Log
import Mathlib.Tactic.Ring

/-! Red-black trees as a data structure: coloured binary trees, their balance
invariant, and one-hole paths from a focus up to the root. Nothing here fixes
how nodes are stored; every value is a plain tree node. Both mirror images of a
case are covered by one statement indexed by a side. -/
namespace RedBlack
variable {α : Type*}

inductive Color where
  | red
  | black
  deriving DecidableEq, Repr

inductive Side where
  | left
  | right
  deriving DecidableEq, Repr

def Side.flip : Side → Side
  | .left => .right
  | .right => .left

@[simp] theorem Side.flip_flip (d : Side) : d.flip.flip = d := by cases d <;> rfl

@[simp] theorem Side.flip_ne (d : Side) : d.flip ≠ d := by cases d <;> simp [flip]

theorem Side.eq_or_flip (side d : Side) : side = d ∨ side = d.flip := by
  cases side <;> cases d <;> simp [flip]

inductive Tree (α : Type*) where
  | nil
  | node (color : Color) (left : Tree α) (val : α) (right : Tree α)

namespace Tree

def toList : Tree α → List α
  | nil => []
  | node _ l v r => l.toList ++ v :: r.toList

def depth : Tree α → Nat
  | nil => 0
  | node _ l _ r => max l.depth r.depth + 1

/-- The colour the balance invariant reads; absent children count as black. -/
def color : Tree α → Color
  | nil => .black
  | node c _ _ _ => c

def paint (c : Color) : Tree α → Tree α
  | nil => nil
  | node _ l v r => node c l v r

/-- A node whose `d`-side child is `near` and whose other child is `far`. -/
def join (d : Side) (c : Color) (v : α) (near far : Tree α) : Tree α :=
  match d with
  | .left => node c near v far
  | .right => node c far v near

theorem join_flip (d : Side) (c : Color) (v : α) (near far : Tree α) :
    join d.flip c v near far = join d c v far near := by
  cases d <;> rfl

@[simp] theorem color_join (d : Side) (c : Color) (v : α) (near far : Tree α) :
    (join d c v near far).color = c := by
  cases d <;> rfl

@[simp] theorem paint_join (d : Side) (c c' : Color) (v : α) (near far : Tree α) :
    (join d c v near far).paint c' = join d c' v near far := by
  cases d <;> rfl

@[simp] theorem join_ne_nil (d : Side) (c : Color) (v : α) (near far : Tree α) :
    join d c v near far ≠ nil := by
  cases d <;> simp [join]

@[simp] theorem toList_paint (c : Color) (t : Tree α) : (t.paint c).toList = t.toList := by
  cases t <;> rfl

/-- The in-order values in the order met when moving towards side `d`. -/
def walk (d : Side) (t : Tree α) : List α :=
  match d with
  | .left => t.toList.reverse
  | .right => t.toList

@[simp] theorem walk_nil (d : Side) : (nil : Tree α).walk d = [] := by
  cases d <;> rfl

theorem walk_flip (d : Side) (t : Tree α) : t.walk d.flip = (t.walk d).reverse := by
  cases d <;> simp [walk, Side.flip]

theorem mem_walk (d : Side) {t : Tree α} : v ∈ t.walk d ↔ v ∈ t.toList := by
  cases d <;> simp [walk]

theorem walk_nodup (d : Side) {t : Tree α} : (t.walk d).Nodup ↔ t.toList.Nodup := by
  cases d
  · exact List.nodup_reverse
  · rfl

theorem walk_join (d : Side) (c : Color) (v : α) (near far : Tree α) :
    (join d c v near far).walk d = far.walk d ++ v :: near.walk d := by
  cases d <;> simp [walk, join, toList]

theorem walk_join_flip (d : Side) (c : Color) (v : α) (near far : Tree α) :
    (join d.flip c v near far).walk d = near.walk d ++ v :: far.walk d := by
  rw [join_flip, walk_join]

theorem join_perm (d : Side) (c : Color) (v : α) (near far : Tree α) :
    (join d c v near far).toList.Perm (v :: (near.toList ++ far.toList)) := by
  cases d
  · exact List.perm_middle
  · exact List.perm_middle.trans (List.Perm.cons v List.perm_append_comm)

/-- Rotation towards `d` keeps the in-order sequence. -/
theorem rotate_toList (d : Side) (c c' c₁ c₂ : Color) (n m : α) (a b e : Tree α) :
    (join d c n a (join d c' m b e)).toList = (join d c₂ m (join d c₁ n a b) e).toList := by
  cases d <;> simp [join, toList]

theorem toList_join_congr (d : Side) (c c' : Color) (v : α) {near near' far far' : Tree α}
    (hn : near.toList = near'.toList) (hf : far.toList = far'.toList) :
    (join d c v near far).toList = (join d c' v near' far').toList := by
  cases d <;> simp [join, toList, hn, hf]

/-- Any nonempty tree is a node seen from either side. -/
theorem exists_join (d : Side) {t : Tree α} (nonempty : t ≠ nil) :
    ∃ c v near far, t = join d c v near far := by
  cases t with
  | nil => exact absurd rfl nonempty
  | node c l v r => cases d <;> exact ⟨c, v, _, _, rfl⟩

theorem exists_walk_cons (d : Side) {t : Tree α} (nonempty : t ≠ nil) :
    ∃ v rest, t.walk d = v :: rest := by
  refine List.exists_cons_of_ne_nil fun empty => ?_
  cases t with
  | nil => exact nonempty rfl
  | node c l v r => cases d <;> simp [walk, toList] at empty

end Tree

/-- The balance invariant: no red node has a red child, and every path to an
absent child meets `n` black nodes. -/
inductive Balanced : Tree α → Color → Nat → Prop where
  | nil : Balanced .nil .black 0
  | red : Balanced l .black n → Balanced r .black n → Balanced (.node .red l v r) .red n
  | black : Balanced l c n → Balanced r c' n → Balanced (.node .black l v r) .black (n + 1)

namespace Balanced
open RedBlack.Tree

theorem color_eq {t : Tree α} (h : Balanced t c n) : t.color = c := by
  cases h <;> rfl

theorem join_red (hl : Balanced near .black n) (hr : Balanced far .black n) (d : Side) (v : α) :
    Balanced (join d .red v near far) .red n := by
  cases d
  · exact .red hl hr
  · exact .red hr hl

theorem join_black (hl : Balanced near c n) (hr : Balanced far c' n) (d : Side) (v : α) :
    Balanced (join d .black v near far) .black (n + 1) := by
  cases d
  · exact .black hl hr
  · exact .black hr hl

theorem of_join_red {d : Side} {v : α} (h : Balanced (join d .red v near far) c n) :
    c = .red ∧ Balanced near .black n ∧ Balanced far .black n := by
  cases d <;> cases h with
  | red hl hr => exact ⟨rfl, by assumption, by assumption⟩

theorem of_join_black {d : Side} {v : α} (h : Balanced (join d .black v near far) c n) :
    ∃ m c₁ c₂, c = .black ∧ n = m + 1 ∧ Balanced near c₁ m ∧ Balanced far c₂ m := by
  cases d <;> cases h with
  | black hl hr => exact ⟨_, _, _, rfl, rfl, by assumption, by assumption⟩

/-- A balanced tree stays balanced when its root is painted black. -/
theorem paint_root {t : Tree α} (h : Balanced t c n) : ∃ m, Balanced (t.paint .black) .black m := by
  cases h with
  | nil => exact ⟨0, .nil⟩
  | red hl hr => exact ⟨_, .black hl hr⟩
  | black hl hr => exact ⟨_, .black hl hr⟩

/-- Twice the black height bounds the depth, one more below a red root. -/
theorem depth_le {t : Tree α} (h : Balanced t c n) :
    t.depth ≤ 2 * n + (if c = .red then 1 else 0) := by
  induction h with
  | nil => simp [depth]
  | red _ _ hl hr => simp only [depth, reduceCtorEq, if_false, if_true] at *; omega
  | @black l c n r c' v _ _ hl hr =>
    have bound : ∀ k : Color, (if k = .red then 1 else 0) ≤ 1 := by intro k; split <;> omega
    have := bound c
    have := bound c'
    simp only [depth, reduceCtorEq, if_false]
    omega

/-- A tree of black height `n` holds at least `2 ^ n - 1` nodes. -/
theorem size_ge {t : Tree α} (h : Balanced t c n) : 2 ^ n ≤ t.toList.length + 1 := by
  induction h with
  | nil => simp [toList]
  | red _ _ hl hr => simp only [toList, List.length_append, List.length_cons]; omega
  | black _ _ hl hr =>
    simp only [toList, List.length_append, List.length_cons, pow_succ]
    omega

/-- The height of a tree with a black root is at most `2 * log2 (size + 1)`. -/
theorem depth_le_log {t : Tree α} (h : Balanced t .black n) :
    t.depth ≤ 2 * Nat.log 2 (t.toList.length + 1) := by
  have upper := h.depth_le
  have lower := Nat.le_log_of_pow_le (by decide) h.size_ge
  simp only [reduceCtorEq, if_false] at upper
  omega

end Balanced

/-- One step from a focus to its parent: the focus is the `side` child of
`val`, whose other child is `sibling`. -/
structure Frame (α : Type*) where
  side : Side
  color : Color
  val : α
  sibling : Tree α

abbrev Path (α : Type*) := List (Frame α)

namespace Path
open RedBlack.Tree

def fill : Path α → Tree α → Tree α
  | [], t => t
  | f :: path, t => fill path (join f.side f.color f.val t f.sibling)

/-- The nodes of a path and of the subtrees hanging off it. -/
def nodes (path : Path α) : List α :=
  path.flatMap fun f => f.val :: f.sibling.toList

theorem fill_perm (path : Path α) (t : Tree α) :
    (fill path t).toList.Perm (t.toList ++ nodes path) := by
  induction path generalizing t with
  | nil => simp [fill, nodes]
  | cons f path ih =>
    refine (ih _).trans ?_
    simp only [nodes, List.flatMap_cons]
    refine ((join_perm f.side f.color f.val t f.sibling).append_right _).trans ?_
    simp only [List.cons_append, List.append_assoc]
    exact List.perm_middle.symm

theorem fill_append (inner outer : Path α) (t : Tree α) :
    fill (inner ++ outer) t = fill outer (fill inner t) := by
  induction inner generalizing t with
  | nil => rfl
  | cons f inner ih => exact ih _

theorem fill_ne_nil (path : Path α) {t : Tree α} (nonempty : t ≠ .nil) : fill path t ≠ .nil := by
  induction path generalizing t with
  | nil => exact nonempty
  | cons f path ih => exact ih (join_ne_nil _ _ _ _ _)

/-- In-order values before and after the focus. -/
def before : Path α → List α
  | [] => []
  | ⟨.left, _, _, _⟩ :: path => before path
  | ⟨.right, _, v, s⟩ :: path => before path ++ (s.toList ++ [v])

def after : Path α → List α
  | [] => []
  | ⟨.left, _, v, s⟩ :: path => v :: s.toList ++ after path
  | ⟨.right, _, _, _⟩ :: path => after path

theorem fill_toList (path : Path α) (t : Tree α) :
    (fill path t).toList = before path ++ t.toList ++ after path := by
  induction path generalizing t with
  | nil => simp [fill, before, after]
  | cons f path ih =>
    obtain ⟨side, c, v, s⟩ := f
    cases side <;> simp [fill, ih, join, toList, before, after]

theorem fill_toList_congr (path : Path α) {t u : Tree α} (same : t.toList = u.toList) :
    (fill path t).toList = (fill path u).toList := by
  rw [fill_toList, fill_toList, same]

/-- In-order values beyond the focus, read outwards from it towards side `d`. -/
def ahead (d : Side) : Path α → List α
  | [] => []
  | f :: path => if f.side = d then ahead d path else f.val :: f.sibling.walk d ++ ahead d path

theorem walk_fill (d : Side) (path : Path α) (t : Tree α) :
    (fill path t).walk d = (ahead d.flip path).reverse ++ t.walk d ++ ahead d path := by
  induction path generalizing t with
  | nil => simp [fill, ahead]
  | cons f path ih =>
    obtain ⟨side, c, v, s⟩ := f
    have back : s.walk d.flip = (s.walk d).reverse := Tree.walk_flip d s
    rcases side.eq_or_flip d with rfl | rfl
    · simp [fill, ih, ahead, walk_join, back, (Side.flip_ne side).symm]
    · simp [fill, ih, ahead, Tree.walk_join_flip]

/-- Every value of a tree can be focused. -/
theorem exists_focus {t : Tree α} (member : v ∈ t.toList) :
    ∃ (path : Path α) (c : Color) (l r : Tree α), t = fill path (.node c l v r) := by
  suffices deep : ∀ (path : Path α) (t : Tree α), v ∈ t.toList →
      ∃ (path' : Path α) (c : Color) (l r : Tree α), fill path t = fill path' (.node c l v r) from
    deep [] t member
  intro path t member
  induction t generalizing path with
  | nil => simp [toList] at member
  | node c l x r ihl ihr =>
    simp only [toList, List.mem_append, List.mem_cons] at member
    rcases member with inLeft | rfl | inRight
    · exact ihl (⟨.left, c, x, r⟩ :: path) inLeft
    · exact ⟨path, c, l, r, rfl⟩
    · exact ihr (⟨.right, c, x, l⟩ :: path) inRight

/-- A path whose hole accepts a subtree of colour `c` and black height `n`
inside a balanced tree with a black root. -/
def Balanced : Path α → Color → Nat → Prop
  | [], c, _ => c = .black
  | ⟨_, .red, _, s⟩ :: path, c, n =>
      c = .black ∧ RedBlack.Balanced s .black n ∧ Balanced path .red n
  | ⟨_, .black, _, s⟩ :: path, _, n =>
      (∃ c', RedBlack.Balanced s c' n) ∧ Balanced path .black (n + 1)

theorem Balanced.to_black {path : Path α} (h : path.Balanced c n) : path.Balanced .black n := by
  cases path with
  | nil => rfl
  | cons f path =>
    obtain ⟨side, c', v, s⟩ := f
    cases c' with
    | red => exact ⟨rfl, h.2⟩
    | black => exact h

theorem Balanced.fill {path : Path α} {t : Tree α} (h : path.Balanced c n)
    (ht : RedBlack.Balanced t c n) : ∃ m, RedBlack.Balanced (fill path t) .black m := by
  induction path generalizing t c n with
  | nil =>
    obtain rfl : c = .black := h
    exact ⟨n, ht⟩
  | cons f path ih =>
    obtain ⟨side, c', v, s⟩ := f
    cases c' with
    | red =>
      obtain ⟨rfl, hs, outer⟩ := h
      exact ih outer (ht.join_red hs side v)
    | black =>
      obtain ⟨⟨c₂, hs⟩, outer⟩ := h
      exact ih outer (ht.join_black hs side v)

/-- Balance of a filled path splits into the path's and the subtree's. -/
theorem Balanced.of_fill {path : Path α} {t : Tree α}
    (h : RedBlack.Balanced (Path.fill path t) .black m) :
    ∃ c n, path.Balanced c n ∧ RedBlack.Balanced t c n := by
  induction path generalizing t with
  | nil => exact ⟨.black, m, rfl, h⟩
  | cons f path ih =>
    obtain ⟨side, c', v, s⟩ := f
    obtain ⟨c, n, outer, inner⟩ := ih h
    cases c' with
    | red =>
      obtain ⟨rfl, ht, hs⟩ := inner.of_join_red
      exact ⟨.black, n, ⟨rfl, hs, outer⟩, ht⟩
    | black =>
      obtain ⟨k, c₁, c₂, rfl, rfl, ht, hs⟩ := inner.of_join_black
      exact ⟨c₁, k, ⟨⟨c₂, hs⟩, outer⟩, ht⟩

/-- In a tree of distinct values, what follows a value in the walk is what lies
below it on side `d` and then what lies ahead of it. -/
theorem walk_split (d : Side) {t : Tree α} {behind rest : List α} (distinct : t.toList.Nodup)
    (split : t.walk d = behind ++ v :: rest) :
    ∃ (path : Path α) (c : Color) (near far : Tree α),
      t = fill path (join d c v near far) ∧ rest = near.walk d ++ ahead d path := by
  have member : v ∈ t.toList := by
    rw [← mem_walk d, split]
    simp
  obtain ⟨path, c, l, r, rfl⟩ := exists_focus member
  have seen : ∃ near far, node c l v r = join d c v near far := by
    cases d
    · exact ⟨l, r, rfl⟩
    · exact ⟨r, l, rfl⟩
  obtain ⟨near, far, same⟩ := seen
  rw [same] at split distinct ⊢
  refine ⟨path, c, near, far, rfl, ?_⟩
  rw [← walk_nodup d, split] at distinct
  rw [walk_fill, walk_join, List.append_assoc, List.append_assoc, ← List.append_assoc,
    List.cons_append] at split
  have apart := List.perm_middle.nodup_iff.mp distinct
  rw [List.nodup_cons, List.mem_append, not_or] at apart
  exact ((List.append_cons_inj_of_notMem apart.1.1 apart.1.2).mp split.symm).2.2

end Path

end RedBlack
