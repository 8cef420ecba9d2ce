import AvaModule.Ds.RbTree.Model

/-! How the memory primitives run on a given heap, and how the packed
parent/colour word decodes for 4-byte aligned node addresses. -/
namespace AvaModule.RbTree
open RedBlack

variable {T : Target}

/-- The two colour bits of an address are free. -/
def Aligned (p : Usz T) : Prop := p &&& 3 = 0

instance (p : Usz T) : Decidable (Aligned p) := inferInstanceAs (Decidable (_ = _))

def packed (parent : Usz T) (c : Color) : Usz T := parent ||| colorWord c

/-- A node record whose `d`-side child word is `near`. -/
def cell (d : Side) (parent : Usz T) (c : Color) (near far : Usz T) : RbNode T :=
  match d with
  | .left => ⟨packed parent c, far, near⟩
  | .right => ⟨packed parent c, near, far⟩

section Words

theorem and_not_of_and_eq_zero {w : Nat} {p m : BitVec w} (h : p &&& m = 0) : p &&& ~~~m = p := by
  ext i hi
  have bit := congrArg (·[i]) h
  simp at bit ⊢
  exact bit

theorem aligned_null : Aligned (null : Usz T) := BitVec.zero_and

theorem Aligned.and_one {p : Usz T} (h : Aligned p) : p &&& 1 = 0 := by
  have mask : (3 : Usz T) &&& 1 = 1 := by cases T <;> decide
  rw [← mask, ← BitVec.and_assoc, show p &&& 3 = 0 from h]
  exact BitVec.zero_and

theorem packed_parent {p : Usz T} (h : Aligned p) (c : Color) : packed p c &&& ~~~3 = p := by
  have low : (colorWord c : Usz T) &&& ~~~3 = 0 := by cases T <;> cases c <;> decide
  rw [packed, BitVec.and_or_distrib_right, low, and_not_of_and_eq_zero h]
  exact BitVec.or_zero

theorem packed_low {p : Usz T} (h : Aligned p) (c : Color) : packed p c &&& 3 = colorWord c := by
  have low : (colorWord c : Usz T) &&& 3 = colorWord c := by cases T <;> cases c <;> decide
  rw [packed, BitVec.and_or_distrib_right, low, show p &&& 3 = 0 from h]
  exact BitVec.zero_or

theorem packed_color {p : Usz T} (h : Aligned p) (c : Color) : packed p c &&& 1 = colorWord c := by
  have low : (colorWord c : Usz T) &&& 1 = colorWord c := by cases T <;> cases c <;> decide
  rw [packed, BitVec.and_or_distrib_right, low, h.and_one]
  exact BitVec.zero_or

theorem packed_repaint {p : Usz T} (h : Aligned p) (c c' : Color) :
    packed p c &&& ~~~1 ||| colorWord c' = packed p c' := by
  have low : (colorWord c : Usz T) &&& ~~~1 = 0 := by cases T <;> cases c <;> decide
  rw [packed, BitVec.and_or_distrib_right, low, and_not_of_and_eq_zero h.and_one,
    show p ||| 0 = p from BitVec.or_zero, packed]

theorem colorWord_inj {c c' : Color} : (colorWord c : Usz T) = colorWord c' ↔ c = c' := by
  cases T <;> cases c <;> cases c' <;> decide

/-- A packed word is zero only below an absent parent, in red. -/
theorem packed_eq_zero {p : Usz T} (h : Aligned p) (c : Color) :
    packed p c = null ↔ p = null ∧ c = .red := by
  constructor
  · intro zero
    have parent := packed_parent h c
    have color := packed_color h c
    rw [zero, show (null : Usz T) &&& ~~~3 = null from BitVec.zero_and] at parent
    rw [zero, show (null : Usz T) &&& 1 = colorWord .red from BitVec.zero_and] at color
    exact ⟨parent.symm, colorWord_inj.mp color.symm⟩
  · rintro ⟨rfl, rfl⟩
    exact BitVec.or_zero

end Words

section Cells

theorem cell_flip (d : Side) (parent : Usz T) (c : Color) (near far : Usz T) :
    cell d.flip parent c near far = cell d parent c far near := by
  cases d <;> rfl

@[simp] theorem cell_parentColor (d : Side) (parent : Usz T) (c : Color) (near far : Usz T) :
    (cell d parent c near far).rbParentColor = packed parent c := by
  cases d <;> rfl

@[simp] theorem cell_child (d : Side) (parent : Usz T) (c : Color) (near far : Usz T) :
    (cell d parent c near far).child d = near := by
  cases d <;> rfl

@[simp] theorem cell_child_flip (d : Side) (parent : Usz T) (c : Color) (near far : Usz T) :
    (cell d parent c near far).child d.flip = far := by
  cases d <;> rfl

@[simp] theorem cell_setChild (d : Side) (parent : Usz T) (c : Color) (near far q : Usz T) :
    (cell d parent c near far).setChild d q = cell d parent c q far := by
  cases d <;> rfl

@[simp] theorem cell_setChild_flip (d : Side) (parent : Usz T) (c : Color) (near far q : Usz T) :
    (cell d parent c near far).setChild d.flip q = cell d parent c near q := by
  cases d <;> rfl

/-- What `rb_set_parent` makes of a node record. -/
def RbNode.reparent (q : Usz T) (n : RbNode T) : RbNode T :=
  { n with rbParentColor := q ||| (n.rbParentColor &&& 3) }

/-- What `rb_set_color` makes of a node record. -/
def RbNode.repaint (c : Color) (n : RbNode T) : RbNode T :=
  { n with rbParentColor := (n.rbParentColor &&& ~~~1) ||| colorWord c }

theorem cell_reparent {parent : Usz T} (h : Aligned parent) (d : Side) (c : Color)
    (near far q : Usz T) : (cell d parent c near far).reparent q = cell d q c near far := by
  cases d <;> simp only [RbNode.reparent, cell, packed_low h] <;> rfl

theorem cell_repaint {parent : Usz T} (h : Aligned parent) (d : Side) (c c' : Color)
    (near far : Usz T) : (cell d parent c near far).repaint c' = cell d parent c' near far := by
  cases d <;> simp only [RbNode.repaint, cell, packed_repaint h]

end Cells

section Runs

/-- `h` with one node record rewritten. -/
def RbHeap.update (h : RbHeap T) (p : Usz T) (n : RbNode T) : RbHeap T :=
  { h with nodes := Function.update h.nodes p n }

variable {h : RbHeap T}

@[simp] theorem update_self (h : RbHeap T) (p : Usz T) (n : RbNode T) :
    (h.update p n).nodes p = n := by
  simp [RbHeap.update]

@[simp] theorem update_of_ne {p q : Usz T} (ne : q ≠ p) (n : RbNode T) :
    (h.update p n).nodes q = h.nodes q := by
  simp [RbHeap.update, ne]

@[simp] theorem update_root (h : RbHeap T) (p : Usz T) (n : RbNode T) :
    (h.update p n).rbNode = h.rbNode := rfl

theorem bind_run {α β : Type} {x : RbM T α} {f : α → RbM T β} {h' : RbHeap T} {a : α}
    (run : x h = some (a, h')) : (x >>= f) h = f a h' := by
  simp [bind, StateT.bind, run]

@[simp] theorem pure_run {α : Type} (a : α) : (pure a : RbM T α) h = some (a, h) := rfl

@[simp] theorem getRoot_run : (getRoot : RbM T (Usz T)) h = some (h.rbNode, h) := rfl

@[simp] theorem setRoot_run (p : Usz T) : setRoot p h = some ((), { h with rbNode := p }) := rfl

theorem deref_run {p : Usz T} (present : p ≠ null) : deref p h = some (h.nodes p, h) := by
  simp [deref, present]

theorem assign_run {p : Usz T} (present : p ≠ null) (f : RbNode T → RbNode T) :
    assign p f h = some ((), h.update p (f (h.nodes p))) := by
  simp [assign, present, RbHeap.update]

theorem child_run {p : Usz T} (present : p ≠ null) (d : Side) :
    child d p h = some ((h.nodes p).child d, h) := by
  rw [child, bind_run (deref_run present), pure_run]

theorem setChild_run {p : Usz T} (present : p ≠ null) (d : Side) (q : Usz T) :
    setChild d p q h = some ((), h.update p ((h.nodes p).setChild d q)) :=
  assign_run present _

theorem rbSetParent_run {p : Usz T} (present : p ≠ null) (q : Usz T) :
    rbSetParent p q h = some ((), h.update p ((h.nodes p).reparent q)) :=
  assign_run present _

theorem rbSetColor_run {p : Usz T} (present : p ≠ null) (c : Color) :
    rbSetColor p (colorWord c) h = some ((), h.update p ((h.nodes p).repaint c)) :=
  assign_run present _

end Runs

end AvaModule.RbTree
