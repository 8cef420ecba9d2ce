import AvaModule.Util.Typedef
import AvaModule.Lib.Loop
import AvaModule.Lib.RedBlack

/-! The intrusive red-black tree of ds/rbtree.h. Nodes live in a heap indexed
by their addresses; the low bits of `rbParentColor` hold the colour and the
rest the parent's address. A NULL dereference fails, so a run that succeeds
has made none. The mirrored branches of the source are one definition indexed
by the side the source calls left. -/
namespace AvaModule.RbTree
open RedBlack

variable {T : Target}

structure RbNode (T : Target) where
  rbParentColor : Usz T
  rbRight : Usz T
  rbLeft : Usz T
  deriving DecidableEq

/-- The memory the tree functions touch: every node and the root word. -/
structure RbHeap (T : Target) where
  nodes : Usz T → RbNode T
  rbNode : Usz T

/-- Either `&root->rb_node` or the address of one of a node's child words. -/
inductive RbLink (T : Target) where
  | root
  | child (side : Side) (node : Usz T)

abbrev RbM (T : Target) := StateT (RbHeap T) Option

/-- `NULL`, also as the `usz` it converts to. -/
def null : Usz T := 0

def rbRed : Usz T := 0
def rbBlack : Usz T := 1

def colorWord : Color → Usz T
  | .red => rbRed
  | .black => rbBlack

def deref (p : Usz T) : RbM T (RbNode T) :=
  fun h => if p = null then none else some (h.nodes p, h)

def assign (p : Usz T) (f : RbNode T → RbNode T) : RbM T Unit :=
  fun h => if p = null then none
    else some ((), { h with nodes := Function.update h.nodes p (f (h.nodes p)) })

def getRoot : RbM T (Usz T) := fun h => some (h.rbNode, h)

def setRoot (p : Usz T) : RbM T Unit := fun h => some ((), { h with rbNode := p })

def RbNode.child (d : Side) (n : RbNode T) : Usz T :=
  match d with
  | .left => n.rbLeft
  | .right => n.rbRight

def RbNode.setChild (d : Side) (p : Usz T) (n : RbNode T) : RbNode T :=
  match d with
  | .left => { n with rbLeft := p }
  | .right => { n with rbRight := p }

def child (d : Side) (p : Usz T) : RbM T (Usz T) := do
  return (← deref p).child d

def setChild (d : Side) (p q : Usz T) : RbM T Unit := assign p (RbNode.setChild d q)

def rbGetParent (rb : Usz T) : RbM T (Usz T) := do
  return (← deref rb).rbParentColor &&& ~~~3

def rbSetParent (rb parent : Usz T) : RbM T Unit :=
  assign rb fun n => { n with rbParentColor := parent ||| (n.rbParentColor &&& 3) }

def rbGetColor (rb : Usz T) : RbM T (Usz T) := do
  return (← deref rb).rbParentColor &&& 1

def rbSetColor (rb color : Usz T) : RbM T Unit :=
  assign rb fun n => { n with rbParentColor := (n.rbParentColor &&& ~~~1) ||| color }

def rbIsRed (rb : Usz T) : RbM T Bool := do
  return (← rbGetColor rb) = rbRed

def rbIsBlack (rb : Usz T) : RbM T Bool := do
  return (← rbGetColor rb) = rbBlack

def rbSetRed (rb : Usz T) : RbM T Unit := rbSetColor rb rbRed

def rbSetBlack (rb : Usz T) : RbM T Unit := rbSetColor rb rbBlack

/-- `*rb_link` -/
def readLink : RbLink T → RbM T (Usz T)
  | .root => getRoot
  | .child d p => child d p

/-- `*rb_link = p` -/
def writeLink (p : Usz T) : RbLink T → RbM T Unit
  | .root => setRoot p
  | .child d q => setChild d q p

def rbLinkNode (node parent : Usz T) (rbLink : RbLink T) : RbM T Unit := do
  assign node fun n => { n with rbParentColor := parent }
  assign node fun n => { n with rbRight := null }
  assign node fun n => { n with rbLeft := null }
  writeLink node rbLink

/-- Point the word that holds `old`, in `parent` or in the root, at `new`. The
source writes this out at each use. -/
def replaceChild (d : Side) (parent old new : Usz T) : RbM T Unit := do
  if parent ≠ null then
    if (← child d parent) = old then
      setChild d parent new
    else
      setChild d.flip parent new
  else
    setRoot new

/-- `rb_rotate_left` for `d = left`, its mirror image for `d = right`. -/
def rbRotate (d : Side) (node : Usz T) : RbM T Unit := do
  let far ← child d.flip node
  let parent ← rbGetParent node
  let inner ← child d far
  setChild d.flip node inner
  if inner ≠ null then
    rbSetParent (← child d far) node
  setChild d far node
  rbSetParent far parent
  replaceChild d parent node far
  rbSetParent node far

def rbRotateLeft (node : Usz T) : RbM T Unit := rbRotate .left node

def rbRotateRight (node : Usz T) : RbM T Unit := rbRotate .right node

/-- `rb && rb_is_red(rb)` -/
def presentAndRed (rb : Usz T) : RbM T Bool := do
  if rb ≠ null then rbIsRed rb else return false

/-- `!rb || rb_is_black(rb)` -/
def absentOrBlack (rb : Usz T) : RbM T Bool := do
  if rb = null then return true else rbIsBlack rb

/-- The body of the `rb_insert_color` loop when `parent` is the `d` child of
`gparent`; returns the node the next pass starts from. -/
def rbInsertColorStep (d : Side) (node parent gparent : Usz T) : RbM T (Usz T) := do
  let uncle ← child d.flip gparent
  if ← presentAndRed uncle then
    rbSetBlack uncle
    rbSetBlack parent
    rbSetRed gparent
    return gparent
  else if (← child d.flip parent) = node then
    rbRotate d parent
    rbSetBlack node
    rbSetRed gparent
    rbRotate d.flip gparent
    return parent
  else
    rbSetBlack parent
    rbSetRed gparent
    rbRotate d.flip gparent
    return node

def rbInsertColorPass (node parent gparent : Usz T) : RbM T (Usz T) := do
  if parent = (← child .left gparent) then
    rbInsertColorStep .left node parent gparent
  else
    rbInsertColorStep .right node parent gparent

def rbInsertColorTurn (node : Usz T) : RbM T (Turn (Usz T) Unit) := do
  let parent ← rbGetParent node
  if ← presentAndRed parent then
    let gparent ← rbGetParent parent
    let node ← rbInsertColorPass node parent gparent
    return .next node
  else
    return .done ()

def rbInsertColorLoop : Usz T → RbM T Unit := Loop.runState rbInsertColorTurn

def rbInsertColor (node : Usz T) : RbM T Unit := do
  rbInsertColorLoop node
  rbSetBlack (← getRoot)

/-- What one pass through the `rb_erase_color` loop leaves in its variables. -/
structure ErasePass (T : Target) where
  broke : Bool
  node : Usz T
  parent : Usz T

/-- The sibling after a red one has been rotated away. -/
def rbEraseColorSibling (d : Side) (parent : Usz T) : RbM T (Usz T) := do
  let sibling ← child d.flip parent
  if ← rbIsRed sibling then
    rbSetBlack sibling
    rbSetRed parent
    rbRotate d parent
    child d.flip parent
  else
    return sibling

def rbEraseColorNephews (sibling : Usz T) : RbM T Bool := do
  if ← absentOrBlack (← child .left sibling) then
    absentOrBlack (← child .right sibling)
  else
    return false

/-- The sibling after a red nephew has been brought to its far side. -/
def rbEraseColorNephew (d : Side) (parent sibling : Usz T) : RbM T (Usz T) := do
  if ← absentOrBlack (← child d.flip sibling) then
    rbSetBlack (← child d sibling)
    rbSetRed sibling
    rbRotate d.flip sibling
    child d.flip parent
  else
    return sibling

/-- The body of the `rb_erase_color` loop when `node` is the `d` child of
`parent`; `broke` is set by the `break` after the last rotation. -/
def rbEraseColorStep (d : Side) (parent : Usz T) : RbM T (ErasePass T) := do
  let sibling ← rbEraseColorSibling d parent
  if ← rbEraseColorNephews sibling then
    rbSetRed sibling
    return ⟨false, parent, ← rbGetParent parent⟩
  else
    let sibling ← rbEraseColorNephew d parent sibling
    rbSetColor sibling (← rbGetColor parent)
    rbSetBlack parent
    rbSetBlack (← child d.flip sibling)
    rbRotate d parent
    return ⟨true, ← getRoot, parent⟩

def rbEraseColorPass (node parent : Usz T) : RbM T (ErasePass T) := do
  if (← child .left parent) = node then
    rbEraseColorStep .left parent
  else
    rbEraseColorStep .right parent

/-- The value of `node` when the `rb_erase_color` loop is left. -/
def rbEraseColorLoop (node parent : Usz T) : RbM T (Usz T) :=
  Loop.runState (fun (node, parent) => do
    if (← absentOrBlack node) && node ≠ (← getRoot) then
      let next ← rbEraseColorPass node parent
      if next.broke then return .done next.node else return .next (next.node, next.parent)
    else
      return .done node) (node, parent)

def rbEraseColor (node parent : Usz T) : RbM T Unit := do
  let node ← rbEraseColorLoop node parent
  if node ≠ null then rbSetBlack node

/-- `while ((left = node->rb_left)) node = left;` and its mirror image. -/
def rbDescend (d : Side) : Usz T → RbM T (Usz T) :=
  Loop.runState fun node => do
    let next ← child d node
    if next ≠ null then return .next next else return .done node

/-- Detach a node with at most one child. -/
def rbEraseLeaf (node child' : Usz T) : RbM T (Usz T × Usz T × Usz T) := do
  let parent ← rbGetParent node
  let color ← rbGetColor node
  if child' ≠ null then rbSetParent child' parent
  replaceChild .left parent node child'
  return (child', parent, color)

/-- Copy `old`'s place in the tree to `node` and point its neighbours there. -/
def rbEraseSplice (old node : Usz T) : RbM T Unit := do
  let parentColor := (← deref old).rbParentColor
  assign node fun n => { n with rbParentColor := parentColor }
  setChild .left node (← child .left old)
  setChild .right node (← child .right old)
  replaceChild .left (← rbGetParent old) old node
  rbSetParent (← child .left old) node
  if (← child .right old) ≠ null then
    rbSetParent (← child .right old) node

/-- Take the in-order successor of `old` out of the tree and put it in `old`'s
place; returns `child`, `parent` and `color` as `rb_erase` has them at its label. -/
def rbEraseInner (old : Usz T) : RbM T (Usz T × Usz T × Usz T) := do
  let node ← rbDescend .left (← child .right old)
  let child' ← child .right node
  let parent ← rbGetParent node
  let color ← rbGetColor node
  if child' ≠ null then rbSetParent child' parent
  if parent = old then
    setChild .right parent child'
    rbEraseSplice old node
    return (child', node, color)
  else
    setChild .left parent child'
    rbEraseSplice old node
    return (child', parent, color)

/-- `rb_erase` up to its label: `child`, `parent` and `color`. -/
def rbEraseDetach (node : Usz T) : RbM T (Usz T × Usz T × Usz T) := do
  if (← child .left node) = null then
    rbEraseLeaf node (← child .right node)
  else if (← child .right node) = null then
    rbEraseLeaf node (← child .left node)
  else
    rbEraseInner node

def rbErase (node : Usz T) : RbM T Unit := do
  let (child', parent, color) ← rbEraseDetach node
  if color = rbBlack then rbEraseColor child' parent

def rbFirst : RbM T (Usz T) := do
  let n ← getRoot
  if n = null then return null
  rbDescend .left n

def rbLast : RbM T (Usz T) := do
  let n ← getRoot
  if n = null then return null
  rbDescend .right n

/-- `while (parent && node == parent->rb_right)` and its mirror image; the value
of `parent` when the loop is left. -/
def rbClimb (d : Side) (node parent : Usz T) : RbM T (Usz T) :=
  Loop.runState (fun (node, parent) => do
    if parent = null then
      return .done parent
    else if node = (← child d parent) then
      return .next (parent, ← rbGetParent parent)
    else
      return .done parent) (node, parent)

/-- `rb_next` for `d = right`, its mirror image for `d = left`. -/
def rbNeighbor (d : Side) (node : Usz T) : RbM T (Usz T) := do
  let next ← child d node
  if next ≠ null then
    rbDescend d.flip next
  else
    rbClimb d node (← rbGetParent node)

def rbNext (node : Usz T) : RbM T (Usz T) := rbNeighbor .right node

def rbPrev (node : Usz T) : RbM T (Usz T) := rbNeighbor .left node

section Turns

theorem rbInsertColorLoop_turn (node : Usz T) :
    rbInsertColorLoop node = (do
      let parent ← rbGetParent node
      if ← presentAndRed parent then
        let gparent ← rbGetParent parent
        let node ← rbInsertColorPass node parent gparent
        rbInsertColorLoop node) := by
  rw [rbInsertColorLoop, Loop.runState_eq]
  simp only [rbInsertColorTurn, bind_assoc]
  congr 1
  funext parent
  congr 1
  funext red
  split <;> simp [bind_assoc]

theorem rbEraseColorLoop_turn (node parent : Usz T) :
    rbEraseColorLoop node parent = do
      if (← absentOrBlack node) && node ≠ (← getRoot) then
        let next ← rbEraseColorPass node parent
        if next.broke then return next.node else rbEraseColorLoop next.node next.parent
      else
        return node := by
  rw [rbEraseColorLoop, Loop.runState_eq]
  simp only [bind_assoc]
  congr 1
  funext black
  congr 1
  funext root
  split
  · rw [bind_assoc]
    congr 1
    funext next
    split <;> rfl
  · rfl

theorem rbDescend_turn (d : Side) (node : Usz T) :
    rbDescend d node = do
      let next ← child d node
      if next ≠ null then rbDescend d next else return node := by
  rw [rbDescend, Loop.runState_eq, bind_assoc]
  congr 1
  funext next
  split <;> rfl

theorem rbClimb_turn (d : Side) (node parent : Usz T) :
    rbClimb d node parent = do
      if parent = null then
        return parent
      else if node = (← child d parent) then
        rbClimb d parent (← rbGetParent parent)
      else
        return parent := by
  rw [rbClimb, Loop.runState_eq]
  dsimp only
  split
  · rfl
  · rw [bind_assoc]
    congr 1
    funext next
    split
    · rw [bind_assoc]
      rfl
    · rfl

end Turns

end AvaModule.RbTree
