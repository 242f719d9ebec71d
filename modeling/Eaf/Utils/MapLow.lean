import Eaf.Foundation.RedBlackTree
import Mathlib.Data.UInt

/-!
# The red-black tree in memory

`map_low.c`: the nodes, which the user allocates, and the functions that link
them into a tree, rebalance it and take nodes out of it.  A pointer is an
address; following a null pointer ends the run, so a result shows that this
does not happen.  The loops get a number of turns they may take.

The code has two mirror images of everything it does below a node.  They are
written once here, for the side that the code has found out before.
-/

namespace Eaf
namespace Utils

open RedBlack

/-- An address; `NULL` is `0`. -/
abbrev Ptr := UInt64

/-- `eaf_map_low_node_t` -/
structure MapLowNode where
  /-- `__rb_parent_color`: the address of the parent, with the colour in its
  lowest bit -/
  parentColor : UInt64
  rbLeft : Ptr
  rbRight : Ptr
  deriving DecidableEq, Repr

namespace MapLowNode

/-- `rb_left` or `rb_right`. -/
def child (n : MapLowNode) : Side → Ptr
  | .left => n.rbLeft
  | .right => n.rbRight

def setChild (d : Side) (p : Ptr) (n : MapLowNode) : MapLowNode :=
  match d with
  | .left => { n with rbLeft := p }
  | .right => { n with rbRight := p }

def setParentColor (pc : UInt64) (n : MapLowNode) : MapLowNode :=
  { n with parentColor := pc }

end MapLowNode

/-- `RB_RED` and `RB_BLACK` -/
def bit : Color → UInt64
  | .red => 0
  | .black => 1

/-- `__rb_color` -/
def rbColor (pc : UInt64) : UInt64 := pc &&& 1

/-- `__rb_is_black` -/
def rbIsBlack (pc : UInt64) : Bool := rbColor pc != 0

/-- `__rb_is_red` -/
def rbIsRed (pc : UInt64) : Bool := rbColor pc == 0

/-- `__rb_parent` -/
def rbParent (pc : UInt64) : Ptr := pc &&& ~~~3

/-- The memory with the nodes, and `eaf_map_low_t`. -/
structure Mem where
  node : Ptr → MapLowNode
  rbRoot : Ptr

namespace Mem

/-- Reading the node at an address. -/
def deref (m : Mem) (p : Ptr) : Option MapLowNode :=
  if p = 0 then none else some (m.node p)

/-- Writing to the node at an address. -/
def modify (m : Mem) (p : Ptr) (f : MapLowNode → MapLowNode) : Option Mem :=
  if p = 0 then none
  else some { m with node := Function.update m.node p (f (m.node p)) }

/-- `rb_set_parent_color` -/
def rbSetParentColor (m : Mem) (rb p : Ptr) (color : Color) : Option Mem :=
  m.modify rb (.setParentColor (p ||| bit color))

/-- `rb_set_parent_color` after a test for null. -/
def rbSetParentColorIf (m : Mem) (rb p : Ptr) (color : Color) : Option Mem :=
  if rb ≠ 0 then m.rbSetParentColor rb p color else some m

/-- `rb_set_black` -/
def rbSetBlack (m : Mem) (rb : Ptr) : Option Mem :=
  m.modify rb fun n => n.setParentColor (n.parentColor ||| bit .black)

/-- `rb_set_parent` -/
def rbSetParent (m : Mem) (rb p : Ptr) : Option Mem :=
  m.modify rb fun n => n.setParentColor (rbColor n.parentColor ||| p)

/-- `rb_set_parent` after a test for null. -/
def rbSetParentIf (m : Mem) (rb p : Ptr) : Option Mem :=
  if rb ≠ 0 then m.rbSetParent rb p else some m

/-- `tmp && rb_is_red(tmp)` -/
def isRedNode (m : Mem) (p : Ptr) : Bool :=
  p != 0 && rbIsRed (m.node p).parentColor

/-- `!tmp || rb_is_black(tmp)` -/
def isBlackNode (m : Mem) (p : Ptr) : Bool :=
  p == 0 || rbIsBlack (m.node p).parentColor

/-- `__rb_change_child` -/
def rbChangeChild (m : Mem) (old new parent : Ptr) : Option Mem :=
  if parent ≠ 0 then do
    let p ← m.deref parent
    m.modify parent (.setChild (if p.rbLeft = old then .left else .right) new)
  else some { m with rbRoot := new }

/-- `__rb_rotate_set_parents` -/
def rbRotateSetParents (m : Mem) (old new : Ptr) (color : Color) :
    Option Mem := do
  let o ← m.deref old
  let m ← m.modify new (.setParentColor o.parentColor)
  let m ← m.rbSetParentColor old new color
  m.rbChangeChild old new (rbParent o.parentColor)

/-! ## Insertion -/

/-- How a turn of one of the loops ends: the loop is left, or goes on with
another node and its parent. -/
inductive Turn
  | done (m : Mem)
  | again (m : Mem) (node parent : Ptr)

/-- Case 2 of `__rb_insert`: the rotation at the parent. -/
def rbInsertRotateParent (m : Mem) (d : Side) (node parent : Ptr) :
    Option Mem := do
  let n ← m.deref node
  let tmp := n.child d
  let m ← m.modify parent (.setChild d.flip tmp)
  let m ← m.modify node (.setChild d parent)
  let m ← m.rbSetParentColorIf tmp parent .black
  m.rbSetParentColor parent node .red

/-- Case 3: the rotation at the grandparent. -/
def rbInsertRotateGparent (m : Mem) (d : Side) (parent gparent tmp : Ptr) :
    Option Mem := do
  let m ← m.modify gparent (.setChild d tmp)
  let m ← m.modify parent (.setChild d.flip gparent)
  let m ← m.rbSetParentColorIf tmp gparent .black
  m.rbRotateSetParents gparent parent .red

/-- Case 1: the colour flips. -/
def rbInsertFlip (m : Mem) (parent gparent tmp : Ptr) : Option Turn := do
  let m ← m.rbSetParentColor tmp gparent .black
  let m ← m.rbSetParentColor parent gparent .black
  let g ← m.deref gparent
  let m ← m.rbSetParentColor gparent (rbParent g.parentColor) .red
  some (.again m gparent (rbParent g.parentColor))

/-- The turn of `__rb_insert` below a red parent, which is the `d`-child of the
grandparent. -/
def rbInsertTurn (m : Mem) (d : Side) (node parent gparent : Ptr) :
    Option Turn := do
  let g ← m.deref gparent
  let tmp := g.child d.flip
  if m.isRedNode tmp then m.rbInsertFlip parent gparent tmp
  else
    let p ← m.deref parent
    let tmp := p.child d.flip
    if node = tmp then
      let m ← m.rbInsertRotateParent d node parent
      let n ← m.deref node
      (m.rbInsertRotateGparent d node gparent (n.child d.flip)).map .done
    else (m.rbInsertRotateGparent d parent gparent tmp).map .done

/-- The loop of `__rb_insert` -/
def rbInsertLoop : Nat → Mem → Ptr → Ptr → Option Mem
  | 0, _, _, _ => none
  | turns + 1, m, node, parent =>
      if parent = 0 then m.rbSetParentColor node 0 .black
      else do
        let p ← m.deref parent
        if rbIsBlack p.parentColor then some m
        else
          let gparent := p.parentColor
          let g ← m.deref gparent
          let d := if parent ≠ g.rbRight then Side.left else Side.right
          match ← m.rbInsertTurn d node parent gparent with
          | .done m => some m
          | .again m node parent => rbInsertLoop turns m node parent

/-- `__rb_insert` -/
def rbInsert (turns : Nat) (m : Mem) (node : Ptr) : Option Mem := do
  let n ← m.deref node
  rbInsertLoop turns m node n.parentColor

/-! ## Erasure -/

/-- The loop of `__rb_erase_augmented` that looks for the successor; returns
`parent` and `successor`. -/
def rbSuccessorLoop : Nat → Mem → Ptr → Ptr → Option (Ptr × Ptr)
  | 0, _, _, _ => none
  | turns + 1, m, successor, tmp => do
      let t ← m.deref tmp
      if t.rbLeft ≠ 0 then rbSuccessorLoop turns m tmp t.rbLeft
      else some (successor, tmp)

/-- Cases 2 and 3 of `__rb_erase_augmented`, up to where they meet: the memory,
`successor`, `parent` and `child2`. -/
def rbEraseSuccessor (turns : Nat) (m : Mem) (child : Ptr) :
    Option (Mem × Ptr × Ptr × Ptr) := do
  let c ← m.deref child
  if c.rbLeft = 0 then some (m, child, child, c.rbRight)
  else
    let (parent, successor) ← m.rbSuccessorLoop turns child c.rbLeft
    let s ← m.deref successor
    let m ← m.modify parent (.setChild .left s.rbRight)
    let m ← m.modify successor (.setChild .right child)
    let m ← m.rbSetParent child successor
    some (m, successor, parent, s.rbRight)

/-- The rest of these cases: the successor takes the place of the node. -/
def rbEraseReplace (m : Mem) (node successor parent child₂ : Ptr) :
    Option (Mem × Ptr) := do
  let n ← m.deref node
  let m ← m.modify successor (.setChild .left n.rbLeft)
  let m ← m.rbSetParent n.rbLeft successor
  let n ← m.deref node
  let pc := n.parentColor
  let m ← m.rbChangeChild node successor (rbParent pc)
  if child₂ ≠ 0 then
    let m ← m.modify successor (.setParentColor pc)
    let m ← m.rbSetParentColor child₂ parent .black
    some (m, 0)
  else
    let s ← m.deref successor
    let m ← m.modify successor (.setParentColor pc)
    some (m, if rbIsBlack s.parentColor then parent else 0)

/-- `__rb_erase_augmented`; returns `rebalance`. -/
def rbEraseAugmented (turns : Nat) (m : Mem) (node : Ptr) :
    Option (Mem × Ptr) := do
  let n ← m.deref node
  let pc := n.parentColor
  if n.rbLeft = 0 then
    let m ← m.rbChangeChild node n.rbRight (rbParent pc)
    if n.rbRight ≠ 0 then
      let m ← m.modify n.rbRight (.setParentColor pc)
      some (m, 0)
    else some (m, if rbIsBlack pc then rbParent pc else 0)
  else if n.rbRight = 0 then
    let m ← m.modify n.rbLeft (.setParentColor pc)
    let m ← m.rbChangeChild node n.rbLeft (rbParent pc)
    some (m, 0)
  else
    let (m, successor, parent, child₂) ← m.rbEraseSuccessor turns n.rbRight
    m.rbEraseReplace node successor parent child₂

/-- Case 1 of `____rb_erase_color`: the rotation of a red sibling; returns the
new sibling. -/
def rbEraseRotateRed (m : Mem) (d : Side) (parent sibling : Ptr) :
    Option (Mem × Ptr) := do
  let s ← m.deref sibling
  let tmp₁ := s.child d
  let m ← m.modify parent (.setChild d.flip tmp₁)
  let m ← m.modify sibling (.setChild d parent)
  let m ← m.rbSetParentColor tmp₁ parent .black
  let m ← m.rbRotateSetParents parent sibling .red
  some (m, tmp₁)

/-- Case 2: the sibling becomes red, and the parent black; when it was black
before, the loop goes on above it. -/
def rbEraseFlip (m : Mem) (parent sibling : Ptr) : Option Turn := do
  let m ← m.rbSetParentColor sibling parent .red
  let p ← m.deref parent
  if rbIsRed p.parentColor then (m.rbSetBlack parent).map .done
  else if rbParent p.parentColor ≠ 0 then
    some (.again m parent (rbParent p.parentColor))
  else some (.done m)

/-- Case 3: the rotation at the sibling, which brings `tmp₂` up. -/
def rbEraseRotateSibling (m : Mem) (d : Side) (parent sibling tmp₂ : Ptr) :
    Option Mem := do
  let t ← m.deref tmp₂
  let tmp₁ := t.child d.flip
  let m ← m.modify sibling (.setChild d tmp₁)
  let m ← m.modify tmp₂ (.setChild d.flip sibling)
  let m ← m.modify parent (.setChild d.flip tmp₂)
  m.rbSetParentColorIf tmp₁ sibling .black

/-- Case 4: the rotation at the parent, with the colour flips. -/
def rbEraseRotateParent (m : Mem) (d : Side) (parent sibling tmp₁ : Ptr) :
    Option Mem := do
  let s ← m.deref sibling
  let tmp₂ := s.child d
  let m ← m.modify parent (.setChild d.flip tmp₂)
  let m ← m.modify sibling (.setChild d parent)
  let m ← m.rbSetParentColor tmp₁ sibling .black
  let m ← m.rbSetParentIf tmp₂ parent
  m.rbRotateSetParents parent sibling .black

/-- Cases 2 to 4, with a black sibling. -/
def rbEraseSettle (m : Mem) (d : Side) (parent sibling : Ptr) :
    Option Turn := do
  let s ← m.deref sibling
  let tmp₁ := s.child d.flip
  if m.isBlackNode tmp₁ then
    let tmp₂ := s.child d
    if m.isBlackNode tmp₂ then m.rbEraseFlip parent sibling
    else
      let m ← m.rbEraseRotateSibling d parent sibling tmp₂
      (m.rbEraseRotateParent d parent tmp₂ sibling).map .done
  else (m.rbEraseRotateParent d parent sibling tmp₁).map .done

/-- The turn of `____rb_erase_color` where the node is the `d`-child of the
parent. -/
def rbEraseTurn (m : Mem) (d : Side) (parent : Ptr) : Option Turn := do
  let p ← m.deref parent
  let sibling := p.child d.flip
  let s ← m.deref sibling
  if rbIsRed s.parentColor then
    let (m, sibling) ← m.rbEraseRotateRed d parent sibling
    m.rbEraseSettle d parent sibling
  else m.rbEraseSettle d parent sibling

/-- The loop of `____rb_erase_color` -/
def rbEraseColor : Nat → Mem → Ptr → Ptr → Option Mem
  | 0, _, _, _ => none
  | turns + 1, m, node, parent => do
      let p ← m.deref parent
      let d := if node ≠ p.rbRight then Side.left else Side.right
      match ← m.rbEraseTurn d parent with
      | .done m => some m
      | .again m node parent => rbEraseColor turns m node parent

/-- `eaf_map_low_erase` -/
def eafMapLowErase (turns : Nat) (m : Mem) (node : Ptr) : Option Mem := do
  let (m, rebalance) ← m.rbEraseAugmented turns node
  if rebalance ≠ 0 then m.rbEraseColor turns 0 rebalance else some m

end Mem

end Utils
end Eaf
