import Eaf.Core.Message
import Eaf.Foundation.LabelledRun
import Eaf.Utils.MapLow
import Mathlib.Order.Defs.LinearOrder

/-!
# Maps

`map.c`: a map is a red-black tree of nodes, a comparison function and a count
of the nodes.  The nodes belong to the user, who puts them in and takes them
out.
-/

namespace Eaf
namespace Utils

open RedBlack Core

/-- A comparison function that orders the nodes by their keys. -/
structure Comparison (K : Type*) [LinearOrder K] where
  cmp : Ptr → Ptr → Int
  key : Ptr → K
  neg_iff : ∀ a b, cmp a b < 0 ↔ key a < key b
  pos_iff : ∀ a b, 0 < cmp a b ↔ key b < key a

/-- `eaf_map_t`, with the memory of the nodes. -/
structure EafMap where
  mem : Mem
  size : Nat

/-- `eaf_map_init` -/
def eafMapInit (node : Ptr → MapLowNode) : EafMap where
  mem := ⟨node, 0⟩
  size := 0

/-- A place in memory that holds a pointer to a node of the tree. -/
inductive Link
  | root
  | child (p : Ptr) (d : Side)
  deriving DecidableEq, Repr

namespace Mem

/-- `*rb_link` -/
def readLink (m : Mem) : Link → Option Ptr
  | .root => some m.rbRoot
  | .child p d => (m.deref p).map fun n => n.child d

/-- `*rb_link = node` -/
def writeLink (m : Mem) (node : Ptr) : Link → Option Mem
  | .root => some { m with rbRoot := node }
  | .child p d => m.modify p (.setChild d node)

/-- `eaf_map_low_link_node` -/
def linkNode (m : Mem) (node parent : Ptr) (link : Link) : Option Mem := do
  let m ← m.modify node fun _ => ⟨parent, 0, 0⟩
  m.writeLink node link

/-- The loop of `eaf_map_insert`: where the node is to be put, or `none` when
its key is there already. -/
def insertLoop (cmp : Ptr → Ptr → Int) (node : Ptr) :
    Nat → Mem → Link → Ptr → Option (Option (Link × Ptr))
  | 0, _, _, _ => none
  | turns + 1, m, link, parent => do
      let cur ← m.readLink link
      if cur = 0 then some (some (link, parent))
      else
        let result := cmp node cur
        if result < 0 then insertLoop cmp node turns m (.child cur .left) cur
        else if 0 < result then
          insertLoop cmp node turns m (.child cur .right) cur
        else some none

end Mem

/-- `eaf_map_insert` -/
def eafMapInsert (cmp : Ptr → Ptr → Int) (handler : EafMap) (node : Ptr) :
    Option (EafMap × Int) := do
  match ← handler.mem.insertLoop cmp node (handler.size + 1) .root 0 with
  | none => some (handler, Errno.duplicate)
  | some (link, parent) =>
      let m ← handler.mem.linkNode node parent link
      let m ← m.rbInsert (handler.size + 1) node
      some (⟨m, handler.size + 1⟩, Errno.success)

/-- `eaf_map_erase` -/
def eafMapErase (handler : EafMap) (node : Ptr) : Option EafMap := do
  let m ← handler.mem.eafMapLowErase handler.size node
  some ⟨m, handler.size - 1⟩

/-- The loop of `eaf_map_find`. -/
def Mem.findLoop (cmp : Ptr → Ptr → Int) (key : Ptr) :
    Nat → Mem → Ptr → Option Ptr
  | 0, _, _ => none
  | turns + 1, m, node => do
      if node = 0 then some 0
      else
        let n ← m.deref node
        let result := cmp key node
        if result < 0 then findLoop cmp key turns m n.rbLeft
        else if 0 < result then findLoop cmp key turns m n.rbRight
        else some node

/-- `eaf_map_find` -/
def eafMapFind (cmp : Ptr → Ptr → Int) (handler : EafMap) (key : Ptr) :
    Option Ptr :=
  handler.mem.findLoop cmp key (handler.size + 1) handler.mem.rbRoot

/-! ## What is in a map -/

/-- The tree that the pointers below `p` span, down to some depth. -/
def Mem.tree (m : Mem) : Nat → Ptr → RedBlack.Tree Ptr
  | 0, _ => .nil
  | depth + 1, p =>
      if p = 0 then .nil
      else .node
        (if rbIsBlack (m.node p).parentColor then .black else .red)
        (m.tree depth (m.node p).rbLeft) p (m.tree depth (m.node p).rbRight)

/-- The tree of a map. -/
def EafMap.tree (handler : EafMap) : RedBlack.Tree Ptr :=
  handler.mem.tree handler.size handler.mem.rbRoot

/-- The nodes of a map in their order. -/
def EafMap.nodes (handler : EafMap) : List Ptr := handler.tree.toList

/-- The parent and the child pointers of the nodes agree. -/
structure EafMap.ParentsAgree (handler : EafMap) : Prop where
  /-- A child has the node as its parent. -/
  child : ∀ p ∈ handler.nodes, ∀ d : Side, ∀ q,
    q = (handler.mem.node p).child d → q = 0 ∨
      q ∈ handler.nodes ∧ rbParent (handler.mem.node q).parentColor = p
  /-- The root has no parent, and any other node is a child of its parent. -/
  parent : ∀ q ∈ handler.nodes, ∀ p,
    p = rbParent (handler.mem.node q).parentColor →
      p = 0 ∧ handler.mem.rbRoot = q ∨
      p ∈ handler.nodes ∧ ∃ d : Side, (handler.mem.node p).child d = q

/-! ## Runs -/

/-- The calls that change a map. -/
inductive MapOp
  | insert (node : Ptr)
  | erase (node : Ptr)
  deriving DecidableEq, Repr

/-- An address a node can be at. -/
def NodeAddress (p : Ptr) : Prop := p ≠ 0 ∧ p &&& 3 = 0

instance (p : Ptr) : Decidable (NodeAddress p) :=
  inferInstanceAs (Decidable (p ≠ 0 ∧ p &&& 3 = 0))

/-- A node is put in when it is in no map, and taken out when it is in the
map. -/
def MapOp.allowed (handler : EafMap) : MapOp → Prop
  | .insert node => NodeAddress node ∧ node ∉ handler.nodes
  | .erase node => node ∈ handler.nodes

instance (handler : EafMap) : ∀ op : MapOp, Decidable (op.allowed handler)
  | .insert node =>
      inferInstanceAs (Decidable (NodeAddress node ∧ node ∉ handler.nodes))
  | .erase node => inferInstanceAs (Decidable (node ∈ handler.nodes))

/-- A call, and the code it returns. -/
def mapNext (cmp : Ptr → Ptr → Int) (handler : EafMap) :
    MapOp → Option (EafMap × List (MapOp × Int))
  | .insert node =>
      (eafMapInsert cmp handler node).map fun r => (r.1, [(.insert node, r.2)])
  | .erase node =>
      (eafMapErase handler node).map fun r =>
        (r, [(.erase node, Errno.success)])

/-- Runs of a map that starts empty, in any memory. -/
abbrev MapRun (cmp : Ptr → Ptr → Int) (node : Ptr → MapLowNode)
    (tr : List (MapOp × Int)) (handler : EafMap) : Prop :=
  LabelledRun.Run
    (LabelledRun.Guarded (mapNext cmp) fun handler op => op.allowed handler)
    (eafMapInit node) tr handler

end Utils
end Eaf
