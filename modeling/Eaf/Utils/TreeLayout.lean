import Eaf.Foundation.Cells
import Eaf.Foundation.RedBlackRepair
import Eaf.Utils.Map
import Mathlib.Tactic.Abel

/-!
# The layout of a tree in memory

The cells that a red-black tree has in memory, for a subtree and for the way
from a place up to the root.  The parts of the tree that a function does not
look at are cells like any others, so what it does to the tree is seen from
what it does to a few nodes.
-/

namespace Eaf
namespace Utils

open RedBlack Cells

/-- A cell of a node. -/
abbrev Cell := Ptr × MapLowNode

/-- A parent and a colour in one word. -/
def pack (p : Ptr) (c : Color) : UInt64 := p ||| bit c

/-! ## Words -/

section Words

variable {p q : Ptr} {c : Color}

theorem and_or_distrib (a b c : UInt64) :
    a &&& (b ||| c) = a &&& b ||| a &&& c :=
  UInt64.toBitVec_inj.1 BitVec.and_or_distrib_left

theorem and_not_three (h : p &&& 3 = 0) : p &&& ~~~3 = p := by
  have hall : p &&& (3 ||| ~~~3) = p := by
    rw [show (3 ||| ~~~3 : UInt64) = -1 by decide]
    simp
  rwa [and_or_distrib, h, UInt64.zero_or] at hall

theorem and_one (h : p &&& 3 = 0) : p &&& 1 = 0 := by
  rw [show (1 : UInt64) = 3 &&& 1 by decide, ← UInt64.and_assoc, h,
    UInt64.zero_and]

theorem rbParent_pack (h : p &&& 3 = 0) : rbParent (pack p c) = p := by
  have hbit : ~~~3 &&& bit c = 0 := by cases c <;> decide
  rw [rbParent, pack, UInt64.and_comm, and_or_distrib, UInt64.and_comm,
    and_not_three h, hbit, UInt64.or_zero]

theorem rbColor_pack (h : p &&& 3 = 0) : rbColor (pack p c) = bit c := by
  rw [rbColor, pack, UInt64.and_comm, and_or_distrib, UInt64.and_comm,
    and_one h]
  cases c <;> simp [bit]

theorem rbIsBlack_pack (h : p &&& 3 = 0) :
    rbIsBlack (pack p c) = decide (c = .black) := by
  rw [rbIsBlack, rbColor_pack h]
  cases c <;> decide

theorem rbIsRed_pack (h : p &&& 3 = 0) :
    rbIsRed (pack p c) = decide (c = .red) := by
  rw [rbIsRed, rbColor_pack h]
  cases c <;> decide

/-- The colour bit of a red node is clear. -/
theorem pack_red (p : Ptr) : pack p .red = p := by
  simp [pack, bit]

theorem pack_or_black (p : Ptr) (c : Color) :
    pack p c ||| bit .black = pack p .black := by
  rw [pack, pack, UInt64.or_assoc]
  cases c <;> rfl

theorem rbColor_or (h : p &&& 3 = 0) (q : Ptr) :
    rbColor (pack p c) ||| q = pack q c := by
  rw [rbColor_pack h, pack, UInt64.or_comm]

end Words

/-! ## Cells -/

/-- A node, seen from side `d`. -/
def MapLowNode.facing (d : Side) (pc : UInt64) (near far : Ptr) : MapLowNode :=
  match d with
  | .left => ⟨pc, near, far⟩
  | .right => ⟨pc, far, near⟩

section Facing

variable (d : Side) (pc pc' : UInt64) (x y z : Ptr)

@[simp] theorem facing_child : (MapLowNode.facing d pc x y).child d = x := by
  cases d <;> rfl

@[simp] theorem facing_child_flip :
    (MapLowNode.facing d pc x y).child d.flip = y := by
  cases d <;> rfl

@[simp] theorem facing_setChild :
    (MapLowNode.facing d pc x y).setChild d z = .facing d pc z y := by
  cases d <;> rfl

@[simp] theorem facing_setChild_flip :
    (MapLowNode.facing d pc x y).setChild d.flip z = .facing d pc x z := by
  cases d <;> rfl

@[simp] theorem facing_setParentColor :
    (MapLowNode.facing d pc x y).setParentColor pc' = .facing d pc' x y := by
  cases d <;> rfl

@[simp] theorem facing_parentColor :
    (MapLowNode.facing d pc x y).parentColor = pc := by
  cases d <;> rfl

@[simp] theorem facing_flip :
    MapLowNode.facing d.flip pc x y = .facing d pc y x := by
  cases d <;> rfl

end Facing

/-- The address of the root of a tree. -/
def ptr : RedBlack.Tree Ptr → Ptr
  | .nil => 0
  | .node _ _ a _ => a

/-- The cells of a tree below the node `parent`. -/
def cells (parent : Ptr) : RedBlack.Tree Ptr → Multiset Cell
  | .nil => 0
  | .node c l a r =>
      {(a, ⟨pack parent c, ptr l, ptr r⟩)} + (cells a l + cells a r)

/-- The node above a place. -/
def parentOf : Path Ptr → Ptr
  | [] => 0
  | cr :: _ => cr.label

@[simp] theorem parentOf_cons (cr : Crumb Ptr) (rest : Path Ptr) :
    parentOf (cr :: rest) = cr.label := rfl

/-- The cells above a place with the node `hole` at it. -/
def pathCells (hole : Ptr) : Path Ptr → Multiset Cell
  | [] => 0
  | ⟨d, c, a, s⟩ :: rest =>
      {(a, .facing d (pack (parentOf rest) c) hole (ptr s))} +
        (cells a s + pathCells a rest)

/-- The root of a tree with the node `hole` at a place. -/
def rootPtr (hole : Ptr) : Path Ptr → Ptr
  | [] => hole
  | cr :: rest => rootPtr cr.label rest

/-- The tree is in memory. -/
def Mem.Shows (m : Mem) (T : RedBlack.Tree Ptr) : Prop :=
  Holds NodeAddress m.node (cells 0 T) ∧ m.rbRoot = ptr T

/-- The tree is in memory, but for a place with the node `hole` at it; and the
cells `C`. -/
def Mem.Around (m : Mem) (C : Multiset Cell) (hole : Ptr) (path : Path Ptr) :
    Prop :=
  Holds NodeAddress m.node (C + pathCells hole path) ∧
    m.rbRoot = rootPtr hole path

section Layout

variable {m : Mem} {C D E : Multiset Cell} {hole a b g p q : Ptr} {n k : MapLowNode}
  {path rest : Path Ptr} {t s u x y l r : RedBlack.Tree Ptr} {c c' : Color} {d e : Side}

@[simp] theorem ptr_nil : ptr .nil = 0 := rfl

@[simp] theorem ptr_node : ptr (.node c l a r) = a := rfl

@[simp] theorem cells_nil : cells p .nil = 0 := rfl

@[simp] theorem ptr_facing : ptr (.facing d c x a y) = a := by
  cases d <;> rfl

@[simp] theorem ptr_paint : ptr (t.paint c) = ptr t := by
  cases t <;> rfl

theorem cells_facing :
    cells p (.facing d c x a y) =
      {(a, .facing d (pack p c) (ptr x) (ptr y))} +
        (cells a x + cells a y) := by
  cases d
  · rfl
  · exact congrArg _ (add_comm (cells a y) (cells a x))

theorem rootPtr_eq : rootPtr (ptr t) path = ptr (path.fill t) := by
  induction path generalizing t with
  | nil => rfl
  | cons cr rest ih =>
      rw [Path.fill, ← ih, ptr_facing]
      rfl

theorem cells_fill :
    cells 0 (path.fill t) =
      cells (parentOf path) t + pathCells (ptr t) path := by
  induction path generalizing t with
  | nil => simp [Path.fill, parentOf, pathCells]
  | cons cr rest ih =>
      obtain ⟨d, c, a, s⟩ := cr
      rw [Path.fill, ih, cells_facing, ptr_facing, pathCells]
      simp only [parentOf]
      abel

/-- A tree is looked at around one of its places. -/
theorem shows_fill :
    m.Shows (path.fill t) ↔ m.Around (cells (parentOf path) t) (ptr t) path := by
  rw [Mem.Shows, Mem.Around, cells_fill, rootPtr_eq]

/-- A tree is looked at from its root. -/
theorem shows_iff : m.Shows t ↔ m.Around (cells 0 t) (ptr t) [] := by
  rw [Mem.Shows, Mem.Around, pathCells, add_zero]
  exact Iff.rfl

/-- The way to a place goes on by the first node. -/
theorem around_cons :
    m.Around C hole (⟨d, c, a, s⟩ :: rest) ↔
      m.Around ({(a, .facing d (pack (parentOf rest) c) hole (ptr s))} +
        (cells a s + C)) a rest := by
  simp only [Mem.Around, pathCells, rootPtr]
  rw [show C + ({(a, MapLowNode.facing d (pack (parentOf rest) c) hole
      (ptr s))} + (cells a s + pathCells a rest)) =
    {(a, MapLowNode.facing d (pack (parentOf rest) c) hole (ptr s))} +
      (cells a s + C) + pathCells a rest by abel]

/-- The tree around the grandparent of a node. -/
theorem around_cons_cons :
    m.Around (cells p t) b (⟨d, c, p, s⟩ :: ⟨e, c', g, u⟩ :: rest) ↔
      m.Around ({(g, .facing e (pack (parentOf rest) c') p (ptr u))} +
        ({(p, .facing d (pack g c) b (ptr s))} +
          (cells g u + (cells p s + cells p t)))) g rest := by
  rw [around_cons, around_cons]
  simp only [parentOf]
  rw [add_left_comm (cells g u)]

/-- Which child of a node is meant is found out by a look at its right child. -/
theorem side_eq (d : Side) (pc : UInt64) {near far : Ptr} (h : far ≠ near) :
    (if near ≠ (MapLowNode.facing d pc near far).rbRight then Side.left
      else Side.right) = d := by
  cases d <;> simp [MapLowNode.facing, h.symm]

theorem Mem.Around.of_eq (h : m.Around C hole path) (e : C = D) :
    m.Around D hole path := e ▸ h

namespace Mem.Around

theorem assoc (h : m.Around ({(a, n)} + C) hole path) :
    Holds NodeAddress m.node ({(a, n)} + (C + pathCells hole path)) :=
  h.1.of_eq (add_assoc ..)

/-- The second cell becomes the first one. -/
theorem swap (h : m.Around (C + (D + E)) hole path) :
    m.Around (D + (C + E)) hole path :=
  h.of_eq (add_left_comm ..)

/-- The third part becomes the first one. -/
theorem third {F : Multiset Cell}
    (h : m.Around (C + (D + (E + F))) hole path) :
    m.Around (E + (C + (D + F))) hole path :=
  h.of_eq (by abel)

/-- The first part becomes the third one. -/
theorem back {F : Multiset Cell}
    (h : m.Around (E + (C + (D + F))) hole path) :
    m.Around (C + (D + (E + F))) hole path :=
  h.of_eq (by abel)

theorem address (h : m.Around ({(a, n)} + C) hole path) : NodeAddress a :=
  h.assoc.valid_head

theorem deref (h : m.Around ({(a, n)} + C) hole path) :
    m.deref a = some n := by
  rw [Mem.deref, if_neg h.address.1, h.assoc.reads_head]

/-- The node above a place is aligned, or null. -/
theorem aligned (h : m.Around C hole path) : parentOf path &&& 3 = 0 := by
  cases path with
  | nil => rfl
  | cons cr rest => exact (around_cons.mp h).address.2

/-- The first cell is given up. -/
theorem drop (h : m.Around ({(a, n)} + C) hole path) : m.Around C hole path :=
  ⟨h.assoc.mono (Multiset.le_add_left _ _), h.2⟩

/-- A function changes the first cell. -/
theorem modify (h : m.Around ({(a, n)} + C) hole path)
    (f : MapLowNode → MapLowNode) :
    ∃ m', m.modify a f = some m' ∧ m'.Around ({(a, f n)} + C) hole path := by
  refine ⟨{ m with node := Function.update m.node a (f n) }, ?_, ?_, h.2⟩
  · rw [Mem.modify, if_neg h.address.1, h.assoc.reads_head]
  · exact (h.assoc.write (f n)).of_eq (add_assoc ..).symm

/-- A function changes the second cell. -/
theorem modify₂ (h : m.Around (C + ({(a, n)} + D)) hole path)
    (f : MapLowNode → MapLowNode) :
    ∃ m', m.modify a f = some m' ∧
      m'.Around (C + ({(a, f n)} + D)) hole path := by
  obtain ⟨m', hm, h'⟩ := h.swap.modify f
  exact ⟨m', hm, h'.swap⟩

theorem deref₂ (h : m.Around (C + ({(a, n)} + D)) hole path) :
    m.deref a = some n :=
  h.swap.deref

/-- The first node is not the root of a tree elsewhere. -/
theorem ptr_ne (h : m.Around ({(a, n)} + (cells p s + C)) hole path) :
    ptr s ≠ a := by
  cases s with
  | nil => exact h.address.1.symm
  | node c l b r =>
      exact (h.assoc.head_ne (b := b) (k := ⟨pack p c, ptr l, ptr r⟩)
        (by simp [cells])).symm

/-- The root of a tree is a node. -/
theorem ptr_ne_zero (h : m.Around (cells p s + C) hole path) (hs : s ≠ .nil) :
    ptr s ≠ 0 := by
  cases s with
  | nil => exact absurd rfl hs
  | node c l a r => exact (h.of_eq (add_assoc ..)).address.1

/-- Two subtrees have different roots. -/
theorem ptr_ne_ptr (h : m.Around (cells p t + (cells q s + C)) hole path)
    (ht : t ≠ .nil) : ptr t ≠ ptr s := by
  obtain ⟨x, a, y, heq⟩ := RedBlack.Tree.exists_facing .left ht
  rw [heq, cells_facing] at h
  rw [heq, ptr_facing]
  exact (h.of_eq (by abel : _ = {(a, MapLowNode.facing .left
    (pack p t.color) (ptr x) (ptr y))} +
      (cells q s + (cells a x + cells a y + C)))).ptr_ne.symm

/-! ### Subtrees -/

/-- A subtree gets another parent and the colour `c`, unless it is empty. -/
theorem paintIf (h : m.Around (cells p s + C) hole path) (q : Ptr) (c : Color) :
    ∃ m', m.rbSetParentColorIf (ptr s) q c = some m' ∧
      m'.Around (cells q (s.paint c) + C) hole path := by
  cases s with
  | nil => exact ⟨m, by simp [Mem.rbSetParentColorIf, ptr], h⟩
  | node c' l a r =>
      have hcell := h.of_eq (add_assoc ..)
      obtain ⟨m', hm, h'⟩ := hcell.modify (.setParentColor (pack q c))
      refine ⟨m', ?_, h'.of_eq (add_assoc ..).symm⟩
      exact (if_pos hcell.address.1).trans hm

/-- The same without the test. -/
theorem paint (h : m.Around (cells p s + C) hole path) (hs : s ≠ .nil)
    (q : Ptr) (c : Color) :
    ∃ m', m.rbSetParentColor (ptr s) q c = some m' ∧
      m'.Around (cells q (s.paint c) + C) hole path := by
  obtain ⟨m', hm, h'⟩ := h.paintIf q c
  exact ⟨m', (if_pos (h.ptr_ne_zero hs)).symm.trans hm, h'⟩

/-- A subtree gets another parent and keeps its colour. -/
theorem reparent (h : m.Around (cells p s + C) hole path) (hs : s ≠ .nil)
    (hp : p &&& 3 = 0) (q : Ptr) :
    ∃ m', m.rbSetParent (ptr s) q = some m' ∧
      m'.Around (cells q s + C) hole path := by
  cases s with
  | nil => exact absurd rfl hs
  | node c' l a r =>
      have hcell := h.of_eq (add_assoc ..)
      obtain ⟨m', hm, h'⟩ := hcell.modify
        fun n => n.setParentColor (rbColor n.parentColor ||| q)
      refine ⟨m', hm, h'.of_eq ?_⟩
      simp only [MapLowNode.setParentColor, rbColor_or hp]
      exact (add_assoc ..).symm

/-- The same after a test for null. -/
theorem reparentIf (h : m.Around (cells p s + C) hole path)
    (hp : p &&& 3 = 0) (q : Ptr) :
    ∃ m', m.rbSetParentIf (ptr s) q = some m' ∧
      m'.Around (cells q s + C) hole path := by
  by_cases hs : s = .nil
  · subst hs
    exact ⟨m, rfl, h⟩
  · obtain ⟨m', hm, h'⟩ := h.reparent hs hp q
    exact ⟨m', (if_pos (h.ptr_ne_zero hs)).trans hm, h'⟩

theorem isRedNode (h : m.Around (cells p s + C) hole path)
    (hp : p &&& 3 = 0) : m.isRedNode (ptr s) = decide (s.color = .red) := by
  cases s with
  | nil => rfl
  | node c l a r =>
      have hcell := h.of_eq (add_assoc ..)
      have hread := hcell.assoc.reads_head
      have hne : (a != 0) = true := by simpa using hcell.address.1
      show (a != 0 && rbIsRed (m.node a).parentColor) = decide (c = .red)
      rw [hne, hread, Bool.true_and]
      exact rbIsRed_pack hp

theorem isBlackNode (h : m.Around (cells p s + C) hole path)
    (hp : p &&& 3 = 0) :
    m.isBlackNode (ptr s) = decide (s.color = .black) := by
  cases s with
  | nil => rfl
  | node c l a r =>
      have hcell := h.of_eq (add_assoc ..)
      have hread := hcell.assoc.reads_head
      have hne : (a == 0) = false := by simpa using hcell.address.1
      show (a == 0 || rbIsBlack (m.node a).parentColor) =
        decide (c = .black)
      rw [hne, hread, Bool.false_or]
      exact rbIsBlack_pack hp

/-! ### The place -/

/-- The node above the place gets another child. -/
theorem changeChild (h : m.Around ({(a, n)} + C) a path) (b : Ptr) :
    ∃ m', m.rbChangeChild a b (parentOf path) = some m' ∧
      m'.Around ({(a, n)} + C) b path := by
  cases path with
  | nil => exact ⟨{ m with rbRoot := b }, rfl, h.1, rfl⟩
  | cons cr rest =>
      obtain ⟨d, c, q, s⟩ := cr
      have hcons := around_cons.mp h
      have hside : (MapLowNode.facing d (pack (parentOf rest) c) a
          (ptr s)).rbLeft = a ↔ d = .left := by
        have hne : ptr s ≠ a := (hcons.of_eq (by abel :
          {(q, MapLowNode.facing d (pack (parentOf rest) c) a (ptr s))} +
              (cells q s + ({(a, n)} + C)) =
            {(a, n)} + (cells q s + ({(q, MapLowNode.facing d
              (pack (parentOf rest) c) a (ptr s))} + C)))).ptr_ne
        cases d <;> simp [MapLowNode.facing, hne]
      obtain ⟨m', hm, h'⟩ := hcons.modify
        (.setChild (if (MapLowNode.facing d (pack (parentOf rest) c) a
          (ptr s)).rbLeft = a then .left else .right) b)
      refine ⟨m', ?_, around_cons.mpr ?_⟩
      · refine (if_pos hcons.address.1).trans ?_
        show (m.deref q).bind _ = _
        rw [hcons.deref, Option.bind_some]
        exact hm
      · have hd : (if (MapLowNode.facing d (pack (parentOf rest) c) a
            (ptr s)).rbLeft = a then Side.left else .right) = d := by
          cases d <;> simp [hside]
        rw [hd, facing_setChild] at h'
        exact h'

/-- Another node takes the place of the first one. -/
theorem rotateSetParents
    (h : m.Around ({(a, n)} + ({(b, k)} + C)) a path)
    (hn : n.parentColor = pack (parentOf path) c) (c' : Color) :
    ∃ m', m.rbRotateSetParents a b c' = some m' ∧
      m'.Around ({(a, n.setParentColor (pack b c'))} +
        ({(b, k.setParentColor (pack (parentOf path) c))} + C)) b path := by
  obtain ⟨m₁, hm₁, h₁⟩ :=
    h.modify₂ (.setParentColor (pack (parentOf path) c))
  obtain ⟨m₂, hm₂, h₂⟩ := h₁.modify (.setParentColor (pack b c'))
  obtain ⟨m₃, hm₃, h₃⟩ := h₂.changeChild b
  have hm₂' : m₁.rbSetParentColor a b c' = some m₂ := hm₂
  refine ⟨m₃, ?_, h₃⟩
  simp only [Mem.rbRotateSetParents, h.deref, Option.bind_eq_bind,
    Option.bind_some, hm₁, hm₂', hn, rbParent_pack h.aligned, hm₃]

end Mem.Around

end Layout

end Utils
end Eaf
