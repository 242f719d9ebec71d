import Eaf.Utils.MapSearch

/-!
# From one node of a map to the next

`eaf_map_low_next` goes to the leftmost node below the right child, or, if
there is none, up to the first node that it comes to from the left.
`eaf_map_low_prev` is its mirror image.
-/

namespace Eaf
namespace Utils

open RedBlack Core

namespace Mem

/-- `while (n->rb_left) n = n->rb_left`, or its mirror image. -/
def descendLoop (d : Side) : Nat → Mem → Ptr → Option Ptr
  | 0, _, _ => none
  | turns + 1, m, n => do
      let k ← m.deref n
      if k.child d ≠ 0 then descendLoop d turns m (k.child d) else some n

/-- `while ((parent = rb_parent(node)) != NULL && node == parent->rb_right)
node = parent; return parent`, or its mirror image. -/
def climbLoop (d : Side) : Nat → Mem → Ptr → Option Ptr
  | 0, _, _ => none
  | turns + 1, m, node => do
      let n ← m.deref node
      let parent := rbParent n.parentColor
      if parent = 0 then some 0
      else
        let p ← m.deref parent
        if node = p.child d then climbLoop d turns m parent else some parent

/-- The outermost node on one side. -/
def outermost (m : Mem) (d : Side) (turns : Nat) : Option Ptr :=
  if m.rbRoot = 0 then some 0 else m.descendLoop d turns m.rbRoot

/-- `eaf_map_low_first` -/
def eafMapLowFirst (m : Mem) (turns : Nat) : Option Ptr :=
  m.outermost .left turns

/-- `eaf_map_low_last` -/
def eafMapLowLast (m : Mem) (turns : Nat) : Option Ptr :=
  m.outermost .right turns

/-- `RB_EMPTY_NODE` -/
def rbEmptyNode (m : Mem) (node : Ptr) : Bool :=
  (m.node node).parentColor == node

/-- The next node on one side. -/
def neighbour (m : Mem) (d : Side) (turns : Nat) (node : Ptr) : Option Ptr := do
  let n ← m.deref node
  if m.rbEmptyNode node then some 0
  else if n.child d ≠ 0 then m.descendLoop d.flip turns (n.child d)
  else m.climbLoop d turns node

/-- `eaf_map_low_next` -/
def eafMapLowNext (m : Mem) (turns : Nat) (node : Ptr) : Option Ptr :=
  m.neighbour .right turns node

/-- `eaf_map_low_prev` -/
def eafMapLowPrev (m : Mem) (turns : Nat) (node : Ptr) : Option Ptr :=
  m.neighbour .left turns node

end Mem

/-- `eaf_map_begin` -/
def eafMapBegin (handler : EafMap) : Option Ptr :=
  handler.mem.eafMapLowFirst (handler.size + 1)

/-- `eaf_map_end` -/
def eafMapEnd (handler : EafMap) : Option Ptr :=
  handler.mem.eafMapLowLast (handler.size + 1)

/-- `eaf_map_next`.  The function gets the node only; the size of its map
bounds the turns of its loops. -/
def eafMapNext (handler : EafMap) (node : Ptr) : Option Ptr :=
  handler.mem.eafMapLowNext (handler.size + 1) node

/-- `eaf_map_prev` -/
def eafMapPrev (handler : EafMap) (node : Ptr) : Option Ptr :=
  handler.mem.eafMapLowPrev (handler.size + 1) node

/-- The loop of `_watchdog_cleanup_idle_stack`: the next node is fetched before
the node is erased.  The erased nodes are in order. -/
def cleanupLoop : Nat → EafMap → Ptr → Option (EafMap × List Ptr)
  | 0, _, _ => none
  | turns + 1, handler, node =>
      if node = 0 then some (handler, [])
      else do
        let tmp := node
        let node ← eafMapNext handler node
        let handler ← eafMapErase handler tmp
        let (handler, erased) ← cleanupLoop turns handler node
        some (handler, tmp :: erased)

/-- `_watchdog_cleanup_idle_stack`, for any map. -/
def cleanup (handler : EafMap) : Option (EafMap × List Ptr) := do
  let node ← eafMapBegin handler
  cleanupLoop (handler.size + 1) handler node

section Neighbours

variable {K : Type*} [LinearOrder K] {key : Ptr → K}
  {handler : EafMap} {m : Mem} {C : Multiset Cell} {p hole a : Ptr}
  {path : Path Ptr} {t T l r : RedBlack.Tree Ptr} {c : Color} {d : Side}
  {turns : Nat} {before after : List Ptr}

namespace Mem.Around

/-- The way down one side. -/
theorem descendLoop (h : m.Around (cells p t + C) hole path) (ht : t ≠ .nil)
    (hturns : t.height ≤ turns) :
    m.descendLoop d turns (ptr t) = some (nodePtr (t.outermost d)) := by
  induction t generalizing p C turns with
  | nil => exact absurd rfl ht
  | node c l a r ihl ihr =>
      cases turns with
      | zero => simp [RedBlack.Tree.height] at hturns
      | succ turns =>
          obtain ⟨hne, hread, ⟨D, hl⟩, E, hr⟩ := h.node
          simp only [RedBlack.Tree.height] at hturns
          -- the child on the side, and the way on from there
          have hchild : ∃ F, m.Around (cells a (d.pick l r) + F) hole path := by
            cases d with
            | left => exact ⟨D, hl⟩
            | right => exact ⟨E, hr⟩
          have hptr : (⟨pack p c, ptr l, ptr r⟩ : MapLowNode).child d =
              ptr (d.pick l r) := by cases d <;> rfl
          have hout : d.pick (l.outermost d) (r.outermost d) =
              (d.pick l r).outermost d := by cases d <;> rfl
          have hrest : d.pick l r ≠ .nil →
              m.descendLoop d turns (ptr (d.pick l r)) =
                some (nodePtr ((d.pick l r).outermost d)) := by
            intro hne
            cases d with
            | left => exact ihl hl hne (by omega)
            | right => exact ihr hr hne (by omega)
          obtain ⟨F, hchild⟩ := hchild
          simp only [Mem.descendLoop, ptr_node, hread, Option.bind_eq_bind,
            Option.bind_some, hptr, RedBlack.Tree.outermost, hout]
          generalize d.pick l r = s at hchild hrest
          by_cases hs : s = .nil
          · subst hs
            simp [RedBlack.Tree.outermost]
          · obtain ⟨x, hx⟩ := RedBlack.Tree.exists_outermost d hs
            rw [if_pos (hchild.ptr_ne_zero hs), hrest hs, hx, Option.some_or]

/-- What the root of a tree knows of its parent. -/
theorem deref_parent (h : m.Around (cells p t + C) hole path) (ht : t ≠ .nil)
    (hp : p &&& 3 = 0) :
    ∃ k, m.deref (ptr t) = some k ∧ rbParent k.parentColor = p := by
  cases t with
  | nil => exact absurd rfl ht
  | node c l a r =>
      obtain ⟨-, hread, -⟩ := h.node
      exact ⟨_, hread, rbParent_pack hp⟩

/-- The way up to the first node on the other side. -/
theorem climbLoop (h : m.Around (cells (parentOf path) t) (ptr t) path)
    (ht : t ≠ .nil) (hturns : path.length < turns) :
    m.climbLoop d turns (ptr t) = some (nodePtr (path.beyond d)) := by
  induction path generalizing t turns with
  | nil =>
      cases turns with
      | zero => omega
      | succ turns =>
          obtain ⟨k, hread, hparent⟩ :=
            (h.of_eq (add_zero _).symm).deref_parent ht rfl
          simp only [Mem.climbLoop, hread, Option.bind_eq_bind,
            Option.bind_some, hparent, parentOf, if_true]
          rfl
  | cons cr rest ih =>
      cases turns with
      | zero => omega
      | succ turns =>
          obtain ⟨k, hread, hparent⟩ :=
            (h.of_eq (add_zero _).symm).deref_parent ht h.aligned
          obtain ⟨e, c, b, s⟩ := cr
          have hb := around_cons.mp h
          have hne : ptr t ≠ ptr s := (hb.drop.of_eq
            (add_comm (cells b s) (cells b t)) |>.of_eq
              (by rw [add_zero])).ptr_ne_ptr ht
          have hup : m.Around (cells (parentOf rest)
              (.facing e c t b s)) (ptr (.facing e c t b s)) rest := by
            rw [cells_facing, ptr_facing]
            exact hb.of_eq (by rw [add_comm (cells b s)]; rfl)
          simp only [Mem.climbLoop, hread, Option.bind_eq_bind,
            Option.bind_some, hparent, parentOf_cons, hb.address.1, if_false,
            hb.deref, Path.beyond]
          by_cases hside : e = d
          · subst hside
            rw [facing_child, if_pos rfl, if_pos rfl]
            have hlength : rest.length < turns := by
              simp only [List.length_cons] at hturns
              omega
            have hnode : RedBlack.Tree.facing e c t b s ≠ .nil := by
              cases e <;> simp [RedBlack.Tree.facing]
            have hloop := ih hup hnode hlength
            rwa [ptr_facing] at hloop
          · obtain rfl : d = e.flip := Side.eq_flip_of_ne fun h => hside h.symm
            rw [facing_child_flip, if_neg hne, if_neg hside]
            rfl

/-- A node of a tree is no empty node. -/
theorem not_rbEmptyNode (h : m.Around (cells (parentOf path) (.node c l a r)) a
    path) : m.rbEmptyNode a = false := by
  have hcell : m.Around ({(a, ⟨pack (parentOf path) c, ptr l, ptr r⟩)} +
      (cells a l + cells a r)) a path := h
  have hread := hcell.assoc.reads_head
  have hparent : parentOf path ≠ a := by
    cases path with
    | nil => exact hcell.address.1.symm
    | cons cr rest =>
        obtain ⟨e, k, b, s⟩ := cr
        have hb := around_cons.mp h
        exact hb.assoc.head_ne (b := a) (k := ⟨pack b c, ptr l, ptr r⟩)
          (by simp [cells])
  rw [Mem.rbEmptyNode, hread]
  refine beq_eq_false_iff_ne.mpr fun heq => hparent ?_
  have hpack : pack (parentOf path) c = a := heq
  -- the address is its own parent part, as it is aligned
  calc parentOf path = rbParent (pack (parentOf path) c) :=
        (rbParent_pack h.aligned).symm
    _ = rbParent a := by rw [hpack]
    _ = a := and_not_three hcell.address.2

end Mem.Around

namespace EafMap.Shows

/-- The neighbour of a node: the outermost node below it, or the first one
above it on the side. -/
theorem neighbour (h : handler.Shows key (path.fill (.node c l a r))) :
    handler.mem.neighbour d (handler.size + 1) a =
      some (nodePtr (((d.pick l r).outermost d.flip).or (path.beyond d))) := by
  have haround := shows_fill.mp h.mem
  have hlength := path.length_le (.node c l a r)
  have hheight := RedBlack.Tree.height_le_length (.node c l a r)
  simp only [RedBlack.Tree.height] at hheight
  rw [← h.size] at hlength
  obtain ⟨hne, hread, ⟨D, hl⟩, E, hr⟩ :=
    (haround.of_eq (add_zero _).symm).node
  have hptr : (⟨pack (parentOf path) c, ptr l, ptr r⟩ : MapLowNode).child d =
      ptr (d.pick l r) := by cases d <;> rfl
  have hchild : ∃ F, handler.mem.Around (cells a (d.pick l r) + F) a path := by
    cases d with
    | left => exact ⟨D, hl⟩
    | right => exact ⟨E, hr⟩
  have hturns : (d.pick l r).height ≤ handler.size + 1 := by
    cases d with
    | left => show l.height ≤ _; omega
    | right => show r.height ≤ _; omega
  obtain ⟨F, hchild⟩ := hchild
  simp only [Mem.neighbour, hread, Option.bind_eq_bind, Option.bind_some,
    haround.not_rbEmptyNode, Bool.false_eq_true, if_false, hptr]
  generalize d.pick l r = s at hchild hturns
  by_cases hs : s = .nil
  · subst hs
    have hclimb : handler.mem.climbLoop d (handler.size + 1) _ = _ :=
      haround.climbLoop (by simp) (by omega)
    rw [ptr_nil, if_neg (by simp)]
    exact hclimb
  · obtain ⟨x, hx⟩ := RedBlack.Tree.exists_outermost d.flip hs
    rw [if_pos (hchild.ptr_ne_zero hs), hchild.descendLoop hs hturns, hx,
      Option.some_or]

/-- A node splits the order in one way only. -/
theorem split (h : handler.Shows key (path.fill (.node c l a r)))
    (hlist : (path.fill (.node c l a r)).toList = before ++ a :: after) :
    before = path.before ++ l.toList ∧ after = r.toList ++ path.after := by
  have hnodup : (before ++ a :: after).Nodup := by
    rw [← hlist]
    exact h.sorted.imp fun hlt heq => hlt.ne (congrArg key heq)
  rw [List.nodup_append] at hnodup
  obtain ⟨-, hafter, hapart⟩ := hnodup
  have hnotBefore : a ∉ before := fun hmem =>
    hapart a hmem a List.mem_cons_self rfl
  have hnotAfter : a ∉ after := (List.nodup_cons.mp hafter).1
  have hfill : path.before ++ l.toList ++ a :: (r.toList ++ path.after) =
      before ++ a :: after := by
    rw [← hlist, Path.toList_fill]
    simp [RedBlack.Tree.toList]
  obtain ⟨hb, -, ha⟩ :=
    (List.append_cons_inj_of_notMem hnotBefore hnotAfter).mp hfill.symm
  exact ⟨hb, ha⟩

/-- `eaf_map_next` goes to the next node in the order. -/
theorem next_eq (h : handler.Shows key T) (hlist : T.toList = before ++ a :: after) :
    eafMapNext handler a = some (nodePtr after.head?) := by
  obtain ⟨path, c, l, r, rfl⟩ := Path.exists_fill (a := a) (t := T)
    (by rw [hlist]; simp)
  obtain ⟨-, rfl⟩ := h.split hlist
  rw [eafMapNext, Mem.eafMapLowNext, h.neighbour]
  show some (nodePtr ((r.outermost .left).or _)) = _
  rw [RedBlack.Tree.outermost_left, Path.beyond_right, Path.above_eq,
    List.head?_append]

/-- `eaf_map_prev` goes to the node before it. -/
theorem prev_eq (h : handler.Shows key T) (hlist : T.toList = before ++ a :: after) :
    eafMapPrev handler a = some (nodePtr before.getLast?) := by
  obtain ⟨path, c, l, r, rfl⟩ := Path.exists_fill (a := a) (t := T)
    (by rw [hlist]; simp)
  obtain ⟨rfl, -⟩ := h.split hlist
  rw [eafMapPrev, Mem.eafMapLowPrev, h.neighbour]
  show some (nodePtr ((l.outermost .right).or _)) = _
  rw [RedBlack.Tree.outermost_right, Path.beyond_left, Path.below_eq,
    List.getLast?_append]

theorem outermost (h : handler.Shows key T) :
    handler.mem.outermost d (handler.size + 1) =
      some (nodePtr (T.outermost d)) := by
  rw [Mem.outermost, h.mem.2]
  by_cases hT : T = .nil
  · subst hT
    rw [ptr_nil, if_pos rfl]
    rfl
  · rw [if_neg (h.around.ptr_ne_zero hT)]
    exact h.around.descendLoop hT h.height_lt.le

/-- `eaf_map_begin` is the first node. -/
theorem begin_eq (h : handler.Shows key T) :
    eafMapBegin handler = some (nodePtr T.toList.head?) := by
  rw [eafMapBegin, Mem.eafMapLowFirst, h.outermost,
    RedBlack.Tree.outermost_left]

/-- `eaf_map_end` is the last node. -/
theorem end_eq (h : handler.Shows key T) :
    eafMapEnd handler = some (nodePtr T.toList.getLast?) := by
  rw [eafMapEnd, Mem.eafMapLowLast, h.outermost,
    RedBlack.Tree.outermost_right]

end EafMap.Shows

end Neighbours

end Utils
end Eaf
