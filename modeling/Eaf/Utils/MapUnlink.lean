import Eaf.Utils.MapErasure

/-!
# Nodes are taken out of the tree in memory

`__rb_erase_augmented` does to the tree in memory what `unlink` does to trees:
a node with one child at most leaves its place to this child, any other node
leaves it to its successor, which lies at the end of a way inside the right
subtree.
-/

namespace Eaf
namespace Utils

open RedBlack Cells

variable {m : Mem} {C : Multiset Cell} {a b s p q above : Ptr}
  {path rest front : Path Ptr} {t x l r T : RedBlack.Tree Ptr} {hole : Ptr}
  {c cs k : Color} {d : Side}

/-! ## Ways inside a subtree -/

/-- The node above a place in a subtree below the node `above`. -/
def parentFrom (above : Ptr) : Path Ptr → Ptr
  | [] => above
  | cr :: _ => cr.label

/-- The cells above a place in a subtree below the node `above`. -/
def pathCellsFrom (above hole : Ptr) : Path Ptr → Multiset Cell
  | [] => 0
  | ⟨d, c, a, s⟩ :: rest =>
      {(a, .facing d (pack (parentFrom above rest) c) hole (ptr s))} +
        (cells a s + pathCellsFrom above a rest)

theorem cells_fill_from :
    cells above (front.fill t) =
      cells (parentFrom above front) t + pathCellsFrom above (ptr t) front := by
  induction front generalizing t with
  | nil => simp [Path.fill, parentFrom, pathCellsFrom]
  | cons cr rest ih =>
      obtain ⟨d, c, a, s⟩ := cr
      rw [Path.fill, ih, cells_facing, ptr_facing, pathCellsFrom]
      simp only [parentFrom]
      abel

theorem parentOf_append (cr : Crumb Ptr) :
    parentOf (front ++ cr :: rest) = parentFrom cr.label front := by
  cases front <;> rfl

theorem rootPtr_append :
    rootPtr hole (front ++ rest) = rootPtr (rootPtr hole front) rest := by
  induction front generalizing hole with
  | nil => rfl
  | cons cr front ih => exact ih

theorem pathCells_append (cr : Crumb Ptr) :
    pathCells hole (front ++ cr :: rest) =
      pathCellsFrom cr.label hole front +
        pathCells (rootPtr hole front) (cr :: rest) := by
  induction front generalizing hole with
  | nil => simp [pathCellsFrom, rootPtr]
  | cons cr' front ih =>
      obtain ⟨d, c, a, s⟩ := cr'
      rw [List.cons_append, pathCells, ih, pathCellsFrom, parentOf_append]
      simp only [rootPtr]
      abel

/-- The way to a place goes on inside a subtree. -/
theorem around_append :
    m.Around C hole (front ++ ⟨d, c, a, l⟩ :: rest) ↔
      m.Around ({(a, .facing d (pack (parentOf rest) c) (rootPtr hole front)
          (ptr l))} +
        (cells a l + (pathCellsFrom a hole front + C))) a rest := by
  rw [Mem.Around, pathCells_append, rootPtr_append, Mem.Around, pathCells]
  simp only [rootPtr]
  rw [show C + (pathCellsFrom a hole front +
      ({(a, MapLowNode.facing d (pack (parentOf rest) c) (rootPtr hole front)
        (ptr l))} + (cells a l + pathCells a rest))) =
    {(a, MapLowNode.facing d (pack (parentOf rest) c) (rootPtr hole front)
        (ptr l))} + (cells a l + (pathCellsFrom a hole front + C)) +
      pathCells a rest by abel]

namespace Mem.Around

/-- The root of a subtree gets another parent. -/
theorem reparentFrom (h : m.Around (pathCellsFrom p b front + C) hole path)
    (hfront : front ≠ []) (hp : p &&& 3 = 0) (q : Ptr) :
    ∃ m', m.rbSetParent (rootPtr b front) q = some m' ∧
      m'.Around (pathCellsFrom q b front + C) hole path := by
  induction front generalizing b C with
  | nil => exact absurd rfl hfront
  | cons cr rest ih =>
      obtain ⟨d, c, a, s⟩ := cr
      match rest with
      | [] =>
          have hcell := h.of_eq (by
            simp only [pathCellsFrom, parentFrom]
            abel : _ = {(a, MapLowNode.facing d (pack p c) b (ptr s))} +
              (cells a s + C))
          obtain ⟨m', hm, h'⟩ := hcell.modify
            fun n => n.setParentColor (rbColor n.parentColor ||| q)
          refine ⟨m', hm, h'.of_eq ?_⟩
          simp only [facing_parentColor, facing_setParentColor, rbColor_or hp,
            pathCellsFrom, parentFrom]
          abel
      | cr' :: rest' =>
          obtain ⟨m', hm, h'⟩ := ih (h.of_eq (by
            rw [pathCellsFrom]
            abel : _ = pathCellsFrom p a (cr' :: rest') +
              ({(a, MapLowNode.facing d (pack (parentFrom p (cr' :: rest')) c)
                b (ptr s))} + (cells a s + C)))) (by simp)
          refine ⟨m', hm, h'.of_eq ?_⟩
          rw [pathCellsFrom.eq_def q b]
          simp only [parentFrom]
          abel

/-- The node above a place inside a subtree is aligned. -/
theorem alignedFrom (h : m.Around (pathCellsFrom p b front + C) hole path)
    (ha : a &&& 3 = 0) : parentFrom a front &&& 3 = 0 := by
  cases front with
  | nil => exact ha
  | cons cr rest => exact (h.of_eq (add_assoc ..)).address.2

/-- The loop that looks for the successor finds the first node of the tree,
and the node above it. -/
theorem successorLoop {turns : Nat} (h : m.Around (cells p t + C) hole path)
    (hleft : leftmost t [] = some (cs, s, x, front))
    (hturns : front.length < turns) (prev : Ptr) :
    m.rbSuccessorLoop turns prev (ptr t) = some (parentFrom prev front, s) := by
  induction t generalizing turns p C front prev with
  | nil => cases hleft
  | node c l a r ihl ihr =>
      match turns with
      | 0 => omega
      | turns + 1 =>
          have hcell := h.of_eq (add_assoc ..)
          have hderef := hcell.deref
          by_cases hl : l = .nil
          · subst hl
            cases hleft
            simp only [Mem.rbSuccessorLoop, ptr, hderef, Option.bind_eq_bind,
              Option.bind_some, ne_eq, not_true_eq_false, if_false, parentFrom]
          · obtain ⟨q', hq, rfl⟩ := leftmost_node hl hleft
            have hsub := hcell.of_eq (by abel : _ = cells a l +
              ({(a, ⟨pack p c, ptr l, ptr r⟩)} + (cells a r + C)))
            have hnext := ihl hsub hq (by simpa using hturns) a
            show m.rbSuccessorLoop (turns + 1) prev a = _
            simp only [Mem.rbSuccessorLoop, hderef, Option.bind_eq_bind,
              Option.bind_some, ne_eq, hsub.ptr_ne_zero hl, not_false_eq_true,
              if_true, hnext]
            cases q' <;> rfl

/-- The successor is taken out of the right subtree, which becomes its own
right subtree. -/
theorem eraseSuccessor {turns : Nat} (h : m.Around (cells a r + C) hole path)
    (ha : a &&& 3 = 0)
    (hleft : leftmost r [] = some (cs, s, x, front))
    (hturns : front.length ≤ turns) :
    ∃ m', m.rbEraseSuccessor turns (ptr r) =
        some (m', s, parentFrom s front, ptr x) ∧
      m'.Around ({(s, ⟨pack (parentFrom a front) cs, 0,
          rootPtr (ptr x) front⟩)} +
        (pathCellsFrom s (ptr x) front + (cells s x + C))) hole path := by
  cases r with
  | nil => cases hleft
  | node c₁ l₁ a₁ r₁ =>
      have hderef := (h.of_eq (add_assoc ..)).deref
      by_cases hl : l₁ = .nil
      · subst hl
        cases hleft
        refine ⟨m, ?_, h.of_eq ?_⟩
        · show m.rbEraseSuccessor turns s = _
          simp only [Mem.rbEraseSuccessor, hderef, Option.bind_eq_bind,
            Option.bind_some, ptr, if_true, parentFrom]
        · simp only [cells, ptr, parentFrom, rootPtr, pathCellsFrom]
          abel
      · obtain ⟨q', hq, hfront⟩ := leftmost_node hl hleft
        obtain ⟨_, _, _, q₀, hq₀, hfill, hbefore⟩ :=
          leftmost_spec (t := .node c₁ l₁ a₁ r₁) [] (by simp)
        rw [hleft, List.append_nil] at hq₀
        cases hq₀
        -- the cells of the right subtree, around the successor
        have hsucc := h
        rw [← hfill, cells_fill_from] at hsucc
        have hroot : rootPtr (ptr x) front = a₁ := by
          rw [hfront, rootPtr_append]
          rfl
        have hloop : m.rbSuccessorLoop turns a₁ (ptr l₁) =
            some (parentFrom s front, s) := by
          have hsub := h.of_eq (by
            rw [cells]
            abel : _ = cells a₁ l₁ + ({(a₁, ⟨pack a c₁, ptr l₁, ptr r₁⟩)} +
              (cells a₁ r₁ + C)))
          rw [hsub.successorLoop hq
            (by simp only [hfront, List.length_append,
              List.length_singleton] at hturns; omega),
            hfront]
          cases q' <;> rfl
        have hne : ptr l₁ ≠ 0 := by
          cases l₁ with
          | nil => exact absurd rfl hl
          | node cl ll al rl =>
              exact (h.of_eq (by
                simp only [cells]
                abel : _ = {(al, ⟨pack a₁ cl, ptr ll, ptr rl⟩)} +
                  ({(a₁, _)} + (cells al ll + cells al rl + (cells a₁ r₁ + C)))
                )).address.1
        cases front with
        | nil => simp at hfront
        | cons cr f =>
          obtain ⟨d, k, b, o⟩ := cr
          cases d with
          | right => simp [Path.before] at hbefore
          | left =>
            have h₀ := hsucc.of_eq (by
              simp only [cells, ptr, parentFrom, pathCellsFrom]
              abel : _ = {(s, ⟨pack b cs, 0, ptr x⟩)} +
                ({(b, .facing .left (pack (parentFrom a f) k) s (ptr o))} +
                  (cells s x + (cells b o + (pathCellsFrom a b f + C)))))
            obtain ⟨m₁, hm₁, h₁⟩ := h₀.modify₂ (.setChild .left (ptr x))
            obtain ⟨m₂, hm₂, h₂⟩ := h₁.modify (.setChild .right a₁)
            obtain ⟨m₃, hm₃, h₃⟩ := (h₂.of_eq (by
              simp only [MapLowNode.setChild, MapLowNode.facing, pathCellsFrom]
              abel : _ = pathCellsFrom a (ptr x) (⟨.left, k, b, o⟩ :: f) +
                ({(s, ⟨pack b cs, 0, a₁⟩)} + (cells s x + C))
              )).reparentFrom (by simp) ha s
            rw [hroot] at hm₃
            refine ⟨m₃, ?_, h₃.of_eq ?_⟩
            · show m.rbEraseSuccessor turns a₁ = _
              have hparent : parentFrom s (⟨.left, k, b, o⟩ :: f) = b := rfl
              rw [hparent] at hloop ⊢
              simp only [Mem.rbEraseSuccessor, hderef, Option.bind_eq_bind,
                Option.bind_some, hne, if_false, hloop, h₀.deref, hm₁, hm₂,
                hm₃]
            · rw [hroot]
              simp only [parentFrom]
              abel

/-- The successor takes the place of the node, with its colour and its left
subtree. -/
theorem eraseReplace {y z : Ptr} (hl : l ≠ .nil) (ha : a &&& 3 = 0)
    (hq : q &&& 3 = 0)
    (h : m.Around ({(s, ⟨pack q cs, 0, y⟩)} +
      ({(a, ⟨pack (parentOf path) c, ptr l, z⟩)} +
        (cells a l + (cells p x + C)))) a path) :
    ∃ m', m.rbEraseReplace a s b (ptr x) = some (m',
        if cs = .black ∧ ptr x = 0 then b else 0) ∧
      m'.Around ({(s, ⟨pack (parentOf path) c, ptr l, y⟩)} +
        (cells s l + (cells b (x.paint .black) + C))) s path := by
  obtain ⟨m₁, hm₁, h₁⟩ := h.modify (.setChild .left (ptr l))
  obtain ⟨m₂, hm₂, h₂⟩ := h₁.third.reparent hl ha s
  have hnode := (h₂.of_eq (by abel : _ = {(a, _)} + ({(s, _)} +
    (cells s l + (cells p x + C)))))
  obtain ⟨m₃, hm₃, h₃⟩ := hnode.changeChild s
  have hreads : m.rbEraseReplace a s b (ptr x) = (if ptr x ≠ 0 then do
      let m ← m₃.modify s (.setParentColor (pack (parentOf path) c))
      let m ← m.rbSetParentColor (ptr x) b .black
      some (m, 0)
    else do
      let s' ← m₃.deref s
      let m ← m₃.modify s (.setParentColor (pack (parentOf path) c))
      some (m, if rbIsBlack s'.parentColor then b else 0)) := by
    simp only [Mem.rbEraseReplace, h.deref₂, Option.bind_eq_bind,
      Option.bind_some, hm₁, hm₂, hnode.deref, rbParent_pack h.aligned, hm₃]
  have hplace := h₃.drop
  obtain ⟨m₄, hm₄, h₄⟩ :=
    hplace.modify (.setParentColor (pack (parentOf path) c))
  by_cases hx : x = .nil
  · subst hx
    refine ⟨m₄, ?_, h₄⟩
    rw [hreads, if_neg (by simp [ptr])]
    simp only [hplace.deref, hm₄, Option.bind_eq_bind, Option.bind_some,
      MapLowNode.setChild, rbIsBlack_pack hq, decide_eq_true_eq, ptr,
      and_true]
  · obtain ⟨m₅, hm₅, h₅⟩ := h₄.third.paint hx b .black
    have hne := h₄.third.ptr_ne_zero hx
    refine ⟨m₅, ?_, h₅.back⟩
    rw [hreads, if_pos hne]
    simp only [hm₄, hm₅, Option.bind_eq_bind, Option.bind_some, hne, and_false,
      if_false]

/-- A node without a left child leaves its place to the right one. -/
theorem eraseAugmented_right {turns : Nat}
    (h : m.Around (cells (parentOf path) (.node c .nil a r)) a path) :
    ∃ m', m.rbEraseAugmented turns a = some (m',
        if c = .black ∧ ptr r = 0 then parentOf path else 0) ∧
      m'.Around (cells (parentOf path) (r.paint c)) (ptr r) path := by
  obtain ⟨m₁, hm₁, h₁⟩ := h.changeChild (ptr r)
  have hdrop := (h₁.drop).of_eq (by
    rw [cells_nil]
    abel : _ = cells a r + 0)
  by_cases hr : r = .nil
  · subst hr
    refine ⟨m₁, ?_, hdrop⟩
    rw [ptr_nil] at hm₁
    simp only [Mem.rbEraseAugmented, h.deref, Option.bind_eq_bind,
      Option.bind_some, ptr_nil, if_true, rbParent_pack h.aligned, hm₁, ne_eq,
      not_true_eq_false, if_false, rbIsBlack_pack h.aligned,
      decide_eq_true_eq, and_true]
  · obtain ⟨m₂, hm₂, h₂⟩ := hdrop.paint hr (parentOf path) c
    have hm₂' : m₁.modify (ptr r) (.setParentColor (pack (parentOf path) c)) =
        some m₂ := hm₂
    have hne := hdrop.ptr_ne_zero hr
    refine ⟨m₂, ?_, h₂.of_eq (add_zero _)⟩
    rw [if_neg (by simp [hne])]
    simp only [Mem.rbEraseAugmented, h.deref, Option.bind_eq_bind,
      Option.bind_some, ptr_nil, if_true, rbParent_pack h.aligned, hm₁, ne_eq,
      hne, not_false_eq_true, hm₂']

/-- A node without a right child leaves its place to the left one. -/
theorem eraseAugmented_left {turns : Nat} (hl : l ≠ .nil)
    (h : m.Around (cells (parentOf path) (.node c l a .nil)) a path) :
    ∃ m', m.rbEraseAugmented turns a = some (m', 0) ∧
      m'.Around (cells (parentOf path) (l.paint c)) (ptr l) path := by
  have hsub := h.of_eq (by
    rw [cells, cells_nil, ptr_nil]
    abel : _ = cells a l + ({(a, ⟨pack (parentOf path) c, ptr l, 0⟩)} + 0))
  obtain ⟨m₁, hm₁, h₁⟩ := hsub.paint hl (parentOf path) c
  obtain ⟨m₂, hm₂, h₂⟩ := h₁.swap.changeChild (ptr l)
  have hm₁' : m.modify (ptr l) (.setParentColor (pack (parentOf path) c)) =
      some m₁ := hm₁
  have hne := hsub.ptr_ne_zero hl
  refine ⟨m₂, ?_, (h₂.drop).of_eq (add_zero _)⟩
  simp only [Mem.rbEraseAugmented, h.deref, Option.bind_eq_bind,
    Option.bind_some, hne, if_false, ptr_nil, if_true,
    rbParent_pack h.aligned, hm₁', hm₂]

/-- A node with two children leaves its place to its successor. -/
theorem eraseAugmented_both {turns : Nat} (hl : l ≠ .nil)
    (h : m.Around (cells (parentOf path) (.node c l a r)) a path)
    (hleft : leftmost r [] = some (cs, s, x, front))
    (hturns : front.length ≤ turns) :
    ∃ m', m.rbEraseAugmented turns a = some (m',
        if cs = .black ∧ ptr x = 0 then parentFrom s front else 0) ∧
      m'.Around (cells (parentFrom s front) (x.paint .black)) (ptr x)
        (front ++ ⟨.right, c, s, l⟩ :: path) := by
  have hr : r ≠ .nil := by
    rintro rfl
    cases hleft
  have hcell := h
  rw [cells] at hcell
  have hderef := hcell.deref
  have ha := hcell.address.2
  have hright := hcell.of_eq (by abel : _ = cells a r +
    ({(a, ⟨pack (parentOf path) c, ptr l, ptr r⟩)} + cells a l))
  have hne : ptr l ≠ 0 := (hcell.of_eq (by abel : _ = cells a l +
    ({(a, _)} + cells a r))).ptr_ne_zero hl
  obtain ⟨m₁, hm₁, h₁⟩ := hright.eraseSuccessor ha hleft hturns
  have hq := h₁.swap.alignedFrom ha
  obtain ⟨m₂, hm₂, h₂⟩ := (h₁.of_eq (by abel : _ = {(s, _)} +
    ({(a, ⟨pack (parentOf path) c, ptr l, ptr r⟩)} + (cells a l +
      (cells s x + pathCellsFrom s (ptr x) front))))).eraseReplace
        (b := parentFrom s front) hl ha hq
  refine ⟨m₂, ?_, around_append.mpr (h₂.of_eq ?_)⟩
  · simp only [Mem.rbEraseAugmented, hderef, Option.bind_eq_bind,
      Option.bind_some, hne, if_false, hright.ptr_ne_zero hr, hm₁, hm₂]
  · simp only [MapLowNode.facing]
    abel

/-- `__rb_erase_augmented` refines `unlink`. -/
theorem eraseAugmented {turns : Nat}
    (h : m.Around (cells (parentOf path) (.node c l a r)) a path)
    (hturns : r.toList.length ≤ turns) :
    ∃ m', m.rbEraseAugmented turns a = some (m',
        if (unlink c l r path).short = true then
          parentOf (unlink c l r path).path else 0) ∧
      m'.Around (cells (parentOf (unlink c l r path).path)
          (unlink c l r path).tree) (ptr (unlink c l r path).tree)
        (unlink c l r path).path := by
  have hfront : ∀ {cs s x front}, leftmost r [] = some (cs, s, x, front) →
      front.length ≤ turns := by
    intro cs s x front hleft
    have hr : r ≠ .nil := by
      rintro rfl
      cases hleft
    obtain ⟨_, _, _, q, hq, hfill, -⟩ := leftmost_spec [] hr
    rw [hleft, List.append_nil] at hq
    cases hq
    have hlen := Path.length_le front (.node cs .nil s x)
    rw [hfill] at hlen
    omega
  revert h hfront
  fun_cases unlink c l r path with
  | case1 =>
      intro h _
      obtain ⟨m', hm, h'⟩ := h.eraseAugmented_right
      exact ⟨m', by simpa using hm, h'⟩
  | case2 cr lr ar rr =>
      intro h _
      obtain ⟨m', hm, h'⟩ := h.eraseAugmented_right
      have hne : ar ≠ 0 := (h'.of_eq (by
        simp only [RedBlack.Tree.paint, cells]
        abel : _ = {(ar, _)} + (cells ar lr + cells ar rr))).address.1
      exact ⟨m', by simpa [hne] using hm, h'⟩
  | case3 cl ll al rl =>
      intro h _
      obtain ⟨m', hm, h'⟩ := Mem.Around.eraseAugmented_left (by simp) h
      exact ⟨m', by simpa using hm, h'⟩
  | case4 cl ll al rl cr lr ar rr hnone =>
      obtain ⟨cs, s, c₂, q, hsome, -⟩ :=
        leftmost_spec (t := .node cr lr ar rr) [] (by simp)
      rw [hnone] at hsome
      cases hsome
  | case5 cl ll al rl cr lr ar rr cs s q hsome =>
      intro h hfront
      obtain ⟨m', hm, h'⟩ :=
        h.eraseAugmented_both (by simp) hsome (hfront hsome)
      rw [parentOf_append]
      exact ⟨m', by simpa using hm, h'⟩
  | case6 cl ll al rl cr lr ar rr cs s c₂ l₂ a₂ r₂ q hsome =>
      intro h hfront
      obtain ⟨m', hm, h'⟩ :=
        h.eraseAugmented_both (by simp) hsome (hfront hsome)
      rw [parentOf_append]
      have hne : a₂ ≠ 0 := (h'.of_eq (by
        simp only [RedBlack.Tree.paint, cells]
        abel : _ = {(a₂, _)} + (cells a₂ l₂ + cells a₂ r₂))).address.1
      exact ⟨m', by simpa [hne] using hm, h'⟩

end Mem.Around

/-! ## Erasure as a whole -/

/-- **`eaf_map_low_erase`.**  From a balanced tree it takes out the node, and
leaves a balanced tree with the other nodes in the same order. -/
theorem eafMapLowErase_spec {turns : Nat}
    (hbal : ∃ n, Balanced (path.fill (.node c l a r)) .black n)
    (h : m.Shows (path.fill (.node c l a r)))
    (hturns : (path.fill (.node c l a r)).toList.length ≤ turns) :
    ∃ m' T, m.eafMapLowErase turns a = some m' ∧ m'.Shows T ∧
      T.toList = path.before ++ (l.toList ++ r.toList ++ path.after) ∧
      ∃ n, Balanced T .black n := by
  obtain ⟨T, hT, hlist, hbalT⟩ := erase_spec hbal
  obtain ⟨hunlist, -, -⟩ := unlink_spec hbal
  have hwhole := Path.toList_fill path (.node c l a r)
  have hr : r.toList.length ≤ turns := by
    rw [hwhole] at hturns
    simp [RedBlack.Tree.toList] at hturns
    omega
  obtain ⟨m₁, hm₁, h₁⟩ := (shows_fill.mp h).eraseAugmented hr
  have hlen : (unlink c l r path).path.length ≤ turns := by
    have hle := Path.length_le (unlink c l r path).path
      (unlink c l r path).tree
    rw [hunlist] at hle
    rw [hwhole] at hturns
    simp [RedBlack.Tree.toList] at hle hturns
    omega
  unfold erase at hT
  split at hT
  · next hshort =>
      have htree := unlink_short hshort
      rw [if_pos hshort] at hm₁
      cases hpath : (unlink c l r path).path with
      | nil =>
          rw [hpath] at hT h₁ hm₁
          cases hT
          refine ⟨m₁, _, ?_, shows_iff.mpr h₁, hlist, hbalT⟩
          simp only [Mem.eafMapLowErase, hm₁, parentOf, Option.bind_eq_bind,
            Option.bind_some, ne_eq, not_true_eq_false, if_false]
      | cons cr rest =>
          have hne : cr.label ≠ 0 := by
            rw [hpath] at h₁
            exact (around_cons.mp h₁).address.1
          obtain ⟨m₂, hm₂, h₂⟩ :=
            rbEraseColor_refines hT h₁ (by simp [hpath]) hlen
          rw [htree, ptr_nil, hpath, parentOf_cons] at hm₂
          rw [hpath, parentOf_cons] at hm₁
          refine ⟨m₂, T, ?_, h₂, hlist, hbalT⟩
          simp only [Mem.eafMapLowErase, hm₁, Option.bind_eq_bind,
            Option.bind_some, ne_eq, hne, not_false_eq_true, if_true, hm₂]
  · next hshort =>
      rw [if_neg hshort] at hm₁
      cases hT
      refine ⟨m₁, _, ?_, shows_fill.mpr h₁, hlist, hbalT⟩
      simp only [Mem.eafMapLowErase, hm₁, Option.bind_eq_bind,
        Option.bind_some, ne_eq, not_true_eq_false, if_false]

end Utils
end Eaf
