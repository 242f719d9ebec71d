import Eaf.Utils.TreeLayout

/-!
# Insertion repairs the tree in memory

What the cases of `__rb_insert` do to the cells around them, and that the loop
does to the tree in memory what `insertFix` does to trees.
-/

namespace Eaf
namespace Utils

open RedBlack Cells

variable {m : Mem} {C : Multiset Cell} {g p q n : Ptr} {pc gc near far stale : UInt64}
  {d e : Side} {k c : Color} {path rest : Path Ptr} {s t u x y T : RedBlack.Tree Ptr}
  {hole : Ptr}

namespace Mem.Around

/-- Case 2: the node and its parent change places. -/
theorem insertRotateParent
    (h : m.Around ({(n, .facing d gc (ptr x) far)} +
      ({(p, .facing d pc near n)} + (cells n x + C))) hole path) :
    ∃ m', m.rbInsertRotateParent d n p = some m' ∧
      m'.Around ({(n, .facing d gc p far)} +
        ({(p, .facing d (pack n .red) near (ptr x))} +
          (cells p (x.paint .black) + C))) hole path := by
  obtain ⟨m₁, hm₁, h₁⟩ := h.modify₂ (.setChild d.flip (ptr x))
  obtain ⟨m₂, hm₂, h₂⟩ := h₁.modify (.setChild d p)
  obtain ⟨m₃, hm₃, h₃⟩ := h₂.third.paintIf p .black
  obtain ⟨m₄, hm₄, h₄⟩ := h₃.back.modify₂ (.setParentColor (pack n .red))
  have hm₄' : m₃.rbSetParentColor p n .red = some m₄ := hm₄
  refine ⟨m₄, ?_, by simpa using h₄⟩
  simp only [Mem.rbInsertRotateParent, h.deref, Option.bind_eq_bind,
    Option.bind_some, facing_child, hm₁, hm₂, hm₃, hm₄']

/-- Case 3: the parent takes the place of the grandparent, whose near child
need not be right any more. -/
theorem insertRotateGparent
    (h : m.Around ({(g, .facing d (pack (parentOf rest) k) stale far)} +
      ({(p, .facing d pc near (ptr s))} + (cells q s + C))) g rest) :
    ∃ m', m.rbInsertRotateGparent d p g (ptr s) = some m' ∧
      m'.Around ({(g, .facing d (pack p .red) (ptr s) far)} +
        ({(p, .facing d (pack (parentOf rest) k) near g)} +
          (cells g (s.paint .black) + C))) p rest := by
  obtain ⟨m₁, hm₁, h₁⟩ := h.modify (.setChild d (ptr s))
  obtain ⟨m₂, hm₂, h₂⟩ := h₁.modify₂ (.setChild d.flip g)
  obtain ⟨m₃, hm₃, h₃⟩ := h₂.third.paintIf g .black
  obtain ⟨m₄, hm₄, h₄⟩ := h₃.back.rotateSetParents (c := k) (by simp) .red
  refine ⟨m₄, ?_, by simpa using h₄⟩
  simp only [Mem.rbInsertRotateGparent, Option.bind_eq_bind, hm₁,
    Option.bind_some, hm₂, hm₃, hm₄]

/-- Case 1: the colours are exchanged between the grandparent and its
children. -/
theorem insertFlip
    (h : m.Around ({(g, .facing e (pack (parentOf rest) k) p (ptr u))} +
      ({(p, .facing d pc near far)} + (cells g u + C))) g rest)
    (hu : u ≠ .nil) :
    ∃ m', m.rbInsertFlip p g (ptr u) = some (.again m' g (parentOf rest)) ∧
      m'.Around ({(g, .facing e (pack (parentOf rest) .red) p (ptr u))} +
        ({(p, .facing d (pack g .black) near far)} +
          (cells g (u.paint .black) + C))) g rest := by
  obtain ⟨m₁, hm₁, h₁⟩ := h.third.paint hu g .black
  obtain ⟨m₂, hm₂, h₂⟩ := h₁.back.modify₂ (.setParentColor (pack g .black))
  obtain ⟨m₃, hm₃, h₃⟩ := h₂.modify
    (.setParentColor (pack (parentOf rest) .red))
  have hm₂' : m₁.rbSetParentColor p g .black = some m₂ := hm₂
  have hm₃' : m₂.rbSetParentColor g (parentOf rest) .red = some m₃ := hm₃
  refine ⟨m₃, ?_, by simpa using h₃⟩
  simp only [Mem.rbInsertFlip, Option.bind_eq_bind, hm₁, Option.bind_some,
    hm₂', h₂.deref, facing_parentColor, rbParent_pack h.aligned, hm₃']

end Mem.Around

namespace Mem.Around

/-- A turn with a red uncle goes on at the grandparent. -/
theorem insertTurn_flip
    (h : m.Around (cells p t) n (⟨d, c, p, s⟩ :: ⟨e, k, g, u⟩ :: rest))
    (hn : n = ptr t) (hu : u.color = .red) :
    ∃ m', m.rbInsertTurn e n p g = some (.again m' g (parentOf rest)) ∧
      m'.Around (cells (parentOf rest) (.facing e .red
        (.facing d .black t p s) g (u.paint .black))) g rest := by
  subst hn
  have hg := around_cons_cons.mp h
  have hred := hg.third.isRedNode hg.address.2
  obtain ⟨m', hm, h'⟩ := hg.insertFlip (by rintro rfl; cases hu)
  refine ⟨m', ?_, h'.of_eq ?_⟩
  · simp only [Mem.rbInsertTurn, hg.deref, Option.bind_eq_bind,
      Option.bind_some, facing_child_flip, hred, hu, decide_true, if_true, hm]
  · simp only [cells_facing, ptr_facing, ptr_paint]
    abel

/-- A turn with a black uncle ends the loop: one rotation is enough when the
node is on the outside. -/
theorem insertTurn_outside
    (h : m.Around (cells p t) n (⟨e, c, p, s⟩ :: ⟨e, k, g, u⟩ :: rest))
    (hn : n = ptr t) (ht : t ≠ .nil) (hu : u.color ≠ .red) :
    ∃ m', m.rbInsertTurn e n p g = some (.done m') ∧
      m'.Around (cells (parentOf rest) (.facing e k t p
        (.facing e .red (s.paint .black) g u))) p rest := by
  subst hn
  have hg := around_cons_cons.mp h
  have hred := hg.third.isRedNode hg.address.2
  have hne : ptr t ≠ ptr s :=
    ((around_cons.mp h).of_eq (by abel : _ = cells p t + (cells p s + _)
      )).ptr_ne_ptr ht
  obtain ⟨m', hm, h'⟩ := (hg.of_eq (by abel : _ =
    {(g, MapLowNode.facing e (pack (parentOf rest) k) p (ptr u))} +
      ({(p, MapLowNode.facing e (pack g c) (ptr t) (ptr s))} +
        (cells p s + (cells g u + cells p t))))).insertRotateGparent
  refine ⟨m', ?_, h'.of_eq ?_⟩
  · simp only [Mem.rbInsertTurn, hg.deref, hg.deref₂, Option.bind_eq_bind,
      Option.bind_some, facing_child_flip, hred, hu, decide_false,
      Bool.false_eq_true, if_false, hne, hm, Option.map_some]
  · simp only [cells_facing, ptr_facing, ptr_paint]
    abel

/-- On the inside a rotation at the parent comes first. -/
theorem insertTurn_inside {ct : Color} {a : Ptr}
    (h : m.Around (cells p (.facing e ct x a y)) a
      (⟨e.flip, c, p, s⟩ :: ⟨e, k, g, u⟩ :: rest))
    (hu : u.color ≠ .red) :
    ∃ m', m.rbInsertTurn e a p g = some (.done m') ∧
      m'.Around (cells (parentOf rest) (.facing e k
        (.facing e .red s p (x.paint .black)) a
        (.facing e .red (y.paint .black) g u))) a rest := by
  have hg := around_cons_cons.mp h
  have hred := hg.third.isRedNode hg.address.2
  rw [facing_flip, cells_facing] at hg
  obtain ⟨m₁, hm₁, h₁⟩ := (hg.of_eq (by abel : _ =
    {(a, MapLowNode.facing e (pack p ct) (ptr x) (ptr y))} +
      ({(p, MapLowNode.facing e (pack g c) (ptr s) a)} + (cells a x +
        ({(g, MapLowNode.facing e (pack (parentOf rest) k) p (ptr u))} +
          (cells g u + (cells p s + cells a y))))))).insertRotateParent
  obtain ⟨m₂, hm₂, h₂⟩ := (h₁.of_eq (by abel : _ =
    {(g, MapLowNode.facing e (pack (parentOf rest) k) p (ptr u))} +
      ({(a, MapLowNode.facing e (pack p ct) p (ptr y))} + (cells a y +
        ({(p, MapLowNode.facing e (pack a .red) (ptr s) (ptr x))} +
          (cells p (x.paint .black) + (cells g u + cells p s))))))
    ).insertRotateGparent
  refine ⟨m₂, ?_, h₂.of_eq ?_⟩
  · simp only [Mem.rbInsertTurn, hg.deref, hg.deref₂, Option.bind_eq_bind,
      Option.bind_some, facing_child_flip, hred, hu, decide_false,
      Bool.false_eq_true, if_false, if_true, hm₁, h₁.deref, hm₂,
      Option.map_some]
  · simp only [cells_facing, ptr_facing, ptr_paint]
    abel

/-- The last turn: a rotation brings the repair to its end. -/
theorem insertTurn_rotate {t' : RedBlack.Tree Ptr}
    (h : m.Around (cells p t) (ptr t) (⟨d, c, p, s⟩ :: ⟨e, k, g, u⟩ :: rest))
    (ht : t ≠ .nil) (hu : u.color ≠ .red)
    (hrot : insertRotate d e k t p s g u = some t') :
    ∃ m', m.rbInsertTurn e (ptr t) p g = some (.done m') ∧
      m'.Around (cells (parentOf rest) t') (ptr t') rest := by
  by_cases hde : d = e
  · subst hde
    rw [insertRotate_same] at hrot
    cases hrot
    rw [ptr_facing]
    exact h.insertTurn_outside rfl ht hu
  · obtain rfl := Side.eq_flip_of_ne hde
    obtain ⟨x, a, y, heq⟩ := RedBlack.Tree.exists_facing e ht
    rw [heq, insertRotate_flip] at hrot
    cases hrot
    rw [heq, ptr_facing] at h ⊢
    rw [ptr_facing]
    exact h.insertTurn_inside hu

end Mem.Around

/-! ## The loop -/

/-- **The loop of `__rb_insert` refines `insertFix`.** -/
theorem rbInsertLoop_refines {turns : Nat} (hT : insertFix t path = some T)
    (h : m.Around (cells (parentOf path) t) (ptr t) path)
    (ht : t.color = .red) (hturns : path.length < turns) :
    ∃ m', m.rbInsertLoop turns (ptr t) (parentOf path) = some m' ∧
      m'.Shows T := by
  have hne : t ≠ .nil := by
    rintro rfl
    cases ht
  induction turns generalizing m t path with
  | zero => omega
  | succ turns ih =>
      cases path with
      | nil =>
          obtain ⟨m', hm, h'⟩ :=
            (h.of_eq (add_zero _).symm).paint hne 0 .black
          cases hT
          refine ⟨m', hm, shows_iff.mpr ?_⟩
          rw [ptr_paint]
          exact h'.of_eq (add_zero _)
      | cons cr rest =>
          obtain ⟨d, k, p, s⟩ := cr
          cases k with
          | black =>
              cases hT
              have hcons := around_cons.mp h
              refine ⟨m, ?_, shows_fill.mpr h⟩
              simp only [Mem.rbInsertLoop, parentOf_cons, hcons.address.1,
                if_false, hcons.deref, Option.bind_eq_bind, Option.bind_some,
                facing_parentColor, rbIsBlack_pack hcons.aligned, decide_true,
                if_true]
          | red =>
          cases rest with
          | nil => cases hT
          | cons cr rest =>
          obtain ⟨e, k, g, u⟩ := cr
          replace h : m.Around (cells p t) (ptr t)
            (⟨d, .red, p, s⟩ :: ⟨e, k, g, u⟩ :: rest) := h
          have hp := around_cons.mp h
          have hg := around_cons_cons.mp h
          have hside := side_eq e (pack (parentOf rest) k) hg.third.third.ptr_ne
          have hred : rbIsBlack g = false := by
            rw [← pack_red g, rbIsBlack_pack hg.address.2]
            rfl
          -- the turn, whichever way it ends
          have hdone : ∀ m₁, m.rbInsertTurn e (ptr t) p g = some (.done m₁) →
              m.rbInsertLoop (turns + 1) (ptr t) p = some m₁ := by
            intro m₁ hm₁
            simp only [Mem.rbInsertLoop, hp.address.1, if_false, hp.deref,
              Option.bind_eq_bind, Option.bind_some, facing_parentColor,
              parentOf_cons, pack_red, hred, Bool.false_eq_true, hg.deref,
              hside, hm₁]
          have hagain : ∀ m₁ n q,
              m.rbInsertTurn e (ptr t) p g = some (.again m₁ n q) →
                m.rbInsertLoop (turns + 1) (ptr t) p =
                  m₁.rbInsertLoop turns n q := by
            intro m₁ n q hm₁
            simp only [Mem.rbInsertLoop, hp.address.1, if_false, hp.deref,
              Option.bind_eq_bind, Option.bind_some, facing_parentColor,
              parentOf_cons, pack_red, hred, Bool.false_eq_true, hg.deref,
              hside, hm₁]
          by_cases hu : u.color = .red
          · rw [insertFix, if_pos hu] at hT
            obtain ⟨m₁, hm₁, h₁⟩ := h.insertTurn_flip rfl hu
            have hlen : rest.length < turns := by
              simp only [List.length_cons] at hturns
              omega
            obtain ⟨m', hm, hshows⟩ := ih hT (by rwa [ptr_facing])
              (by simp) hlen (by
                intro hnil
                have hlist := congrArg RedBlack.Tree.toList hnil
                cases e <;> simp [Side.arrange, RedBlack.Tree.toList] at hlist)
            rw [ptr_facing] at hm
            exact ⟨m', (hagain _ _ _ hm₁).trans hm, hshows⟩
          · rw [insertFix, if_neg hu] at hT
            obtain ⟨t', hrot, rfl⟩ := Option.map_eq_some_iff.mp hT
            obtain ⟨m₁, hm₁, h₁⟩ := h.insertTurn_rotate hne hu hrot
            exact ⟨m₁, hdone _ hm₁, shows_fill.mpr h₁⟩

end Utils
end Eaf
