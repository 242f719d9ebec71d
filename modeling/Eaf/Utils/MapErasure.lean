import Eaf.Utils.TreeLayout

/-!
# Erasure repairs the tree in memory

What the cases of `____rb_erase_color` do to the cells around them, and that
the loop does to the tree in memory what `eraseFix` does to trees.  That the
memory is left at all means that the sibling was never null.
-/

namespace Eaf
namespace Utils

open RedBlack Cells

variable {m : Mem} {C : Multiset Cell} {a b p q : Ptr}
  {ac bc pc x far stale : UInt64} {d e : Side} {k c : Color}
  {path rest : Path Ptr} {s t w y z l r T t' : RedBlack.Tree Ptr} {short : Bool} {hole : Ptr}

/-- How a turn ends that leaves the place a black node short, or does not. -/
def turnEnd (short : Bool) (m : Mem) (node parent : Ptr) : Mem.Turn :=
  if short = true ∧ parent ≠ 0 then .again m node parent else .done m

namespace Mem.Around

/-- Case 1: the red sibling takes the place of the parent. -/
theorem eraseRotateRed
    (h : m.Around ({(p, .facing d (pack (parentOf rest) k) x a)} +
      ({(a, .facing d ac (ptr y) far)} + (cells a y + C))) p rest)
    (hy : y ≠ .nil) :
    ∃ m', m.rbEraseRotateRed d p a = some (m', ptr y) ∧
      m'.Around ({(p, .facing d (pack a .red) x (ptr y))} +
        ({(a, .facing d (pack (parentOf rest) k) p far)} +
          (cells p (y.paint .black) + C))) a rest := by
  obtain ⟨m₁, hm₁, h₁⟩ := h.modify (.setChild d.flip (ptr y))
  obtain ⟨m₂, hm₂, h₂⟩ := h₁.modify₂ (.setChild d p)
  obtain ⟨m₃, hm₃, h₃⟩ := h₂.third.paint hy p .black
  obtain ⟨m₄, hm₄, h₄⟩ := h₃.back.rotateSetParents (c := k) (by simp) .red
  refine ⟨m₄, ?_, by simpa using h₄⟩
  simp only [Mem.rbEraseRotateRed, h.deref₂, Option.bind_eq_bind,
    Option.bind_some, facing_child, hm₁, hm₂, hm₃, hm₄]

/-- Case 3: the near child of the sibling comes up between the two. -/
theorem eraseRotateSibling
    (h : m.Around ({(p, .facing d pc x a)} + ({(a, .facing d ac b far)} +
      ({(b, .facing d bc (ptr y) (ptr z))} + (cells b z + C)))) hole path) :
    ∃ m', m.rbEraseRotateSibling d p a b = some m' ∧
      m'.Around ({(p, .facing d pc x b)} + ({(a, .facing d ac (ptr z) far)} +
        ({(b, .facing d bc (ptr y) a)} +
          (cells a (z.paint .black) + C)))) hole path := by
  obtain ⟨m₁, hm₁, h₁⟩ := h.modify₂ (.setChild d (ptr z))
  obtain ⟨m₂, hm₂, h₂⟩ := h₁.third.modify (.setChild d.flip a)
  obtain ⟨m₃, hm₃, h₃⟩ := h₂.modify₂ (.setChild d.flip b)
  obtain ⟨m₄, hm₄, h₄⟩ := (h₃.of_eq (by abel : _ = cells b z +
    ({(b, _)} + ({(p, _)} + ({(a, _)} + C))))).paintIf a .black
  refine ⟨m₄, ?_, h₄.of_eq ?_⟩
  · simp only [Mem.rbEraseRotateSibling, h.third.deref, Option.bind_eq_bind,
      Option.bind_some, facing_child_flip, hm₁, hm₂, hm₃, hm₄]
  · simp only [facing_setChild, facing_setChild_flip]
    abel

/-- Case 4: the sibling takes the place of the parent, whose far child need
not be right any more. -/
theorem eraseRotateParent
    (h : m.Around ({(p, .facing d (pack (parentOf rest) k) x stale)} +
      ({(b, .facing d bc (ptr y) (ptr z))} +
        (cells b y + (cells q z + C)))) p rest) (hz : z ≠ .nil) :
    ∃ m', m.rbEraseRotateParent d p b (ptr z) = some m' ∧
      m'.Around ({(p, .facing d (pack b .black) x (ptr y))} +
        ({(b, .facing d (pack (parentOf rest) k) p (ptr z))} +
          (cells p y + (cells b (z.paint .black) + C)))) b rest := by
  obtain ⟨m₁, hm₁, h₁⟩ := h.modify (.setChild d.flip (ptr y))
  obtain ⟨m₂, hm₂, h₂⟩ := h₁.modify₂ (.setChild d p)
  obtain ⟨m₃, hm₃, h₃⟩ := (h₂.of_eq (by abel : _ = cells q z +
    (cells b y + ({(p, _)} + ({(b, _)} + C))))).paint hz b .black
  obtain ⟨m₄, hm₄, h₄⟩ := h₃.swap.reparentIf h₂.swap.address.2 p
  obtain ⟨m₅, hm₅, h₅⟩ := (h₄.of_eq (by abel : _ = {(p, _)} + ({(b, _)} +
    (cells p y + (cells b (z.paint .black) + C))))).rotateSetParents (c := k)
      (by simp) .black
  refine ⟨m₅, ?_, by simpa using h₅⟩
  simp only [Mem.rbEraseRotateParent, h.deref₂, Option.bind_eq_bind,
    Option.bind_some, facing_child, hm₁, hm₂, hm₃, hm₄, hm₅]

/-- Case 2: the sibling becomes red and the parent black. -/
theorem eraseFlip {n : MapLowNode}
    (h : m.Around ({(p, .facing d (pack (parentOf rest) k) x far)} +
      ({(a, n)} + C)) p rest) :
    ∃ m', m.rbEraseFlip p a =
        some (turnEnd (decide (k = .black)) m' p (parentOf rest)) ∧
      m'.Around ({(p, .facing d (pack (parentOf rest) .black) x far)} +
        ({(a, n.setParentColor (pack p .red))} + C)) p rest := by
  obtain ⟨m₁, hm₁, h₁⟩ := h.modify₂ (.setParentColor (pack p .red))
  have hm₁' : m.rbSetParentColor a p .red = some m₁ := hm₁
  cases k with
  | red =>
      obtain ⟨m₂, hm₂, h₂⟩ := h₁.modify
        fun n => n.setParentColor (n.parentColor ||| bit .black)
      have hm₂' : m₁.rbSetBlack p = some m₂ := hm₂
      refine ⟨m₂, ?_, by simpa [pack_or_black] using h₂⟩
      simp only [Mem.rbEraseFlip, Option.bind_eq_bind, hm₁', Option.bind_some,
        h₁.deref, facing_parentColor, rbIsRed_pack h.aligned, decide_true,
        if_true, hm₂', Option.map_some, turnEnd, reduceCtorEq, decide_false,
        Bool.false_eq_true, false_and, if_false]
  | black =>
      refine ⟨m₁, ?_, h₁⟩
      simp only [Mem.rbEraseFlip, Option.bind_eq_bind, hm₁', Option.bind_some,
        h₁.deref, facing_parentColor, rbIsRed_pack h.aligned, reduceCtorEq,
        decide_false, Bool.false_eq_true, if_false, rbParent_pack h.aligned,
        turnEnd, decide_true, true_and]
      split <;> rfl

/-- The tree around the parent of a node and its sibling. -/
theorem around_sibling :
    m.Around (cells p t) hole (⟨d, k, p, .facing d c w a y⟩ :: rest) ↔
      m.Around ({(p, .facing d (pack (parentOf rest) k) hole a)} +
        ({(a, .facing d (pack p c) (ptr w) (ptr y))} +
          (cells a w + (cells a y + cells p t)))) p rest := by
  rw [around_cons, cells_facing, ptr_facing]
  simp only [add_assoc]

/-- Case 4 with a red far child. -/
theorem eraseSettle_far
    (h : m.Around (cells p t) (ptr t) (⟨d, k, p, .facing d c w a y⟩ :: rest))
    (hy : y.color ≠ .black) :
    ∃ m', m.rbEraseSettle d p a = some (.done m') ∧
      m'.Around (cells (parentOf rest)
        (.facing d k (.facing d .black t p w) a (y.paint .black))) a rest := by
  have hs := around_sibling.mp h
  have hblack := (hs.of_eq (by abel : _ = cells a y + ({(p, _)} +
    ({(a, _)} + (cells a w + cells p t))))).isBlackNode hs.swap.address.2
  obtain ⟨m', hm, h'⟩ := hs.eraseRotateParent (by rintro rfl; exact hy rfl)
  refine ⟨m', ?_, h'.of_eq ?_⟩
  · simp only [Mem.rbEraseSettle, hs.deref₂, Option.bind_eq_bind,
      Option.bind_some, facing_child_flip, hblack, hy, decide_false,
      Bool.false_eq_true, if_false, hm, Option.map_some]
  · simp only [cells_facing, ptr_facing, ptr_paint]
    abel

/-- Cases 3 and 4, with a red near child. -/
theorem eraseSettle_near {cx : Color} {n : Ptr}
    (h : m.Around (cells p t) (ptr t)
      (⟨d, k, p, .facing d c (.facing d cx l n r) a y⟩ :: rest))
    (hx : cx ≠ .black) (hy : y.color = .black) :
    ∃ m', m.rbEraseSettle d p a = some (.done m') ∧
      m'.Around (cells (parentOf rest)
        (.facing d k (.facing d .black t p l) n
          (.facing d .black (r.paint .black) a y))) n rest := by
  have hs := around_sibling.mp h
  have hfar := (hs.of_eq (by abel : _ = cells a y + ({(p, _)} +
    ({(a, _)} + (cells a (.facing d cx l n r) + cells p t))))).isBlackNode
      hs.swap.address.2
  have hnear := hs.third.isBlackNode hs.swap.address.2
  rw [ptr_facing] at hnear
  have hcells := hs
  simp only [cells_facing, ptr_facing] at hcells
  obtain ⟨m₁, hm₁, h₁⟩ := (hcells.of_eq (by abel : _ = {(p, _)} + ({(a, _)} +
    ({(n, _)} + (cells n r + (cells n l + (cells a y + cells p t)))))
    )).eraseRotateSibling
  -- the old sibling is now the far child of the new one
  have hz : cells p (.facing d c (r.paint .black) a y) =
      {(a, .facing d (pack p c) (ptr r) (ptr y))} +
        (cells a (r.paint .black) + cells a y) := by
    rw [cells_facing, ptr_paint]
  obtain ⟨m₂, hm₂, h₂⟩ := (h₁.of_eq (by rw [hz, ptr_facing]; abel :
    _ = {(p, _)} + ({(n, .facing d (pack a cx) (ptr l)
      (ptr (.facing d c (r.paint .black) a y)))} + (cells n l +
        (cells p (.facing d c (r.paint .black) a y) + cells p t)))
    )).eraseRotateParent (by cases d <;> simp [RedBlack.Tree.facing])
  rw [ptr_facing] at hm₂
  refine ⟨m₂, ?_, h₂.of_eq ?_⟩
  · simp only [Mem.rbEraseSettle, hs.deref₂, Option.bind_eq_bind,
      Option.bind_some, facing_child_flip, facing_child, ptr_facing, hfar, hy,
      decide_true, if_true, hnear, RedBlack.Tree.color_facing, hx, decide_false,
      Bool.false_eq_true, if_false, hm₁, hm₂, Option.map_some]
  · simp only [cells_facing, ptr_facing, ptr_paint, RedBlack.Tree.paint_facing]
    abel

/-- Case 2, with two black children. -/
theorem eraseSettle_flip
    (h : m.Around (cells p t) (ptr t) (⟨d, k, p, .facing d c w a y⟩ :: rest))
    (hw : w.color = .black) (hy : y.color = .black) :
    ∃ m', m.rbEraseSettle d p a =
        some (turnEnd (decide (k = .black)) m' p (parentOf rest)) ∧
      m'.Around (cells (parentOf rest)
        (.facing d .black t p (.facing d .red w a y))) p rest := by
  have hs := around_sibling.mp h
  have hfar := (hs.of_eq (by abel : _ = cells a y + ({(p, _)} +
    ({(a, _)} + (cells a w + cells p t))))).isBlackNode hs.swap.address.2
  have hnear := hs.third.isBlackNode hs.swap.address.2
  obtain ⟨m', hm, h'⟩ := hs.eraseFlip
  refine ⟨m', ?_, h'.of_eq ?_⟩
  · simp only [Mem.rbEraseSettle, hs.deref₂, Option.bind_eq_bind,
      Option.bind_some, facing_child_flip, facing_child, hfar, hy, hnear, hw,
      decide_true, if_true, hm]
  · simp only [cells_facing, ptr_facing, facing_setParentColor]
    abel

/-- Cases 2 to 4 do what `settle` does. -/
theorem eraseSettle
    (h : m.Around (cells p t) (ptr t) (⟨d, k, p, .node c l a r⟩ :: rest))
    (hsettle : settle d k t p l a r = some (t', short)) :
    ∃ m', m.rbEraseSettle d p a =
        some (turnEnd short m' (ptr t') (parentOf rest)) ∧
      m'.Around (cells (parentOf rest) t') (ptr t') rest := by
  rw [← RedBlack.Tree.facing_pick d] at h
  unfold settle at hsettle
  split at hsettle
  · next hblack =>
      cases hsettle
      rw [ptr_facing, ← RedBlack.Tree.facing_pick d]
      exact h.eraseSettle_flip hblack.2 hblack.1
  · next hred =>
      obtain ⟨t'', hrot, heq⟩ := Option.map_eq_some_iff.mp hsettle
      cases heq
      by_cases hfar : (d.flip.pick l r).color = .black
      · have hnear : (d.pick l r).color ≠ .black := fun hn => hred ⟨hfar, hn⟩
        obtain ⟨w, n, z, hx⟩ := RedBlack.Tree.exists_facing (t := d.pick l r) d
          (by intro hnil; exact hnear (by rw [hnil]; rfl))
        rw [hx] at h hrot
        rw [eraseRotate_near hfar] at hrot
        cases hrot
        rw [ptr_facing]
        exact h.eraseSettle_near hnear hfar
      · rw [eraseRotate_far hfar] at hrot
        cases hrot
        rw [ptr_facing]
        exact h.eraseSettle_far hfar

/-- A turn with a black sibling. -/
theorem eraseTurn_black
    (h : m.Around (cells p t) (ptr t) (⟨d, k, p, .node .black l a r⟩ :: rest))
    (hsettle : settle d k t p l a r = some (t', short)) :
    ∃ m', m.rbEraseTurn d p =
        some (turnEnd short m' (ptr t') (parentOf rest)) ∧
      m'.Around (cells (parentOf rest) t') (ptr t') rest := by
  have hs := h
  rw [← RedBlack.Tree.facing_pick d] at hs
  replace hs := around_sibling.mp hs
  obtain ⟨m', hm, h'⟩ := h.eraseSettle hsettle
  refine ⟨m', ?_, h'⟩
  simp only [Mem.rbEraseTurn, hs.deref, hs.deref₂, Option.bind_eq_bind,
    Option.bind_some, facing_child_flip, facing_parentColor,
    rbIsRed_pack hs.address.2, reduceCtorEq, decide_false, Bool.false_eq_true,
    if_false, hm]

/-- A turn with a red sibling, whose near child becomes the new sibling. -/
theorem eraseTurn_red {n : Ptr}
    (h : m.Around (cells p t) (ptr t) (⟨d, k, p, .node .red l a r⟩ :: rest))
    (hnear : d.pick l r = .node c w n z)
    (hsettle : settle d .red t p w n z = some (t', short)) :
    ∃ m', m.rbEraseTurn d p = some (.done m') ∧
      m'.Around (cells a t') (ptr t')
        (⟨d, k, a, d.flip.pick l r⟩ :: rest) := by
  have hs := h
  rw [← RedBlack.Tree.facing_pick d] at hs
  replace hs := around_sibling.mp hs
  obtain ⟨m₁, hm₁, h₁⟩ := hs.eraseRotateRed (by rw [hnear]; simp)
  have hrest : m₁.Around (cells p t) (ptr t)
      (⟨d, .red, p, .node .black w n z⟩ :: ⟨d, k, a, d.flip.pick l r⟩ :: rest) := by
    refine around_cons_cons.mpr (h₁.of_eq ?_)
    have hpaint : (d.pick l r).paint .black = .node .black w n z := by
      rw [hnear]
      rfl
    rw [hpaint, hnear]
    simp only [ptr]
    abel
  obtain ⟨m₂, hm₂, h₂⟩ := hrest.eraseSettle hsettle
  obtain rfl := settle_red hsettle
  refine ⟨m₂, ?_, h₂⟩
  have hn : ptr (d.pick l r) = n := by rw [hnear]; rfl
  rw [hn] at hm₁
  simp only [Mem.rbEraseTurn, hs.deref, hs.deref₂, Option.bind_eq_bind,
    Option.bind_some, facing_child_flip, facing_parentColor,
    rbIsRed_pack hs.address.2, decide_true, if_true, hm₁, hm₂, turnEnd,
    Bool.false_eq_true, false_and, if_false]

end Mem.Around

/-! ## The loop -/

/-- **The loop of `____rb_erase_color` refines `eraseFix`.** -/
theorem rbEraseColor_refines {turns : Nat} (hT : eraseFix t path = some T)
    (h : m.Around (cells (parentOf path) t) (ptr t) path) (hpath : path ≠ [])
    (hturns : path.length ≤ turns) :
    ∃ m', m.rbEraseColor turns (ptr t) (parentOf path) = some m' ∧
      m'.Shows T := by
  induction turns generalizing m t path with
  | zero => exact absurd (List.length_eq_zero_iff.mp (by omega)) hpath
  | succ turns ih =>
      cases path with
      | nil => exact absurd rfl hpath
      | cons cr rest =>
          obtain ⟨d, k, p, sib⟩ := cr
          replace h : m.Around (cells p t) (ptr t) (⟨d, k, p, sib⟩ :: rest) := h
          have hp := around_cons.mp h
          have hsib : sib ≠ .nil := by
            rintro rfl
            cases hT
          have hside := side_eq d (pack (parentOf rest) k)
            ((hp.of_eq (by abel : _ = cells p sib + (cells p t + {(p, _)})
              )).ptr_ne_ptr hsib)
          -- the turn, whichever way it ends
          have hdone : ∀ m₁, m.rbEraseTurn d p = some (.done m₁) →
              m.rbEraseColor (turns + 1) (ptr t) p = some m₁ := by
            intro m₁ hm₁
            simp only [Mem.rbEraseColor, hp.deref, Option.bind_eq_bind,
              Option.bind_some, hside, hm₁]
          have hagain : ∀ m₁ n q, m.rbEraseTurn d p = some (.again m₁ n q) →
              m.rbEraseColor (turns + 1) (ptr t) p =
                m₁.rbEraseColor turns n q := by
            intro m₁ n q hm₁
            simp only [Mem.rbEraseColor, hp.deref, Option.bind_eq_bind,
              Option.bind_some, hside, hm₁]
          cases sib with
          | nil => exact absurd rfl hsib
          | node c l a r =>
          cases c with
          | black =>
              simp only [eraseFix] at hT
              cases hsettle : settle d k t p l a r with
              | none => simp [hsettle] at hT
              | some settled =>
                  obtain ⟨t', short⟩ := settled
                  obtain ⟨m₁, hm₁, h₁⟩ := h.eraseTurn_black hsettle
                  rw [parentOf_cons]
                  cases short with
                  | false =>
                      simp only [hsettle, Option.some.injEq] at hT
                      obtain rfl := hT
                      exact ⟨m₁, hdone m₁ hm₁, shows_fill.mpr h₁⟩
                  | true =>
                      simp only [hsettle] at hT
                      cases rest with
                      | nil =>
                          cases hT
                          exact ⟨m₁, hdone m₁ hm₁, shows_iff.mpr h₁⟩
                      | cons cr rest =>
                          have hne := (around_cons.mp h₁).address.1
                          obtain ⟨m', hm, hshows⟩ := ih hT h₁ (by simp)
                            (by simpa using hturns)
                          rw [turnEnd, if_pos ⟨rfl, hne⟩] at hm₁
                          exact ⟨m', (hagain _ _ _ hm₁).trans hm, hshows⟩
          | red =>
              simp only [eraseFix] at hT
              cases hnear : d.pick l r with
              | nil => simp [hnear] at hT
              | node c w n z =>
                  simp only [hnear] at hT
                  obtain ⟨⟨t', short⟩, hsettle, rfl⟩ :=
                    Option.map_eq_some_iff.mp hT
                  obtain ⟨m₁, hm₁, h₁⟩ := h.eraseTurn_red hnear hsettle
                  rw [parentOf_cons]
                  exact ⟨m₁, hdone m₁ hm₁, shows_fill.mpr h₁⟩

end Utils
end Eaf
