import Eaf.Foundation.RedBlackTree

/-!
# Insertion into and erasure from red-black trees

The two repairs.  `insertFix` starts with a red node that may have a red
parent; `eraseFix` starts with a subtree on whose ways down one black node is
missing.  Both go up until the damage is gone.  They are partial only where
the tree is not of the shape a balanced one has.
-/

namespace RedBlack

variable {α : Type*} {t x y s u l r T : Tree α} {a p g : α} {c k : Color}
  {d e : Side} {h n : Nat} {path rest : Path α}

/-! ## Insertion -/

/-- The rotations at the end of an insertion: `t` is red, and so is its parent
`p`, which has `s` on the other side; `p` is on side `e` of the grandparent
`g`, which has the colour `k` and `u` on the other side. -/
def insertRotate (d e : Side) (k : Color) (t : Tree α) (p : α) (s : Tree α)
    (g : α) (u : Tree α) : Option (Tree α) :=
  if d = e then
    some (.facing e k t p (.facing e .red (s.paint .black) g u))
  else
    match t with
    | .nil => none
    | .node _ l n r =>
        some (.facing e k
          (.facing e .red s p ((e.pick l r).paint .black)) n
          (.facing e .red ((e.flip.pick l r).paint .black) g u))

/-- The repair after an insertion, with the red tree `t` at the place. -/
def insertFix : Tree α → Path α → Option (Tree α)
  | t, [] => some (t.paint .black)
  | t, ⟨d, .black, a, s⟩ :: rest =>
      some (Path.fill (⟨d, .black, a, s⟩ :: rest) t)
  | _, [⟨_, .red, _, _⟩] => none
  | t, ⟨d, .red, p, s⟩ :: ⟨e, k, g, u⟩ :: rest =>
      if u.color = .red then
        insertFix (.facing e .red (.facing d .black t p s) g (u.paint .black))
          rest
      else (insertRotate d e k t p s g u).map (Path.fill rest)

theorem insertRotate_same :
    insertRotate d d k t p s g u =
      some (.facing d k t p (.facing d .red (s.paint .black) g u)) := by
  rw [insertRotate.eq_def, if_pos rfl]

theorem insertRotate_flip :
    insertRotate e.flip e k (.facing e c x a y) p s g u =
      some (.facing e k (.facing e .red s p (x.paint .black)) a
        (.facing e .red (y.paint .black) g u)) := by
  cases e <;> rfl

/-- The rotations keep the labels and end the repair. -/
theorem insertRotate_spec (ht : Balanced t .red h) (hs : Balanced s .black h)
    (hu : Balanced u .black h) :
    ∃ t', insertRotate d e .black t p s g u = some t' ∧
      t'.toList =
        (Tree.facing e .black (.facing d .red t p s) g u).toList ∧
      Balanced t' .black (h + 1) := by
  by_cases hde : d = e
  · subst hde
    refine ⟨_, if_pos rfl, ?_, ?_⟩
    · cases d <;> simp [Side.arrange]
    · rw [Tree.paint_eq hs.color_eq, balanced_facing_black]
      exact ⟨rfl, h, .red, .red, rfl, ht,
        balanced_facing_red.mpr ⟨rfl, hs, hu⟩⟩
  · obtain rfl := Side.eq_flip_of_ne hde
    cases ht with
    | @red l r n _ hl hr =>
        refine ⟨_, if_neg hde, ?_, ?_⟩
        · cases e <;> simp [Side.arrange, Side.pick, Side.flip, Tree.toList]
        · have hnear : Balanced (e.pick l r) .black h := by
            cases e <;> assumption
          have hfar : Balanced (e.flip.pick l r) .black h := by
            cases e <;> assumption
          rw [Tree.paint_eq hnear.color_eq, Tree.paint_eq hfar.color_eq,
            balanced_facing_black]
          exact ⟨rfl, h, .red, .red, rfl,
            balanced_facing_red.mpr ⟨rfl, hs, hnear⟩,
            balanced_facing_red.mpr ⟨rfl, hfar, hu⟩⟩

/-- **The repair after an insertion.**  It ends with a balanced tree that has
the labels in the same order. -/
theorem insertFix_spec (ht : Balanced t .red h) (hacc : Accepts path .black h) :
    ∃ T, insertFix t path = some T ∧ T.toList = (path.fill t).toList ∧
      ∃ m, Balanced T .black m := by
  fun_induction insertFix t path generalizing h with
  | case1 t => exact ⟨_, rfl, by simp [Path.fill], ht.paint_black⟩
  | case2 t d a s rest =>
      have hred : Accepts (⟨d, .black, a, s⟩ :: rest) .red h := hacc
      exact ⟨_, rfl, rfl, balanced_fill.mpr ⟨.red, h, ht, hred⟩⟩
  | case3 => exact absurd hacc.2.2 (by simp [Accepts])
  | case4 t d p s e k g u rest hu ih =>
      obtain ⟨-, hs, hacc⟩ := hacc
      cases k with
      | red => exact absurd hacc.1 (by decide)
      | black =>
          obtain ⟨⟨cu, hbal⟩, hacc⟩ := hacc
          obtain rfl : cu = .red := hbal.color_eq.symm.trans hu
          have hparent : Balanced (.facing d .black t p s) .black (h + 1) :=
            balanced_facing_black.mpr ⟨rfl, h, .red, .black, rfl, ht, hs⟩
          have huncle : Balanced (u.paint .black) .black (h + 1) := by
            cases hbal with
            | red hl hr => exact .black hl hr
          obtain ⟨T, hT, hlist, hbalT⟩ :=
            ih (balanced_facing_red.mpr ⟨rfl, hparent, huncle⟩) hacc
          refine ⟨T, hT, hlist.trans (Path.toList_fill_congr ?_), hbalT⟩
          simp
  | case5 t d p s e k g u rest hu =>
      obtain ⟨-, hs, hacc⟩ := hacc
      cases k with
      | red => exact absurd hacc.1 (by decide)
      | black =>
          obtain ⟨⟨cu, hbal⟩, hacc⟩ := hacc
          obtain rfl : cu = .black := by
            cases cu
            · exact absurd hbal.color_eq hu
            · rfl
          obtain ⟨t', ht', hlist, hbal'⟩ :=
            insertRotate_spec (d := d) (e := e) (p := p) (g := g) ht hs hbal
          exact ⟨Path.fill rest t', by rw [ht']; rfl,
            Path.toList_fill_congr hlist,
            balanced_fill.mpr ⟨.black, h + 1, hbal', hacc⟩⟩

/-! ## The way down -/

/-- The way to the place for a new label, where `side` says on which side of a
label the new one goes, and `none` that it is there already. -/
def descend (side : α → Option Side) : Tree α → Path α → Option (Path α)
  | .nil, path => some path
  | .node c l a r, path =>
      match side a with
      | none => none
      | some .left => descend side l (⟨.left, c, a, r⟩ :: path)
      | some .right => descend side r (⟨.right, c, a, l⟩ :: path)

/-- The labels get their sides in order: first those the new label goes to the
right of, then those it goes to the left of. -/
def Monotone (side : α → Option Side) (labels : List α) : Prop :=
  labels.Pairwise fun a b =>
    (side a ≠ some .right → side b = some .left) ∧
    (side b ≠ some .left → side a = some .right)

/-- Where the way down ends, and when it does not. -/
theorem descend_spec {side : α → Option Side}
    (hmono : Monotone side (path.fill t).toList)
    (hbefore : ∀ b ∈ path.before, side b = some .right)
    (hafter : ∀ b ∈ path.after, side b = some .left) :
    (∃ q, descend side t path = some q ∧ q.fill .nil = path.fill t ∧
      (∀ b ∈ q.before, side b = some .right) ∧
      ∀ b ∈ q.after, side b = some .left) ∨
    (descend side t path = none ∧ ∃ b ∈ t.toList, side b = none) := by
  induction t generalizing path with
  | nil => exact .inl ⟨path, rfl, rfl, hbefore, hafter⟩
  | node c l a r ihl ihr =>
      have hpair : Monotone side (l.toList ++ a :: r.toList) := by
        refine List.Pairwise.sublist ?_ hmono
        rw [Path.toList_fill]
        exact (List.sublist_append_left _ _).trans
          (List.sublist_append_right _ _)
      obtain ⟨-, hright, hcross⟩ := List.pairwise_append.mp hpair
      have hleft : ∀ b ∈ l.toList,
          side a ≠ some .left → side b = some .right :=
        fun b hb => (hcross b hb a (by simp)).2
      have hright' : ∀ b ∈ r.toList,
          side a ≠ some .right → side b = some .left :=
        fun b hb => ((List.pairwise_cons.mp hright).1 b hb).1
      cases hside : side a with
      | none =>
          exact .inr ⟨by simp [descend, hside], a, by simp [Tree.toList],
            hside⟩
      | some d =>
          cases d with
          | left =>
              have ih := @ihl (⟨.left, c, a, r⟩ :: path) hmono hbefore
                (by
                  intro b hb
                  simp only [Path.after, List.cons_append, List.mem_cons,
                    List.mem_append] at hb
                  rcases hb with rfl | hb | hb
                  · exact hside
                  · exact hright' b hb (by simp [hside])
                  · exact hafter b hb)
              rcases ih with ⟨q, hq, hfill, hrest⟩ | ⟨hnone, b, hb, hsb⟩
              · exact .inl ⟨q, by simp only [descend, hside]; exact hq,
                  hfill, hrest⟩
              · exact .inr ⟨by simp only [descend, hside]; exact hnone, b,
                  by simp [Tree.toList, hb], hsb⟩
          | right =>
              have ih := @ihr (⟨.right, c, a, l⟩ :: path) hmono
                (by
                  intro b hb
                  simp only [Path.before, List.mem_append,
                    List.mem_singleton] at hb
                  rcases hb with hb | hb | rfl
                  · exact hbefore b hb
                  · exact hleft b hb (by simp [hside])
                  · exact hside) hafter
              rcases ih with ⟨q, hq, hfill, hrest⟩ | ⟨hnone, b, hb, hsb⟩
              · exact .inl ⟨q, by simp only [descend, hside]; exact hq,
                  hfill, hrest⟩
              · exact .inr ⟨by simp only [descend, hside]; exact hnone, b,
                  by simp [Tree.toList, hb], hsb⟩

/-- The label on the way down where the search ends. -/
def search (side : α → Option Side) : Tree α → Option α
  | .nil => none
  | .node _ l a r =>
      match side a with
      | none => some a
      | some .left => search side l
      | some .right => search side r

/-- The search finds the label it is for, if there is one. -/
theorem search_spec {side : α → Option Side} (hmono : Monotone side t.toList) :
    (∃ a ∈ t.toList, side a = none ∧ search side t = some a) ∨
    ((∀ a ∈ t.toList, side a ≠ none) ∧ search side t = none) := by
  induction t with
  | nil => exact .inr ⟨by simp [Tree.toList], rfl⟩
  | node c l a r ihl ihr =>
      obtain ⟨hleft, hright, hcross⟩ := List.pairwise_append.mp hmono
      obtain ⟨hafter, hright⟩ := List.pairwise_cons.mp hright
      cases hside : side a with
      | none => exact .inl ⟨a, by simp [Tree.toList], hside, by
          simp only [search, hside]⟩
      | some d =>
          cases d with
          | left =>
              have hr : ∀ b ∈ r.toList, side b ≠ none := by
                intro b hb
                rw [(hafter b hb).1 (by simp [hside])]
                simp
              rcases ihl hleft with ⟨b, hb, hsb, hres⟩ | ⟨hl, hres⟩
              · exact .inl ⟨b, by simp [Tree.toList, hb], hsb, by
                  simp only [search, hside, hres]⟩
              · refine .inr ⟨fun b hb => ?_, by simp only [search, hside, hres]⟩
                simp only [Tree.toList, List.mem_append, List.mem_cons] at hb
                rcases hb with hb | rfl | hb
                · exact hl b hb
                · simp [hside]
                · exact hr b hb
          | right =>
              have hl : ∀ b ∈ l.toList, side b ≠ none := by
                intro b hb
                rw [(hcross b hb a (by simp)).2 (by simp [hside])]
                simp
              rcases ihr hright with ⟨b, hb, hsb, hres⟩ | ⟨hr, hres⟩
              · exact .inl ⟨b, by simp [Tree.toList, hb], hsb, by
                  simp only [search, hside, hres]⟩
              · refine .inr ⟨fun b hb => ?_, by simp only [search, hside, hres]⟩
                simp only [Tree.toList, List.mem_append, List.mem_cons] at hb
                rcases hb with hb | rfl | hb
                · exact hl b hb
                · simp [hside]
                · exact hr b hb

/-! ## Erasure -/

/-- The rotations at the end of an erasure, below a parent `p` of colour `k`:
`t` is on side `d` and a black node short; its sibling is black and has the
label `a` and the children `sl` and `sr`, of which `sr` is the far one. -/
def eraseRotate (d : Side) (k : Color) (t : Tree α) (p : α) (sl : Tree α)
    (a : α) (sr : Tree α) : Option (Tree α) :=
  if sr.color = .black then
    match sl with
    | .nil => none
    | .node _ l n r =>
        some (.facing d k (.facing d .black t p (d.pick l r)) n
          (.facing d .black ((d.flip.pick l r).paint .black) a sr))
  else
    some (.facing d k (.facing d .black t p sl) a (sr.paint .black))

/-- The repair below a parent, where the sibling is black: the new subtree, and
whether it still is a black node short. -/
def settle (d : Side) (k : Color) (t : Tree α) (p : α) (l : Tree α) (a : α)
    (r : Tree α) : Option (Tree α × Bool) :=
  if (d.flip.pick l r).color = .black ∧ (d.pick l r).color = .black then
    some (.facing d .black t p (.node .red l a r), decide (k = .black))
  else
    (eraseRotate d k t p (d.pick l r) a (d.flip.pick l r)).map (·, false)

/-- The repair after an erasure, with the tree `t` at the place, which is a
black node short. -/
def eraseFix : Tree α → Path α → Option (Tree α)
  | t, [] => some t
  | _, ⟨_, _, _, .nil⟩ :: _ => none
  | t, ⟨d, k, p, .node .black l a r⟩ :: rest =>
      match settle d k t p l a r with
      | none => none
      | some (t', true) => eraseFix t' rest
      | some (t', false) => some (Path.fill rest t')
  | t, ⟨d, k, p, .node .red l a r⟩ :: rest =>
      match d.pick l r with
      | .nil => none
      | .node _ l' b r' =>
          (settle d .red t p l' b r').map fun settled =>
            Path.fill (⟨d, k, a, d.flip.pick l r⟩ :: rest) settled.1

theorem eraseRotate_near (hy : y.color = .black) :
    eraseRotate d k t p (.facing d c l g r) a y =
      some (.facing d k (.facing d .black t p l) g
        (.facing d .black (r.paint .black) a y)) := by
  cases d <;> simp [eraseRotate, hy, Tree.facing, Side.pick, Side.flip]

theorem eraseRotate_far (hy : y.color ≠ .black) :
    eraseRotate d k t p x a y =
      some (.facing d k (.facing d .black t p x) a (y.paint .black)) := by
  rw [eraseRotate.eq_def, if_neg hy]

/-- Below a red parent the repair ends. -/
theorem settle_red {short : Bool}
    (h : settle d .red t p l a r = some (x, short)) : short = false := by
  unfold settle at h
  split at h
  · cases h
    rfl
  · obtain ⟨x', -, hx'⟩ := Option.map_eq_some_iff.mp h
    cases hx'
    rfl

theorem balanced_pick (hl : Balanced l .black h) (hr : Balanced r .black h) :
    Balanced (d.pick l r) .black h := by
  cases d <;> assumption

/-- The rotations keep the labels and end the repair. -/
theorem eraseRotate_spec {cl cr : Color} (ht : Balanced t .black h)
    (hsl : Balanced x cl h) (hsr : Balanced y cr h)
    (hred : ¬(cr = .black ∧ cl = .black)) :
    ∃ t', eraseRotate d k t p x a y = some t' ∧
      t'.toList =
        (Tree.facing d k t p (.facing d .black x a y)).toList ∧
      Balanced t' k (h + 1 + k.weight) := by
  have hroot : ∀ {u v : Tree α} {b : α}, Balanced u .black (h + 1) →
      Balanced v .black (h + 1) →
      Balanced (Tree.facing d k u b v) k (h + 1 + k.weight) := by
    intro u v b hu hv
    cases k with
    | red => exact balanced_facing_red.mpr ⟨rfl, hu, hv⟩
    | black =>
        exact balanced_facing_black.mpr ⟨rfl, h + 1, _, _, rfl, hu, hv⟩
  cases cr with
  | black =>
      -- the near child is red and comes up between the two others
      cases cl with
      | black => exact absurd ⟨rfl, rfl⟩ hred
      | red =>
          cases hsl with
          | @red l r n _ hl hr =>
              have hnear := balanced_pick (d := d) hl hr
              have hfar := balanced_pick (d := d.flip) hl hr
              refine ⟨_, if_pos hsr.color_eq, ?_, ?_⟩
              · cases d <;>
                  simp [Side.arrange, Side.pick, Side.flip, Tree.toList]
              · rw [Tree.paint_eq hfar.color_eq]
                exact hroot
                  (balanced_facing_black.mpr ⟨rfl, h, _, _, rfl, ht, hnear⟩)
                  (balanced_facing_black.mpr ⟨rfl, h, _, _, rfl, hfar, hsr⟩)
  | red =>
      have hpainted : Balanced (y.paint .black) .black (h + 1) := by
        cases hsr with
        | red hl hr => exact .black hl hr
      refine ⟨_, if_neg (by simp [hsr.color_eq]), ?_, ?_⟩
      · cases d <;> simp [Side.arrange]
      · exact hroot
          (balanced_facing_black.mpr ⟨rfl, h, _, _, rfl, ht, hsl⟩) hpainted

/-- The repair below a parent keeps the labels.  It ends there, or goes on
above a parent that was black. -/
theorem settle_spec {cl cr : Color} (ht : Balanced t .black h)
    (hl : Balanced l cl h) (hr : Balanced r cr h) :
    ∃ t' short, settle d k t p l a r = some (t', short) ∧
      t'.toList = (Tree.facing d k t p (.node .black l a r)).toList ∧
      (short = true → k = .black ∧ Balanced t' .black (h + 1)) ∧
      (short = false → ∃ c, (c = .red → k = .red) ∧
        Balanced t' c (h + 1 + k.weight)) := by
  by_cases hblack : (d.flip.pick l r).color = .black ∧
      (d.pick l r).color = .black
  · have hchildren : Balanced l .black h ∧ Balanced r .black h := by
      have hcl := hl.color_eq
      have hcr := hr.color_eq
      cases d <;> simp_all [Side.pick, Side.flip]
    have hsib : Balanced (.node .red l a r) .red h :=
      .red hchildren.1 hchildren.2
    have hbal : Balanced (.facing d .black t p (.node .red l a r)) .black
        (h + 1) :=
      balanced_facing_black.mpr ⟨rfl, h, _, _, rfl, ht, hsib⟩
    refine ⟨_, _, if_pos hblack, ?_, fun hshort => ?_, fun hshort => ?_⟩
    · cases d <;> simp [Tree.toList]
    · exact ⟨of_decide_eq_true hshort, hbal⟩
    · cases k with
      | red => exact ⟨.black, by simp, hbal⟩
      | black => cases hshort
  · obtain ⟨cn, cf, hnear, hfar⟩ : ∃ cn cf, Balanced (d.pick l r) cn h ∧
        Balanced (d.flip.pick l r) cf h := by
      cases d
      · exact ⟨cl, cr, hl, hr⟩
      · exact ⟨cr, cl, hr, hl⟩
    rw [hnear.color_eq, hfar.color_eq] at hblack
    obtain ⟨t', ht', hlist, hbal⟩ := eraseRotate_spec (d := d) (k := k)
      (p := p) (a := a) ht hnear hfar hblack
    refine ⟨t', false, ?_, ?_, by simp, fun _ => ⟨k, id, hbal⟩⟩
    · rw [settle, if_neg (by rwa [hnear.color_eq, hfar.color_eq]), ht']
      rfl
    · rw [hlist, Tree.facing_pick]

/-- **The repair after an erasure.**  It ends with a balanced tree that has
the labels in the same order; in particular it always finds a sibling. -/
theorem eraseFix_spec (ht : Balanced t .black h)
    (hacc : Accepts path .black (h + 1)) :
    ∃ T, eraseFix t path = some T ∧ T.toList = (path.fill t).toList ∧
      ∃ m, Balanced T .black m := by
  induction path generalizing t h with
  | nil => exact ⟨t, rfl, rfl, h, ht⟩
  | cons cr rest ih =>
      obtain ⟨d, k, p, sib⟩ := cr
      -- the sibling has at least one black node on every way down
      obtain ⟨cs, hsib, hrest, hredk⟩ : ∃ cs, Balanced sib cs (h + 1) ∧
          (∀ c, (c = .red → k = .red) → Accepts rest c (h + 1 + k.weight)) ∧
          (k = .red → cs = .black) := by
        cases k with
        | red =>
            obtain ⟨-, hs, hacc⟩ := hacc
            exact ⟨.black, hs, fun c _ => hacc.of_red, fun _ => rfl⟩
        | black =>
            obtain ⟨⟨cs, hs⟩, hacc⟩ := hacc
            refine ⟨cs, hs, fun c hc => ?_, by simp⟩
            cases c with
            | red => cases hc rfl
            | black => exact hacc
      cases hsib with
      | @black l r a _ cl cr hl hr =>
          obtain ⟨t', short, hsettle, hlist, hshort, hdone⟩ :=
            settle_spec (d := d) (k := k) (p := p) (a := a) ht hl hr
          cases short with
          | true =>
              obtain ⟨rfl, hbal⟩ := hshort rfl
              obtain ⟨T, hT, hlistT, hbalT⟩ :=
                ih hbal (hrest .black (by simp))
              refine ⟨T, by simp only [eraseFix, hsettle]; exact hT, ?_, hbalT⟩
              exact hlistT.trans (Path.toList_fill_congr hlist)
          | false =>
              obtain ⟨c, hc, hbal⟩ := hdone rfl
              exact ⟨Path.fill rest t', by simp only [eraseFix, hsettle],
                Path.toList_fill_congr hlist,
                balanced_fill.mpr ⟨c, _, hbal, hrest c hc⟩⟩
      | @red l r a _ hl hr =>
          have hk : k = .black := by
            cases k
            · cases hredk rfl
            · rfl
          subst hk
          obtain ⟨sl, sb, sr, cl, cr, hpick, hsl, hsr⟩ :=
            (balanced_pick (d := d) hl hr).node_of_black
          have hfar := balanced_pick (d := d.flip) hl hr
          obtain ⟨t', short, hsettle, hlist, hshort, hdone⟩ :=
            settle_spec (d := d) (k := .red) (p := p) (a := sb) ht hsl hsr
          have hfalse : short = false := by
            cases short
            · rfl
            · cases (hshort rfl).1
          obtain ⟨c, -, hbal⟩ := hdone hfalse
          refine ⟨Path.fill (⟨d, .black, a, d.flip.pick l r⟩ :: rest) t',
            by simp [eraseFix, hpick, hsettle], ?_, ?_⟩
          · refine Path.toList_fill_congr (t := Tree.facing d .black t'
              a (d.flip.pick l r)) ?_
            rw [← hpick] at hlist
            cases d <;> simp_all [Side.arrange, Side.pick, Side.flip,
              Tree.toList]
          · exact balanced_fill.mpr ⟨c, h + 1, hbal, ⟨.black, hfar⟩,
              hrest .black (by simp)⟩

/-! ## The place of the erasure -/

/-- The first node of a tree: its colour, its label, its right child, and the
way to it. -/
def leftmost : Tree α → Path α → Option (Color × α × Tree α × Path α)
  | .nil, _ => none
  | .node c .nil a r, path => some (c, a, r, path)
  | .node c (.node cl ll al rl) a r, path =>
      leftmost (.node cl ll al rl) (⟨.left, c, a, r⟩ :: path)

/-- What is left when a node is taken out: the tree at the place that is left
free, the way to it, and whether it is a black node short. -/
structure Vacancy (α : Type*) where
  tree : Tree α
  path : Path α
  short : Bool

/-- A node of colour `c` with the children `l` and `r` is taken out.  When it
has both, its successor takes its place and leaves its own free. -/
def unlink (c : Color) (l r : Tree α) (path : Path α) : Vacancy α :=
  match l, r with
  | .nil, .nil => ⟨.nil, path, decide (c = .black)⟩
  | .nil, .node _ lr ar rr => ⟨.node c lr ar rr, path, false⟩
  | .node _ ll al rl, .nil => ⟨.node c ll al rl, path, false⟩
  | .node cl ll al rl, .node cr lr ar rr =>
      match leftmost (.node cr lr ar rr) [] with
      | none => ⟨.nil, path, false⟩
      | some (cs, s, .nil, q) =>
          ⟨.nil, q ++ ⟨.right, c, s, .node cl ll al rl⟩ :: path,
            decide (cs = .black)⟩
      | some (_, s, .node _ l₂ a₂ r₂, q) =>
          ⟨.node .black l₂ a₂ r₂,
            q ++ ⟨.right, c, s, .node cl ll al rl⟩ :: path, false⟩

/-- The tree after an erasure. -/
def erase (c : Color) (l r : Tree α) (path : Path α) : Option (Tree α) :=
  if (unlink c l r path).short then
    eraseFix (unlink c l r path).tree (unlink c l r path).path
  else some (Path.fill (unlink c l r path).path (unlink c l r path).tree)

/-- The way to the first node goes left only. -/
theorem leftmost_spec (path : Path α) (ht : t ≠ .nil) :
    ∃ c a r q, leftmost t path = some (c, a, r, q ++ path) ∧
      Path.fill q (.node c .nil a r) = t ∧ Path.before q = [] := by
  fun_induction leftmost t path with
  | case1 => exact absurd rfl ht
  | case2 c a r path => exact ⟨c, a, r, [], rfl, rfl, rfl⟩
  | case3 c cl ll al rl a r path ih =>
      obtain ⟨c', a', r', q, hq, hfill, hbefore⟩ := ih (by simp)
      refine ⟨c', a', r', q ++ [⟨.left, c, a, r⟩], by simp [hq], ?_, ?_⟩
      · rw [Path.fill_append, hfill]
        rfl
      · simp [Path.before_append, hbefore, Path.before]

/-- The way to the first node goes on from the way to the tree. -/
theorem leftmost_append (t : Tree α) (front path : Path α) :
    leftmost t (front ++ path) = (leftmost t front).map fun f =>
      (f.1, f.2.1, f.2.2.1, f.2.2.2 ++ path) := by
  fun_induction leftmost t front with
  | case1 => rfl
  | case2 => rfl
  | case3 front c cl ll al rl a r ih =>
      rw [leftmost]
      exact ih

/-- The first node of a tree with a left subtree is the first node of this. -/
theorem leftmost_node {cs : Color} {b : α} {front : Path α} (hl : l ≠ .nil)
    (h : leftmost (.node c l a r) [] = some (cs, b, x, front)) :
    ∃ q, leftmost l [] = some (cs, b, x, q) ∧
      front = q ++ [⟨.left, c, a, r⟩] := by
  cases l with
  | nil => exact absurd rfl hl
  | node cl ll al rl =>
      rw [leftmost, ← List.nil_append [_], leftmost_append] at h
      obtain ⟨⟨c', b', x', q⟩, hq, heq⟩ := Option.map_eq_some_iff.mp h
      cases heq
      exact ⟨q, hq, rfl⟩

/-- What a path accepts does not depend on the labels along it. -/
theorem accepts_relabel {front : Path α} {b : α} :
    Accepts (front ++ ⟨d, c, a, s⟩ :: rest) k n ↔
      Accepts (front ++ ⟨d, c, b, s⟩ :: rest) k n := by
  induction front generalizing k n with
  | nil => cases c <;> rfl
  | cons cr front ih =>
      obtain ⟨e, ce, f, u⟩ := cr
      cases ce <;> simp only [List.cons_append, Accepts, ih]

/-- A node with one child at most is taken out: the child is a red leaf, if
there is one. -/
theorem accepts_without (hbal : Balanced (.facing d c .nil a x) k n)
    (hacc : Accepts path k n) :
    (x = .nil ∧ c = .black ∧ Accepts path .black 1) ∨
    (x = .nil ∧ c = .red ∧ Accepts path .black 0) ∨
    (c = .black ∧ Accepts path .black 1 ∧
      ∃ b, x = .node .red .nil b .nil) := by
  cases c with
  | red =>
      obtain ⟨rfl, hnil, hx⟩ := balanced_facing_red.mp hbal
      cases hnil
      rcases hx.eq_of_zero with rfl | ⟨hc, -⟩
      · exact .inr (.inl ⟨rfl, rfl, hacc.of_red⟩)
      · cases hc
  | black =>
      obtain ⟨rfl, m, cl, cr, rfl, hnil, hx⟩ := balanced_facing_black.mp hbal
      cases hnil
      rcases hx.eq_of_zero with rfl | ⟨-, b, rfl⟩
      · exact .inl ⟨rfl, rfl, hacc⟩
      · exact .inr (.inr ⟨rfl, hacc, b, rfl⟩)

theorem balanced_leaf : Balanced (.node .black .nil a .nil) .black 1 :=
  .black .nil .nil

/-- Where the successor is, and what is there when the node is taken out whose
place it takes. -/
theorem successor_spec {cs : Color} {q : Path α} {b : α}
    (hbal : ∃ m, Balanced (path.fill (.node c l a r)) .black m)
    (hr : leftmost r [] = some (cs, b, x, q)) (ht : r ≠ .nil) :
    (∃ k n, Balanced (.facing .left cs .nil b x) k n ∧
      Accepts (q ++ ⟨.right, c, b, l⟩ :: path) k n) ∧
    ∀ y, y.toList = x.toList →
      (Path.fill (q ++ ⟨.right, c, b, l⟩ :: path) y).toList =
        path.before ++ (l.toList ++ r.toList ++ path.after) := by
  obtain ⟨cs', b', x', q', hr', hfill, hbefore⟩ :=
    leftmost_spec [] ht
  rw [hr, List.append_nil] at hr'
  cases hr'
  constructor
  · have hwhole : ∃ m, Balanced (Path.fill (q ++ ⟨.right, c, a, l⟩ :: path)
        (.facing .left cs .nil b x)) .black m := by
      rw [Path.fill_append]
      show ∃ m, Balanced (Path.fill (⟨.right, c, a, l⟩ :: path)
        (Path.fill q (.node cs .nil b x))) .black m
      rw [hfill]
      exact hbal
    obtain ⟨k, n, hnode, hacc⟩ := balanced_fill.mp hwhole
    exact ⟨k, n, hnode, accepts_relabel.mp hacc⟩
  · intro y hy
    have hlist := congrArg Tree.toList hfill
    rw [Path.toList_fill, hbefore] at hlist
    rw [Path.fill_append, Path.fill, Path.toList_fill, Tree.toList_facing,
      Path.toList_fill, hbefore, hy, ← hlist]
    simp [Side.arrange, Tree.toList]

/-- What is left can be repaired: the labels are those of the tree without the
node, and the place needs one more black node than there are if it is short,
and no other otherwise. -/
theorem unlink_spec
    (hbal : ∃ m, Balanced (path.fill (.node c l a r)) .black m) :
    (Path.fill (unlink c l r path).path (unlink c l r path).tree).toList =
      path.before ++ (l.toList ++ r.toList ++ path.after) ∧
    ((unlink c l r path).short = true → (unlink c l r path).tree = .nil ∧
      Accepts (unlink c l r path).path .black 1) ∧
    ((unlink c l r path).short = false → ∃ c' h,
      Balanced (unlink c l r path).tree c' h ∧
        Accepts (unlink c l r path).path c' h) := by
  obtain ⟨k, n, hnode, hacc⟩ := balanced_fill.mp hbal
  fun_cases unlink c l r path with
  | case1 =>
      refine ⟨by simp [Path.toList_fill, Tree.toList], fun hshort => ?_,
        fun hshort => ?_⟩
      · obtain rfl := of_decide_eq_true hshort
        rcases accepts_without (d := .left) hnode hacc with
          h | ⟨-, hc, -⟩ | ⟨-, -, b, hb⟩
        · exact ⟨rfl, h.2.2⟩
        · cases hc
        · cases hb
      · rcases accepts_without (d := .left) hnode hacc with
          ⟨-, rfl, -⟩ | h | ⟨-, -, b, hb⟩
        · cases hshort
        · exact ⟨_, _, .nil, h.2.2⟩
        · cases hb
  | case2 cr lr ar rr =>
      refine ⟨by simp [Path.toList_fill, Tree.toList], by simp, fun _ => ?_⟩
      rcases accepts_without (d := .left) hnode hacc with
        ⟨hx, -⟩ | ⟨hx, -⟩ | ⟨rfl, hacc', b, hb⟩
      · cases hx
      · cases hx
      · cases hb
        exact ⟨_, _, balanced_leaf, hacc'⟩
  | case3 cl ll al rl =>
      refine ⟨by simp [Path.toList_fill, Tree.toList], by simp, fun _ => ?_⟩
      rcases accepts_without (d := .right) hnode hacc with
        ⟨hx, -⟩ | ⟨hx, -⟩ | ⟨rfl, hacc', b, hb⟩
      · cases hx
      · cases hx
      · cases hb
        exact ⟨_, _, balanced_leaf, hacc'⟩
  | case4 cl ll al rl cr lr ar rr hnone =>
      obtain ⟨cs, s, c₂, q, hsome, -⟩ :=
        leftmost_spec (t := .node cr lr ar rr) [] (by simp)
      rw [hnone] at hsome
      cases hsome
  | case5 cl ll al rl cr lr ar rr cs s q hsome =>
      obtain ⟨⟨k, n, hplace, hacc⟩, hlist⟩ :=
        successor_spec hbal hsome (by simp)
      refine ⟨hlist .nil rfl, fun hshort => ?_, fun hshort => ?_⟩
      · obtain rfl := of_decide_eq_true hshort
        rcases accepts_without hplace hacc with h | ⟨-, hc, -⟩ | ⟨-, -, b, hb⟩
        · exact ⟨rfl, h.2.2⟩
        · cases hc
        · cases hb
      · rcases accepts_without hplace hacc with
          ⟨-, rfl, -⟩ | h | ⟨-, -, b, hb⟩
        · cases hshort
        · exact ⟨_, _, .nil, h.2.2⟩
        · cases hb
  | case6 cl ll al rl cr lr ar rr cs s c₂ l₂ a₂ r₂ q hsome =>
      obtain ⟨⟨k, n, hplace, hacc⟩, hlist⟩ :=
        successor_spec hbal hsome (by simp)
      refine ⟨hlist _ rfl, by simp, fun _ => ?_⟩
      rcases accepts_without hplace hacc with
        ⟨hx, -⟩ | ⟨hx, -⟩ | ⟨-, hacc', b, hb⟩
      · cases hx
      · cases hx
      · cases hb
        exact ⟨_, _, balanced_leaf, hacc'⟩

/-- A place that is a black node short is empty. -/
theorem unlink_short (h : (unlink c l r path).short = true) :
    (unlink c l r path).tree = .nil := by
  revert h
  fun_cases unlink c l r path <;> simp

/-- **Erasure.**  It ends with a balanced tree without the node, which has the
other labels in the same order. -/
theorem erase_spec
    (hbal : ∃ m, Balanced (path.fill (.node c l a r)) .black m) :
    ∃ T, erase c l r path = some T ∧
      T.toList = path.before ++ (l.toList ++ r.toList ++ path.after) ∧
      ∃ m, Balanced T .black m := by
  obtain ⟨hlist, hshort, hdone⟩ := unlink_spec hbal
  unfold erase
  split
  · next h =>
      obtain ⟨htree, hacc⟩ := hshort h
      have hnil : Balanced (unlink c l r path).tree .black 0 := by
        rw [htree]
        exact .nil
      obtain ⟨T, hT, hlistT, hbalT⟩ := eraseFix_spec hnil hacc
      exact ⟨T, hT, hlistT.trans hlist, hbalT⟩
  · next h =>
      obtain ⟨c', n, ht, hacc⟩ := hdone (by simpa using h)
      exact ⟨_, rfl, hlist, balanced_fill.mpr ⟨c', n, ht, hacc⟩⟩

end RedBlack
