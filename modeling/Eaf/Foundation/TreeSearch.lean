import Mathlib.Data.List.Nodup
import Mathlib.Order.Lattice
import Eaf.Foundation.RedBlackRepair

/-!
# Neighbours in a search tree

A search goes down a tree to a node with a given key, or to the place where it
would be.  What it has passed on the way are the neighbours of this place: the
last node where it went to the right is the next smaller one, and the last node
where it went to the left is the next larger one.
-/

namespace RedBlack

variable {α K : Type*} [LinearOrder K] {key : α → K} {k : K}
  {side : α → Option Side} {t T l r : Tree α} {path rest : Path α} {a b : α}
  {c : Color} {best : Option α} {xs lows highs : List α}

namespace Tree

/-- The label of the root. -/
def root? : Tree α → Option α
  | nil => none
  | node _ _ a _ => some a

/-- The search for the last label that is not too large; `best` is the one
passed last. -/
def floor (side : α → Option Side) : Tree α → Option α → Option α
  | nil, best => best
  | node _ l a r, best =>
      match side a with
      | some .left => floor side l best
      | some .right => floor side r (some a)
      | none => some a

/-- A search that remembers the last label that is too large, and where it
finds the label that it is for, takes the next one down if it has passed
none. -/
def upper (side : α → Option Side) : Tree α → Option α → Option α
  | nil, best => best
  | node _ l a r, best =>
      match side a with
      | some .left => upper side l (some a)
      | some .right => upper side r best
      | none => best.or r.root?

/-- The labels on the way down that always goes to the right. -/
def rightSpine : Tree α → List α
  | nil => []
  | node _ _ a r => a :: rightSpine r

/-- The last label on one side. -/
def outermost (d : Side) : Tree α → Option α
  | nil => none
  | node _ l a r => (d.pick (outermost d l) (outermost d r)).or (some a)

end Tree

namespace Path

/-- The nearest label on the way up whose subtree goes on the other side. -/
def beyond (d : Side) : Path α → Option α
  | [] => none
  | cr :: rest => if cr.side = d then beyond d rest else some cr.label

/-- The label after the place that is nearest on the way up. -/
def above : Path α → Option α
  | [] => none
  | ⟨.left, _, a, _⟩ :: _ => some a
  | ⟨.right, _, _, _⟩ :: rest => above rest

/-- The label before the place that is nearest on the way up. -/
def below : Path α → Option α
  | [] => none
  | ⟨.left, _, _, _⟩ :: rest => below rest
  | ⟨.right, _, a, _⟩ :: _ => some a

theorem above_eq : path.above = path.after.head? := by
  induction path with
  | nil => rfl
  | cons cr rest ih =>
      obtain ⟨d, c, a, s⟩ := cr
      cases d with
      | left => rfl
      | right => exact ih

theorem below_eq : path.below = path.before.getLast? := by
  induction path with
  | nil => rfl
  | cons cr rest ih =>
      obtain ⟨d, c, a, s⟩ := cr
      cases d with
      | left => exact ih
      | right => simp [below, before]

theorem beyond_right : path.beyond .right = path.above := by
  induction path with
  | nil => rfl
  | cons cr rest ih =>
      obtain ⟨d, c, a, s⟩ := cr
      cases d with
      | left => rfl
      | right => exact ih

theorem beyond_left : path.beyond .left = path.below := by
  induction path with
  | nil => rfl
  | cons cr rest ih =>
      obtain ⟨d, c, a, s⟩ := cr
      cases d with
      | left => exact ih
      | right => rfl

/-- The search goes the way of the path. -/
def Directed (side : α → Option Side) (path : Path α) : Prop :=
  ∀ cr ∈ path, side cr.label = some cr.side

theorem directed_of (hbefore : ∀ b ∈ path.before, side b = some .right)
    (hafter : ∀ b ∈ path.after, side b = some .left) : path.Directed side := by
  induction path with
  | nil => exact fun cr hcr => by cases hcr
  | cons cr rest ih =>
      obtain ⟨d, c, a, s⟩ := cr
      intro cr hcr
      rcases List.mem_cons.mp hcr with rfl | hcr
      · cases d with
        | left => exact hafter a (by simp [after])
        | right => exact hbefore a (by simp [before])
      · refine ih (fun b hb => ?_) (fun b hb => ?_) cr hcr
        · cases d with
          | left => exact hbefore b hb
          | right => exact hbefore b (by simp [before, hb])
        · cases d with
          | left => exact hafter b (by simp [after, hb])
          | right => exact hafter b hb

end Path

namespace Tree

theorem exists_outermost (d : Side) (ht : t ≠ nil) :
    ∃ x, t.outermost d = some x := by
  cases t with
  | nil => exact absurd rfl ht
  | node c l a r =>
      cases h : d.pick (l.outermost d) (r.outermost d) with
      | none => exact ⟨a, by rw [outermost, h, Option.none_or]⟩
      | some x => exact ⟨x, by rw [outermost, h, Option.some_or]⟩

theorem outermost_left : t.outermost .left = t.toList.head? := by
  induction t with
  | nil => rfl
  | node c l a r ihl ihr =>
      show (l.outermost .left).or (some a) = _
      rw [ihl]
      cases hl : l.toList with
      | nil => simp [toList, hl]
      | cons x rest => simp [toList, hl]

theorem outermost_right : t.outermost .right = t.toList.getLast? := by
  induction t with
  | nil => rfl
  | node c l a r ihl ihr =>
      show (r.outermost .right).or (some a) = _
      rw [ihr]
      rcases List.eq_nil_or_concat r.toList with hr | ⟨front, x, hr⟩
      · simp [toList, hr]
      · simp [toList, hr, List.getLast?_cons]

end Tree

/-! ## Searches along a path -/

theorem Path.Directed.floor_fill (h : path.Directed side) :
    (path.fill t).floor side best = t.floor side (path.below.or best) := by
  induction path generalizing t with
  | nil => rfl
  | cons cr rest ih =>
      obtain ⟨d, c, a, s⟩ := cr
      have hside := h ⟨d, c, a, s⟩ (by simp)
      rw [Path.fill, ih fun cr hcr => h cr (List.mem_cons_of_mem _ hcr)]
      cases d with
      | left => simp only [Tree.facing, Tree.floor, hside, Path.below]
      | right =>
          simp only [Tree.facing, Tree.floor, hside, Path.below, Option.some_or]

theorem Path.Directed.upper_fill (h : path.Directed side) :
    (path.fill t).upper side best = t.upper side (path.above.or best) := by
  induction path generalizing t with
  | nil => rfl
  | cons cr rest ih =>
      obtain ⟨d, c, a, s⟩ := cr
      have hside := h ⟨d, c, a, s⟩ (by simp)
      rw [Path.fill, ih fun cr hcr => h cr (List.mem_cons_of_mem _ hcr)]
      cases d with
      | left =>
          simp only [Tree.facing, Tree.upper, hside, Path.above, Option.some_or]
      | right => simp only [Tree.facing, Tree.upper, hside, Path.above]

/-- A path that passes nothing larger goes down on the right. -/
theorem Path.mem_rightSpine (h : path.above = none) (ha : a ∈ t.rightSpine) :
    a ∈ (path.fill t).rightSpine := by
  induction path generalizing t with
  | nil => exact ha
  | cons cr rest ih =>
      obtain ⟨d, c, b, s⟩ := cr
      cases d with
      | left => cases h
      | right =>
          refine ih h ?_
          exact List.mem_cons_of_mem _ ha

/-- A label on the right spine is at the end of such a path. -/
theorem Tree.exists_fill_of_rightSpine (ha : a ∈ T.rightSpine) :
    ∃ (path : Path α) (c : Color) (l r : Tree α),
      T = path.fill (.node c l a r) ∧ path.above = none := by
  suffices h : ∀ rest : Path α, rest.above = none →
      ∃ (path : Path α) (c : Color) (l r : Tree α),
        rest.fill T = path.fill (.node c l a r) ∧ path.above = none from h [] rfl
  induction T with
  | nil => cases ha
  | node c l b r _ ihr =>
      intro rest hrest
      rcases List.mem_cons.mp ha with rfl | ha
      · exact ⟨rest, c, l, r, rfl, hrest⟩
      · exact ihr ha (⟨.right, c, b, l⟩ :: rest) hrest

/-! ## The place of a key -/

/-- The search is for the key `k`. -/
structure Directs (side : α → Option Side) (key : α → K) (k : K) : Prop where
  left_iff : ∀ a, side a = some .left ↔ k < key a
  right_iff : ∀ a, side a = some .right ↔ key a < k

namespace Directs

variable (h : Directs side key k)

include h

theorem none_iff : side a = none ↔ key a = k := by
  rcases lt_trichotomy (key a) k with hlt | heq | hlt
  · rw [(h.right_iff a).mpr hlt]
    simp [hlt.ne]
  · constructor
    · exact fun _ => heq
    · intro _
      rcases hs : side a with _ | _ | _
      · rfl
      · exact absurd ((h.left_iff a).mp hs) heq.not_gt
      · exact absurd ((h.right_iff a).mp hs) heq.not_lt
  · rw [(h.left_iff a).mpr hlt]
    simp [hlt.ne']

theorem monotone (hsorted : xs.Pairwise fun a b => key a < key b) :
    Monotone side xs := by
  refine hsorted.imp fun {a b} hab => ⟨fun hright => ?_, fun hleft => ?_⟩
  · have hle := not_lt.mp (mt (h.right_iff a).mpr hright)
    exact (h.left_iff b).mpr (hle.trans_lt hab)
  · have hle := not_lt.mp (mt (h.left_iff b).mpr hleft)
    exact (h.right_iff a).mpr (hab.trans_le hle)

/-- The search for a key that is there goes to the node that has it. -/
theorem directed_node
    (hsorted : (path.fill (.node c l a r)).toList.Pairwise
      fun a b => key a < key b) (ha : key a = k) : path.Directed side := by
  rw [Path.toList_fill] at hsorted
  obtain ⟨-, hrest, hcross⟩ := List.pairwise_append.mp hsorted
  obtain ⟨-, -, hcross'⟩ := List.pairwise_append.mp hrest
  have hmem : a ∈ (Tree.node c l a r).toList := by simp [Tree.toList]
  refine Path.directed_of (fun b hb => ?_) (fun b hb => ?_)
  · rw [h.right_iff, ← ha]
    exact hcross b hb a (List.mem_append_left _ hmem)
  · rw [h.left_iff, ← ha]
    exact hcross' a hmem b hb

/-- A key that is not there has a place between its neighbours. -/
theorem exists_place (hsorted : T.toList.Pairwise fun a b => key a < key b)
    (hnone : ∀ b ∈ T.toList, key b ≠ k) :
    ∃ path : Path α, T = path.fill .nil ∧ path.Directed side ∧
      (∀ b ∈ path.before, key b < k) ∧ ∀ b ∈ path.after, k < key b := by
  have hmono : Monotone side (Path.fill [] T).toList := h.monotone hsorted
  rcases descend_spec hmono (by simp [Path.before]) (by simp [Path.after]) with
    ⟨q, -, hfill, hbefore, hafter⟩ | ⟨-, b, hb, hside⟩
  · refine ⟨q, hfill.symm, Path.directed_of hbefore hafter,
      fun b hb => ?_, fun b hb => ?_⟩
    · exact (h.right_iff b).mp (hbefore b hb)
    · exact (h.left_iff b).mp (hafter b hb)
  · exact absurd (h.none_iff.mp hside) (hnone b hb)

end Directs

/-! ## Neighbours in a sorted list -/

/-- The only label with the key `k`, or `none` if there is no such label. -/
def IsOnly (key : α → K) (k : K) (xs : List α) : Option α → Prop
  | none => ∀ b ∈ xs, key b ≠ k
  | some a => a ∈ xs ∧ key a = k ∧ ∀ b ∈ xs, key b = k → b = a

/-- The greatest of the labels whose key is at most `k`, or `none` if there is
no such label. -/
def IsFloor (key : α → K) (k : K) (xs : List α) : Option α → Prop
  | none => ∀ b ∈ xs, k < key b
  | some a => a ∈ xs ∧ key a ≤ k ∧ ∀ b ∈ xs, key b ≤ k → key b ≤ key a

/-- The least of the labels whose key is greater than `k`, or `none` if there
is no such label. -/
def IsUpper (key : α → K) (k : K) (xs : List α) : Option α → Prop
  | none => ∀ b ∈ xs, key b ≤ k
  | some a => a ∈ xs ∧ k < key a ∧ ∀ b ∈ xs, k < key b → key a ≤ key b

theorem isFloor_append
    (hsorted : (lows ++ highs).Pairwise fun a b => key a < key b)
    (hlows : ∀ b ∈ lows, key b ≤ k) (hhighs : ∀ b ∈ highs, k < key b) :
    IsFloor key k (lows ++ highs) lows.getLast? := by
  rcases List.eq_nil_or_concat lows with rfl | ⟨front, a, rfl⟩
  · exact fun b hb => hhighs b (by simpa using hb)
  · rw [List.concat_eq_append, List.getLast?_concat]
    rw [List.concat_eq_append] at hsorted hlows
    refine ⟨by simp, hlows a (by simp), fun b hb hle => ?_⟩
    have hfront := (List.pairwise_append.mp
      (List.pairwise_append.mp hsorted).1).2.2
    rcases List.mem_append.mp hb with hb | hb
    · rcases List.mem_append.mp hb with hb | hb
      · exact (hfront b hb a (by simp)).le
      · exact (congrArg key (List.mem_singleton.mp hb)).le
    · exact absurd hle (hhighs b hb).not_ge

theorem isUpper_append
    (hsorted : (lows ++ highs).Pairwise fun a b => key a < key b)
    (hlows : ∀ b ∈ lows, key b ≤ k) (hhighs : ∀ b ∈ highs, k < key b) :
    IsUpper key k (lows ++ highs) highs.head? := by
  cases highs with
  | nil => exact fun b hb => hlows b (by simpa using hb)
  | cons a rest =>
      refine ⟨by simp, hhighs a (by simp), fun b hb hlt => ?_⟩
      have hrest := (List.pairwise_append.mp hsorted).2.1
      rcases List.mem_append.mp hb with hb | hb
      · exact absurd hlt (hlows b hb).not_gt
      · rcases List.mem_cons.mp hb with rfl | hb
        · exact le_refl _
        · exact ((List.pairwise_cons.mp hrest).1 b hb).le

/-- There is only one such label. -/
theorem IsUpper.unique {x y : Option α}
    (hsorted : xs.Pairwise fun a b => key a < key b)
    (hx : IsUpper key k xs x) (hy : IsUpper key k xs y) : x = y := by
  have hkeys : (xs.map key).Nodup :=
    List.pairwise_map.mpr (hsorted.imp fun hlt => hlt.ne)
  cases x with
  | none =>
      cases y with
      | none => rfl
      | some b => exact absurd hy.2.1 (hx b hy.1).not_gt
  | some a =>
      cases y with
      | none => exact absurd hx.2.1 (hy a hx.1).not_gt
      | some b =>
          refine congrArg some (List.inj_on_of_nodup_map hkeys hx.1 hy.1
            (le_antisymm ?_ ?_))
          · exact hx.2.2 b hy.1 hy.2.1
          · exact hy.2.2 a hx.1 hx.2.1

/-! ## What the searches find -/

/-- The search for the last label that is not too large finds it. -/
theorem Directs.floor_spec (h : Directs side key k)
    (hsorted : T.toList.Pairwise fun a b => key a < key b) :
    IsFloor key k T.toList (T.floor side none) := by
  by_cases hthere : ∃ a ∈ T.toList, key a = k
  · obtain ⟨a, ha, hkey⟩ := hthere
    obtain ⟨path, c, l, r, rfl⟩ := Path.exists_fill ha
    have hdir := h.directed_node hsorted hkey
    have hfound : (path.fill (.node c l a r)).floor side none = some a := by
      rw [hdir.floor_fill]
      simp only [Tree.floor, h.none_iff.mpr hkey]
    rw [hfound]
    exact ⟨ha, hkey.le, fun b _ hb => hkey ▸ hb⟩
  · have hnone : ∀ b ∈ T.toList, key b ≠ k := fun b hb heq =>
      hthere ⟨b, hb, heq⟩
    obtain ⟨path, rfl, hdir, hbefore, hafter⟩ := h.exists_place hsorted hnone
    have hfound : (path.fill .nil).floor side none = path.before.getLast? := by
      rw [hdir.floor_fill, Option.or_none, Path.below_eq]
      rfl
    have hlist : (path.fill .nil).toList = path.before ++ path.after := by
      simp [Path.toList_fill, Tree.toList]
    rw [hfound, hlist]
    rw [hlist] at hsorted
    exact isFloor_append hsorted (fun b hb => (hbefore b hb).le) hafter

/-- Where the key is not there, the last label that was too large is the next
one. -/
theorem Directs.upper_spec (h : Directs side key k)
    (hsorted : T.toList.Pairwise fun a b => key a < key b)
    (hnone : ∀ b ∈ T.toList, key b ≠ k) :
    IsUpper key k T.toList (T.upper side none) := by
  obtain ⟨path, rfl, hdir, hbefore, hafter⟩ := h.exists_place hsorted hnone
  have hfound : (path.fill .nil).upper side none = path.after.head? := by
    rw [hdir.upper_fill, Option.or_none, Path.above_eq]
    rfl
  have hlist : (path.fill .nil).toList = path.before ++ path.after := by
    simp [Path.toList_fill, Tree.toList]
  rw [hfound, hlist]
  rw [hlist] at hsorted
  exact isUpper_append hsorted (fun b hb => (hbefore b hb).le) hafter

/-- Where the key is there, the search ends above its node or right below
it. -/
theorem Directs.upper_node (h : Directs side key k)
    (hsorted : (path.fill (.node c l a r)).toList.Pairwise
      fun a b => key a < key b) (ha : key a = k) :
    (path.fill (.node c l a r)).upper side none = path.above.or r.root? := by
  rw [(h.directed_node hsorted ha).upper_fill, Option.or_none]
  simp only [Tree.upper, h.none_iff.mpr ha]

/-- The next label after a node is the first one below it on the right, or else
the nearest one above it on the right. -/
theorem isUpper_node
    (hsorted : (path.fill (.node c l a r)).toList.Pairwise
      fun a b => key a < key b) :
    IsUpper key (key a) (path.fill (.node c l a r)).toList
      (r.toList ++ path.after).head? := by
  have hlist : (path.fill (.node c l a r)).toList =
      (path.before ++ (l.toList ++ [a])) ++ (r.toList ++ path.after) := by
    simp [Path.toList_fill, Tree.toList]
  rw [hlist] at hsorted ⊢
  refine isUpper_append hsorted (fun b hb => ?_) (fun b hb => ?_)
  · have hlow := (List.pairwise_append.mp hsorted).1
    rw [← List.append_assoc] at hlow hb
    rcases List.mem_append.mp hb with hb | hb
    · exact ((List.pairwise_append.mp hlow).2.2 b hb a (by simp)).le
    · exact (congrArg key (List.mem_singleton.mp hb)).le
  · exact (List.pairwise_append.mp hsorted).2.2 a (by simp) b hb

/-- The label above and the root below are the next label in these cases
only. -/
theorem above_or_root_iff (hnodup : (path.fill (.node c l a r)).toList.Nodup) :
    path.above.or r.root? = (r.toList ++ path.after).head? ↔
      r = .nil ∨ path.above = none ∧ ∃ c' b r', r = .node c' .nil b r' := by
  rw [Path.toList_fill] at hnodup
  have hright : (r.toList ++ path.after).Nodup := by
    refine hnodup.sublist ?_
    simp only [Tree.toList, List.append_assoc, List.cons_append]
    exact ((List.sublist_cons_self ..).trans
      (List.sublist_append_right ..)).trans (List.sublist_append_right ..)
  cases r with
  | nil =>
      have habove : path.above = path.after.head? := Path.above_eq
      simp [Tree.root?, Tree.toList, habove]
  | node c' l' b r' =>
      obtain ⟨-, -, hapart⟩ := List.nodup_append.mp hright
      have hb : b ∈ (Tree.node c' l' b r').toList := by simp [Tree.toList]
      cases habove : path.above with
      | some g =>
          -- the kept label comes after the whole subtree
          have hg : g ∈ path.after := by
            rw [Path.above_eq] at habove
            exact List.mem_of_mem_head? habove
          obtain ⟨x, rest, hx⟩ := List.exists_cons_of_ne_nil
            (List.ne_nil_of_mem hb)
          have hne : x ≠ g := hapart x (by simp [hx]) g hg
          simp [hx, hne.symm]
      | none =>
          cases l' with
          | nil => simp [Tree.root?, Tree.toList]
          | node c₂ l₂ b₂ r₂ =>
              -- the first label is on the left of the root
              have hb₂ : b₂ ∈ (Tree.node c₂ l₂ b₂ r₂).toList := by
                simp [Tree.toList]
              obtain ⟨x, rest, hx⟩ := List.exists_cons_of_ne_nil
                (List.ne_nil_of_mem hb₂)
              have hinner := (List.nodup_append.mp hright).1
              rw [Tree.toList, hx] at hinner
              have hne : x ≠ b := by
                intro heq
                simp [heq] at hinner
              rw [Tree.toList, hx]
              simp [Tree.root?, hne.symm]

end RedBlack
