import Mathlib.Data.Nat.Log
import Mathlib.Tactic.Ring

/-!
# Red-black trees, from the inside

Trees with coloured nodes, and the way from a place in a tree up to its root.
Insertion and erasure change a tree at such a place, and repair it on the way
up.  The repairs are given here as functions on subtrees and paths; each of
them keeps the labels in their order, and makes a balanced tree out of one
that is balanced but for the place of the change.

Everything has two sides, and what happens on one of them is the mirror image
of what happens on the other.  A node is therefore described as seen from one
of its sides, with a near and a far child.
-/

namespace RedBlack

inductive Color
  | red
  | black
  deriving DecidableEq, Repr

/-- The number of black nodes a node of this colour adds. -/
def Color.weight : Color → Nat
  | .red => 0
  | .black => 1

inductive Side
  | left
  | right
  deriving DecidableEq, Repr

namespace Side

def flip : Side → Side
  | left => right
  | right => left

/-- The one of two things that is on this side. -/
def pick {β : Type*} : Side → β → β → β
  | left, l, _ => l
  | right, _, r => r

@[simp] theorem flip_flip (d : Side) : d.flip.flip = d := by cases d <;> rfl

theorem eq_flip_of_ne {d e : Side} (h : d ≠ e) : d = e.flip := by
  cases d <;> cases e <;> first | rfl | exact absurd rfl h

/-- A list with a middle element, from what is near and what is far. -/
def arrange {β : Type*} : Side → List β → β → List β → List β
  | left, xs, a, ys => xs ++ a :: ys
  | right, xs, a, ys => ys ++ a :: xs

end Side

inductive Tree (α : Type*)
  | nil
  | node (color : Color) (l : Tree α) (label : α) (r : Tree α)

variable {α : Type*} {t t' x y s u l r : Tree α} {a p g : α} {c k : Color}
  {d e : Side} {h n : Nat}

namespace Tree

/-- The labels from left to right. -/
def toList : Tree α → List α
  | nil => []
  | node _ l a r => l.toList ++ a :: r.toList

/-- The colour of the root; the empty tree counts as black. -/
def color : Tree α → Color
  | nil => .black
  | node c _ _ _ => c

/-- The tree with another colour at the root. -/
def paint (c : Color) : Tree α → Tree α
  | nil => nil
  | node _ l a r => node c l a r

/-- A node, seen from side `d`. -/
def facing (d : Side) (c : Color) (x : Tree α) (a : α) (y : Tree α) : Tree α :=
  match d with
  | .left => node c x a y
  | .right => node c y a x

def height : Tree α → Nat
  | nil => 0
  | node _ l _ r => max l.height r.height + 1

/-- No red node has a red child. -/
def RedApart : Tree α → Prop
  | nil => True
  | node c l _ r => (c = .red → l.color = .black ∧ r.color = .black) ∧
      l.RedApart ∧ r.RedApart

/-- How many black nodes there are on each of the ways down to the leaves. -/
def blackCounts : Tree α → List Nat
  | nil => [0]
  | node c l _ r => (l.blackCounts ++ r.blackCounts).map (· + c.weight)

theorem height_le_length (t : Tree α) : t.height ≤ t.toList.length := by
  induction t with
  | nil => exact Nat.le_refl _
  | node c l a r ihl ihr =>
      simp only [height, toList, List.length_append, List.length_cons]
      omega

theorem facing_pick (d : Side) :
    facing d c (d.pick l r) a (d.flip.pick l r) = node c l a r := by
  cases d <;> rfl

/-- Every node can be seen from every side. -/
theorem exists_facing (d : Side) (ht : t ≠ nil) :
    ∃ x a y, t = facing d t.color x a y := by
  cases t with
  | nil => exact absurd rfl ht
  | node c l a r => exact ⟨_, a, _, (facing_pick d).symm⟩

@[simp] theorem facing_flip (d : Side) :
    facing d.flip c x a y = facing d c y a x := by
  cases d <;> rfl

@[simp] theorem toList_facing (d : Side) :
    (facing d c x a y).toList = d.arrange x.toList a y.toList := by
  cases d <;> rfl

@[simp] theorem toList_paint : (t.paint c).toList = t.toList := by
  cases t <;> rfl

@[simp] theorem color_facing (d : Side) : (facing d c x a y).color = c := by
  cases d <;> rfl

@[simp] theorem paint_facing (d : Side) :
    (facing d c x a y).paint k = facing d k x a y := by
  cases d <;> rfl

theorem paint_eq (h : t.color = c) : t.paint c = t := by
  cases t <;> simp_all [paint, color]

@[simp] theorem toList_eq_nil : t.toList = [] ↔ t = nil := by
  cases t <;> simp [toList]

end Tree

/-- A node that is passed on the way down: the side the way goes on, the node,
and the subtree on the other side. -/
structure Crumb (α : Type*) where
  side : Side
  color : Color
  label : α
  other : Tree α

/-- The way from a place up to the root. -/
abbrev Path (α : Type*) := List (Crumb α)

namespace Path

/-- The tree with `t` at the place the path leads to. -/
def fill : Path α → Tree α → Tree α
  | [], t => t
  | cr :: rest, t =>
      fill rest (Tree.facing cr.side cr.color t cr.label cr.other)

/-- The labels before the place. -/
def before : Path α → List α
  | [] => []
  | ⟨.left, _, _, _⟩ :: rest => before rest
  | ⟨.right, _, a, s⟩ :: rest => before rest ++ (s.toList ++ [a])

/-- The labels after the place. -/
def after : Path α → List α
  | [] => []
  | ⟨.left, _, a, s⟩ :: rest => a :: s.toList ++ after rest
  | ⟨.right, _, _, _⟩ :: rest => after rest

variable {path rest : Path α}

theorem toList_fill (path : Path α) (t : Tree α) :
    (path.fill t).toList = path.before ++ (t.toList ++ path.after) := by
  induction path generalizing t with
  | nil => simp [fill, before, after]
  | cons cr rest ih =>
      obtain ⟨d, c, a, s⟩ := cr
      cases d <;> simp [fill, before, after, ih, Side.arrange]

/-- What is elsewhere in the tree does not depend on what is at the place. -/
theorem toList_fill_congr (h : t.toList = t'.toList) :
    (path.fill t).toList = (path.fill t').toList := by
  rw [toList_fill, toList_fill, h]

theorem fill_append (front rest : Path α) (t : Tree α) :
    Path.fill (front ++ rest) t = rest.fill (front.fill t) := by
  induction front generalizing t with
  | nil => rfl
  | cons cr front ih => exact ih _

/-- A path passes nodes of the tree. -/
theorem length_le (path : Path α) (t : Tree α) :
    path.length + t.toList.length ≤ (path.fill t).toList.length := by
  induction path generalizing t with
  | nil => simp [fill]
  | cons cr rest ih =>
      have hrest := ih (Tree.facing cr.side cr.color t cr.label cr.other)
      have hup : t.toList.length + 1 ≤
          (Tree.facing cr.side cr.color t cr.label cr.other).toList.length := by
        cases cr.side <;> simp [Tree.facing, Tree.toList]
      simp only [fill, List.length_cons]
      omega

/-- Every label is at the end of some way down. -/
theorem exists_fill (ha : a ∈ t.toList) :
    ∃ (path : Path α) (c : Color) (l r : Tree α),
      t = path.fill (.node c l a r) := by
  suffices h : ∀ rest : Path α, ∃ (path : Path α) (c : Color) (l r : Tree α),
      rest.fill t = path.fill (.node c l a r) from h []
  induction t with
  | nil => cases ha
  | node c l b r ihl ihr =>
      intro rest
      simp only [Tree.toList, List.mem_append, List.mem_cons] at ha
      rcases ha with ha | rfl | ha
      · exact ihl ha (⟨.left, c, b, r⟩ :: rest)
      · exact ⟨rest, c, l, r, rfl⟩
      · exact ihr ha (⟨.right, c, b, l⟩ :: rest)

theorem before_append (front rest : Path α) :
    before (front ++ rest) = rest.before ++ front.before := by
  induction front with
  | nil => simp [before]
  | cons cr front ih =>
      obtain ⟨d, c, a, s⟩ := cr
      cases d <;> simp [before, ih]

end Path

/-! ## Balance -/

/-- Red nodes have black children, and all ways down from the root pass `h`
black nodes. -/
inductive Balanced : Tree α → Color → Nat → Prop
  | nil : Balanced .nil .black 0
  | red {l r : Tree α} {a : α} {h : Nat} (hl : Balanced l .black h)
      (hr : Balanced r .black h) : Balanced (.node .red l a r) .red h
  | black {l r : Tree α} {a : α} {h : Nat} {cl cr : Color}
      (hl : Balanced l cl h) (hr : Balanced r cr h) :
      Balanced (.node .black l a r) .black (h + 1)

theorem Balanced.color_eq (h : Balanced t c n) : t.color = c := by
  cases h <;> rfl

theorem balanced_facing_red :
    Balanced (Tree.facing d .red x a y) c n ↔
      c = .red ∧ Balanced x .black n ∧ Balanced y .black n := by
  constructor
  · cases d <;> intro h <;> cases h
    · exact ⟨rfl, by assumption, by assumption⟩
    · exact ⟨rfl, by assumption, by assumption⟩
  · rintro ⟨rfl, hx, hy⟩
    cases d
    · exact .red hx hy
    · exact .red hy hx

theorem balanced_facing_black :
    Balanced (Tree.facing d .black x a y) c n ↔
      c = .black ∧ ∃ m cx cy, n = m + 1 ∧ Balanced x cx m ∧
        Balanced y cy m := by
  constructor
  · cases d <;> intro h <;> cases h
    · exact ⟨rfl, _, _, _, rfl, by assumption, by assumption⟩
    · exact ⟨rfl, _, _, _, rfl, by assumption, by assumption⟩
  · rintro ⟨rfl, m, cx, cy, rfl, hx, hy⟩
    cases d
    · exact .black hx hy
    · exact .black hy hx

/-- A tree on whose ways down there are no black nodes. -/
theorem Balanced.eq_of_zero (h : Balanced t c 0) :
    t = .nil ∨ c = .red ∧ ∃ a, t = .node .red .nil a .nil := by
  cases h with
  | nil => exact .inl rfl
  | red hl hr =>
      cases hl
      cases hr
      exact .inr ⟨rfl, _, rfl⟩

/-- A black tree on whose ways down there are black nodes. -/
theorem Balanced.node_of_black (h : Balanced t .black (n + 1)) :
    ∃ l a r cl cr, t = .node .black l a r ∧ Balanced l cl n ∧
      Balanced r cr n := by
  cases h with
  | black hl hr => exact ⟨_, _, _, _, _, rfl, hl, hr⟩

/-- A tree becomes black. -/
theorem Balanced.paint_black (h : Balanced t c n) :
    ∃ m, Balanced (t.paint .black) .black m := by
  cases h with
  | nil => exact ⟨0, .nil⟩
  | red hl hr => exact ⟨_, .black hl hr⟩
  | black hl hr => exact ⟨_, .black hl hr⟩

theorem Balanced.redApart (h : Balanced t c n) : t.RedApart := by
  induction h with
  | nil => trivial
  | red hl hr ihl ihr =>
      exact ⟨fun _ => ⟨hl.color_eq, hr.color_eq⟩, ihl, ihr⟩
  | black hl hr ihl ihr => exact ⟨by simp, ihl, ihr⟩

theorem Balanced.blackCounts_eq (h : Balanced t c n) :
    ∀ m ∈ t.blackCounts, m = n := by
  induction h with
  | nil => simp [Tree.blackCounts]
  | red hl hr ihl ihr | black hl hr ihl ihr =>
      intro m hm
      simp only [Tree.blackCounts, List.mem_map, List.mem_append] at hm
      obtain ⟨k, hk | hk, rfl⟩ := hm
      · rw [ihl k hk]
        rfl
      · rw [ihr k hk]
        rfl

/-- The black nodes on a way down bound the size from below. -/
theorem Balanced.two_pow_le (h : Balanced t c n) :
    2 ^ n ≤ t.toList.length + 1 := by
  induction h with
  | nil => simp [Tree.toList]
  | red hl hr ihl ihr =>
      simp only [Tree.toList, List.length_append, List.length_cons]
      omega
  | black hl hr ihl ihr =>
      simp only [Tree.toList, List.length_append, List.length_cons, pow_succ]
      omega

/-- The black nodes on a way down bound the height from above. -/
theorem Balanced.height_le (h : Balanced t c n) :
    t.height ≤ 2 * n + (if c = .red then 1 else 0) := by
  induction h with
  | nil => simp [Tree.height]
  | red hl hr ihl ihr =>
      simp only [reduceCtorEq, if_false, if_true, Tree.height] at ihl ihr ⊢
      omega
  | @black l r a n cl cr hl hr ihl ihr =>
      have hl' : l.height ≤ 2 * n + 1 := ihl.trans (by split <;> omega)
      have hr' : r.height ≤ 2 * n + 1 := ihr.trans (by split <;> omega)
      simp only [reduceCtorEq, if_false, Tree.height]
      omega

/-- **The height of a balanced tree.** -/
theorem Balanced.height_le_log (h : Balanced t .black n) :
    t.height ≤ 2 * Nat.log 2 (t.toList.length + 1) := by
  have hlog : n ≤ Nat.log 2 (t.toList.length + 1) :=
    Nat.le_log_of_pow_le (by decide) h.two_pow_le
  have hheight := h.height_le
  simp only [reduceCtorEq, if_false] at hheight
  omega

/-- With a balanced tree of colour `c` and `h` black nodes on every way down
at the place, the whole tree is balanced, with a black root. -/
def Accepts : Path α → Color → Nat → Prop
  | [], c, _ => c = .black
  | ⟨_, .red, _, s⟩ :: rest, c, h =>
      c = .black ∧ Balanced s .black h ∧ Accepts rest .red h
  | ⟨_, .black, _, s⟩ :: rest, _, h =>
      (∃ cs, Balanced s cs h) ∧ Accepts rest .black (h + 1)

variable {path rest : Path α}

/-- The whole tree is balanced exactly if the path accepts what is at its
place. -/
theorem balanced_fill :
    (∃ m, Balanced (path.fill t) .black m) ↔
      ∃ c h, Balanced t c h ∧ Accepts path c h := by
  induction path generalizing t with
  | nil =>
      constructor
      · exact fun ⟨m, hm⟩ => ⟨.black, m, hm, rfl⟩
      · rintro ⟨c, m, hm, rfl⟩
        exact ⟨m, hm⟩
  | cons cr rest ih =>
      obtain ⟨d, k, a, s⟩ := cr
      rw [Path.fill, ih]
      cases k with
      | red =>
          constructor
          · rintro ⟨c, h, hbal, hacc⟩
            obtain ⟨rfl, ht, hs⟩ := balanced_facing_red.mp hbal
            exact ⟨.black, h, ht, rfl, hs, hacc⟩
          · rintro ⟨c, h, ht, rfl, hs, hacc⟩
            exact ⟨.red, h, balanced_facing_red.mpr ⟨rfl, ht, hs⟩, hacc⟩
      | black =>
          constructor
          · rintro ⟨c, h, hbal, hacc⟩
            obtain ⟨rfl, m, ct, cs, rfl, ht, hs⟩ :=
              balanced_facing_black.mp hbal
            exact ⟨ct, m, ht, ⟨cs, hs⟩, hacc⟩
          · rintro ⟨c, h, ht, ⟨cs, hs⟩, hacc⟩
            exact ⟨.black, h + 1,
              balanced_facing_black.mpr ⟨rfl, h, c, cs, rfl, ht, hs⟩, hacc⟩

/-- A place for a red node is a place for every node. -/
theorem Accepts.of_red (h : Accepts path .red n) : Accepts path c n := by
  match path with
  | [] => cases h
  | ⟨_, .red, _, _⟩ :: _ => exact absurd h.1 (by decide)
  | ⟨_, .black, _, _⟩ :: _ => exact h

end RedBlack
