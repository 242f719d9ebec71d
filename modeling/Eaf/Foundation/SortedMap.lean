import Mathlib.Data.List.Pairwise
import Mathlib.Data.List.Perm.Basic
import Mathlib.Order.Lattice

/-!
# Sorted maps

An ordered search structure without a copy of its keys: the elements are
compared by a function that looks at the elements themselves, so the structure
is only as good as its elements stay.  Here such a structure is the list of its
elements in their order.  A new element is refused when it compares equal to
one that is there.

A comparison function is consistent when it behaves like the comparison of
keys in a linear order.  What is in order stays in order as long as the
comparisons of its elements with one another do not change.
-/

namespace SortedMap

variable {α : Type*} {cmp cmp' : α → α → Int} {xs ys : List α} {n x : α}

/-- A comparison function that may order a map. -/
structure Consistent (cmp : α → α → Int) : Prop where
  pos_iff : ∀ a b, 0 < cmp a b ↔ cmp b a < 0
  trans : ∀ a b c, cmp a b < 0 → cmp b c < 0 → cmp a c < 0
  equal : ∀ a b c, cmp a b = 0 → cmp c b < 0 → cmp c a < 0

/-- The comparison of keys is consistent. -/
theorem Consistent.of_key {K : Type*} [LinearOrder K] (key : α → K)
    (hneg : ∀ a b, cmp a b < 0 ↔ key a < key b)
    (hpos : ∀ a b, 0 < cmp a b ↔ key b < key a) : Consistent cmp where
  pos_iff a b := by rw [hpos, hneg]
  trans a b c hab hbc := by
    rw [hneg] at hab hbc ⊢
    exact lt_trans hab hbc
  equal a b c hab hcb := by
    have hlt : ¬ key a < key b := fun h => by
      have hless := (hneg a b).mpr h
      omega
    have hgt : ¬ key b < key a := fun h => by
      have hmore := (hpos a b).mpr h
      omega
    rw [hneg] at hcb ⊢
    rw [le_antisymm (not_lt.mp hgt) (not_lt.mp hlt)]
    exact hcb

/-- The elements are in order. -/
def Sorted (cmp : α → α → Int) (xs : List α) : Prop :=
  xs.Pairwise fun a b => cmp a b < 0

/-- A new element gets its place, unless it equals one that is there. -/
def insert (cmp : α → α → Int) (n : α) : List α → Option (List α)
  | [] => some [n]
  | x :: rest =>
      if cmp n x < 0 then some (n :: x :: rest)
      else if 0 < cmp n x then (insert cmp n rest).map (x :: ·)
      else none

/-- The element after a given one. -/
def next [DecidableEq α] (x : α) : List α → Option α
  | [] => none
  | y :: rest => if y = x then rest.head? else next x rest

theorem Consistent.irrefl (h : Consistent cmp) (a : α) : ¬ cmp a a < 0 := by
  intro hneg
  have hpos := (h.pos_iff a a).mpr hneg
  omega

theorem Sorted.nodup (hcmp : Consistent cmp) (h : Sorted cmp xs) :
    xs.Nodup := by
  refine List.Pairwise.imp ?_ h
  rintro a b hab rfl
  exact hcmp.irrefl a hab

/-- A map is in order also for a comparison that agrees on its elements. -/
theorem Sorted.congr (h : Sorted cmp xs)
    (hsame : ∀ a ∈ xs, ∀ b ∈ xs, cmp' a b = cmp a b) : Sorted cmp' xs := by
  refine List.Pairwise.imp_of_mem ?_ h
  intro a b ha hb hab
  rw [hsame a ha b hb]
  exact hab

theorem Sorted.erase [DecidableEq α] (h : Sorted cmp xs) (x : α) :
    Sorted cmp (xs.erase x) :=
  h.sublist List.erase_sublist

/-- An element that differs from all others finds a place. -/
theorem Sorted.insert (hcmp : Consistent cmp) (h : Sorted cmp xs)
    (hnew : ∀ x ∈ xs, cmp n x ≠ 0) :
    ∃ ys, insert cmp n xs = some ys ∧ Sorted cmp ys ∧ ys.Perm (n :: xs) := by
  induction xs with
  | nil => exact ⟨[n], rfl, List.pairwise_singleton _ _, .refl _⟩
  | cons x rest ih =>
      obtain ⟨hx, hrest⟩ := List.pairwise_cons.mp h
      unfold SortedMap.insert
      by_cases hneg : cmp n x < 0
      · rw [if_pos hneg]
        refine ⟨_, rfl, List.pairwise_cons.mpr ⟨fun y hy => ?_, h⟩, .refl _⟩
        rcases List.mem_cons.mp hy with rfl | hy
        · exact hneg
        · exact hcmp.trans _ _ _ hneg (hx y hy)
      · have hpos : 0 < cmp n x := by
          have hne := hnew x List.mem_cons_self
          omega
        obtain ⟨ys, hys, hsorted, hperm⟩ :=
          ih hrest fun y hy => hnew y (List.mem_cons_of_mem _ hy)
        rw [if_neg hneg, if_pos hpos, hys]
        refine ⟨x :: ys, rfl, List.pairwise_cons.mpr ⟨fun y hy => ?_, hsorted⟩,
          (hperm.cons x).trans (.swap n x rest)⟩
        rcases List.mem_cons.mp (hperm.subset hy) with rfl | hy
        · exact (hcmp.pos_iff _ _).mp hpos
        · exact hx y hy

/-- An element that equals one of the others is refused. -/
theorem Sorted.insert_eq_none (hcmp : Consistent cmp) (h : Sorted cmp xs)
    (hx : x ∈ xs) (hequal : cmp n x = 0) :
    SortedMap.insert cmp n xs = none := by
  induction xs with
  | nil => cases hx
  | cons y rest ih =>
      obtain ⟨hy, hrest⟩ := List.pairwise_cons.mp h
      unfold SortedMap.insert
      rcases List.mem_cons.mp hx with rfl | hx
      · rw [if_neg (by omega), if_neg (by omega)]
      · have hlt : cmp y n < 0 :=
          hcmp.equal n x y hequal (hy x hx)
        have hpos := (hcmp.pos_iff n y).mpr hlt
        rw [if_neg (by omega), if_pos hpos, ih hrest hx]
        rfl

/-- There is only one order. -/
theorem Sorted.eq_of_perm (hcmp : Consistent cmp) (h : Sorted cmp xs)
    (h' : Sorted cmp ys) (hperm : xs.Perm ys) : xs = ys := by
  refine List.Perm.eq_of_pairwise ?_ h h' hperm
  intro a b _ _ hab hba
  exact absurd (hcmp.trans _ _ _ hab hba) (hcmp.irrefl a)

/-- A map of images, compared like what they are images of. -/
theorem insert_map {β : Type*} {f : α → β} {cmp' : β → β → Int}
    (hcmp : ∀ a b, cmp' (f a) (f b) = cmp a b) (n : α) (xs : List α) :
    SortedMap.insert cmp' (f n) (xs.map f) =
      (SortedMap.insert cmp n xs).map (List.map f) := by
  induction xs with
  | nil => rfl
  | cons x rest ih =>
      rw [List.map_cons]
      unfold SortedMap.insert
      rw [hcmp, ih]
      split
      · rfl
      · split
        · cases SortedMap.insert cmp n rest <;> rfl
        · rfl

end SortedMap
