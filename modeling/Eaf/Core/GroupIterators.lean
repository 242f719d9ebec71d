import Mathlib.Data.List.Nodup
import Eaf.Core.ContextBlock
import Eaf.Core.Registration
import Eaf.Foundation.Iteration

/-!
# Iterators

`eaf_group_begin`, `eaf_group_next`, `eaf_service_begin` and
`eaf_service_next` hand out the groups and their services one by one.  A group
knows its index, and a service has its index from the distance to the start of
the array.  The end is found by a comparison with `size - 1`, in the arithmetic
of `size_t`.
-/

namespace Eaf
namespace Core

open Iteration

/-- `size - 1` -/
def predSize (size : Nat) : Nat := toSize (size + sizeMax)

theorem predSize_of_pos {n : Nat} (hpos : 0 < n) (hle : n ≤ sizeMax) :
    predSize n = n - 1 := by
  unfold predSize toSize
  unfold sizeMax at hle ⊢
  omega

/-- `eaf_group_begin`: the first element of the group table. -/
def eafGroupBegin : Option Nat := some 0

/-- `eaf_group_next` -/
def eafGroupNext (L : Layout) (index : Nat) : Option Nat :=
  if index ≥ predSize L.size then none else some (index + 1)

/-- `eaf_service_begin`: the address of the first element of the service table,
whether there is one or not. -/
def eafServiceBegin : Option Nat := some 0

/-- `eaf_service_next` -/
def eafServiceNext (c : GroupTable) (index : Nat) : Option Nat :=
  if index ≥ predSize c.size then none else some (index + 1)

/-- The loop over the services of a group, noting where it passes. -/
def visitGroup (L : Layout) (fuel : Nat) (seen : List (Nat × Nat)) (g : Nat) :
    Option (List (Nat × Nat)) :=
  forEach (eafServiceNext (L.conf g)) (fun seen i => some (seen ++ [(g, i)]))
    fuel eafServiceBegin seen

/-- The nested loops over all groups and their services. -/
def visitServices (L : Layout) (fuel : Nat) : Option (List (Nat × Nat)) :=
  forEach (eafGroupNext L) (visitGroup L fuel) fuel eafGroupBegin []

/-- All services, in the order of the tables. -/
def Layout.positions (L : Layout) : List (Nat × Nat) :=
  (List.range L.size).flatMap fun g =>
    (List.range (L.conf g).size).map fun i => (g, i)

/-- The sizes of the tables are of type `size_t`. -/
def Layout.Sized (L : Layout) : Prop :=
  L.size ≤ sizeMax ∧ ∀ g, (L.conf g).size ≤ sizeMax

section Walks

variable {L : Layout} {c : GroupTable} {g fuel : Nat}

theorem walk_services (hpos : 0 < c.size) (hle : c.size ≤ sizeMax) :
    Walk (eafServiceNext c) eafServiceBegin (List.range c.size) := by
  have hwalk : Walk (eafServiceNext c) (some 0) (List.range' 0 (c.size - 0)) := by
    refine walk_count (fun i hi => ?_) hpos
    unfold eafServiceNext
    rw [predSize_of_pos hpos hle]
    by_cases hlast : i + 1 < c.size
    · rw [if_pos hlast, if_neg (by omega)]
    · rw [if_neg hlast, if_pos (by omega)]
  rwa [Nat.sub_zero, ← List.range_eq_range'] at hwalk

theorem walk_groups (hpos : 0 < L.size) (hle : L.size ≤ sizeMax) :
    Walk (eafGroupNext L) eafGroupBegin (List.range L.size) := by
  have hwalk : Walk (eafGroupNext L) (some 0) (List.range' 0 (L.size - 0)) := by
    refine walk_count (fun g hg => ?_) hpos
    unfold eafGroupNext
    rw [predSize_of_pos hpos hle]
    by_cases hlast : g + 1 < L.size
    · rw [if_pos hlast, if_neg (by omega)]
    · rw [if_neg hlast, if_pos (by omega)]
  rwa [Nat.sub_zero, ← List.range_eq_range'] at hwalk

/-- Every group has a service. -/
def Layout.NoEmptyGroup (L : Layout) : Prop :=
  ∀ g < L.size, 0 < (L.conf g).size

/-- A fuel that lasts for all loops. -/
theorem Layout.exists_fuel :
    ∃ fuel, L.size < fuel ∧ ∀ g < L.size, (L.conf g).size < fuel := by
  refine ⟨L.size + ((List.range L.size).map fun g => (L.conf g).size).sum + 1,
    by omega, fun g hg => ?_⟩
  have hle : (L.conf g).size ≤
      ((List.range L.size).map fun g => (L.conf g).size).sum :=
    List.le_sum_of_mem (List.mem_map_of_mem (List.mem_range.mpr hg))
  omega

/-- Without empty groups, the loops pass every service once and in order. -/
theorem visitServices_eq (hsized : L.Sized) (hpos : 0 < L.size)
    (hfull : L.NoEmptyGroup)
    (hfuel : L.size < fuel ∧ ∀ g < L.size, (L.conf g).size < fuel) :
    visitServices L fuel = some L.positions := by
  have hgroup (g : Nat) (hg : g ∈ List.range L.size) (seen : List (Nat × Nat)) :
      visitGroup L fuel seen g =
        some (seen ++ (List.range (L.conf g).size).map fun i => (g, i)) := by
    have hg : g < L.size := List.mem_range.mp hg
    have hwalk := walk_services (hfull g hg) (hsized.2 g)
    unfold visitGroup
    rw [hwalk.forEach_eq (by simpa using hfuel.2 g hg),
      foldlM_some (f := fun seen i => seen ++ [(g, i)]) fun i _ seen => rfl,
      foldl_append_flatMap, List.map_eq_flatMap]
  have hwalk := walk_groups hpos hsized.1
  unfold visitServices
  rw [hwalk.forEach_eq (by simpa using hfuel.1), foldlM_some hgroup,
    foldl_append_flatMap]
  rfl

/-- The loops pass the first element of every service table, whether it is
there or not. -/
theorem mem_visitServices (hsized : L.Sized) (hg : g < L.size)
    {seen : List (Nat × Nat)} (h : visitServices L fuel = some seen) :
    (g, 0) ∈ seen := by
  have hpos : 0 < L.size := by omega
  have hfold := (walk_groups hpos hsized.1).forEach_some h
  refine foldlM_establish (P := fun seen => (g, 0) ∈ seen)
    (List.mem_range.mpr hg) ?_ ?_ hfold
  · intro s t hbody
    cases fuel with
    | zero => cases hbody
    | succ fuel =>
        rw [visitGroup, eafServiceBegin, forEach, Option.bind_some] at hbody
        refine forEach_invariant (P := fun seen => (g, 0) ∈ seen) ?_ ?_ hbody
        · intro s i t hs ht
          obtain rfl := Option.some.inj ht
          exact List.mem_append_left _ hs
        · exact List.mem_append_right _ (by simp)
  · intro s k t hs hbody
    refine forEach_invariant (P := fun seen => (g, 0) ∈ seen) ?_ hs hbody
    intro s i t hs ht
    obtain rfl := Option.some.inj ht
    exact List.mem_append_left _ hs

/-- Only services of the tables are in their order. -/
theorem Layout.mem_positions {p : Nat × Nat} :
    p ∈ L.positions ↔ p.1 < L.size ∧ p.2 < (L.conf p.1).size := by
  obtain ⟨g, i⟩ := p
  simp [Layout.positions]

/-- The order names no service twice. -/
theorem Layout.nodup_positions : L.positions.Nodup := by
  unfold Layout.positions
  rw [List.nodup_flatMap]
  constructor
  · intro g _
    exact List.nodup_range.map fun i j h => (Prod.mk.inj h).2
  · refine List.nodup_range.imp fun hne => List.disjoint_left.mpr ?_
    intro p hp hp'
    obtain ⟨i, -, rfl⟩ := List.mem_map.mp hp
    obtain ⟨j, -, heq⟩ := List.mem_map.mp hp'
    exact hne (Prod.mk.inj heq).1.symm

end Walks

end Core
end Eaf
