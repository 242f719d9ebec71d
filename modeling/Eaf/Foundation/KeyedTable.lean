import Mathlib.Data.List.Nodup
import Mathlib.Logic.Function.Basic

/-!
# Keyed tables

A table has at most one entry for each key.  It is what a search structure
says to its user: insertion is refused when the key is there, erasure needs
the entry to be there.
-/

namespace KeyedTable

variable {κ ν : Type*} {key : ν → κ} {xs ys : List ν} {k : κ} {x y : ν}

/-- What is stored under each key. -/
abbrev Table (κ ν : Type*) := κ → Option ν

namespace Table

variable [DecidableEq κ] {t t' : Table κ ν}

/-- A new entry, unless there is one with its key. -/
def insert (t : Table κ ν) (k : κ) (x : ν) : Option (Table κ ν) :=
  if (t k).isSome then none else some (Function.update t k (some x))

/-- An entry is taken out, if it is there. -/
def erase [DecidableEq ν] (t : Table κ ν) (k : κ) (x : ν) :
    Option (Table κ ν) :=
  if t k = some x then some (Function.update t k none) else none

theorem insert_of_none (h : t k = none) :
    t.insert k x = some (Function.update t k (some x)) := by
  simp [insert, h]

theorem insert_eq_none : t.insert k x = none ↔ (t k).isSome := by
  simp [insert, Option.isSome_iff_ne_none]

theorem erase_of_some [DecidableEq ν] (h : t k = some x) :
    t.erase k x = some (Function.update t k none) := by
  simp [erase, h]

end Table

section OfList

variable [DecidableEq κ]

/-- The table with the entries of a list. -/
def ofList (key : ν → κ) (xs : List ν) : Table κ ν :=
  fun k => xs.find? fun x => key x = k

theorem ofList_eq_none : ofList key xs k = none ↔ ∀ x ∈ xs, key x ≠ k := by
  simp [ofList, List.find?_eq_none]

theorem ofList_isSome : (ofList key xs k).isSome ↔ ∃ x ∈ xs, key x = k := by
  simp [ofList]

/-- Where the keys are different, an entry is found by its key. -/
theorem ofList_eq_some (h : (xs.map key).Nodup) :
    ofList key xs k = some x ↔ x ∈ xs ∧ key x = k := by
  constructor
  · intro hfind
    exact ⟨List.mem_of_find?_eq_some hfind,
      by simpa using List.find?_some hfind⟩
  · rintro ⟨hx, rfl⟩
    have hsome : (ofList key xs (key x)).isSome :=
      ofList_isSome.mpr ⟨x, hx, rfl⟩
    obtain ⟨y, hfind⟩ := Option.isSome_iff_exists.mp hsome
    have hy : y ∈ xs := List.mem_of_find?_eq_some hfind
    have hkey : key y = key x := by simpa using List.find?_some hfind
    rw [hfind, List.inj_on_of_nodup_map h hy hx hkey]

/-- An element with a new key comes into a list. -/
theorem ofList_middle (h : ((xs ++ x :: ys).map key).Nodup) :
    ofList key (xs ++ x :: ys) =
      Function.update (ofList key (xs ++ ys)) (key x) (some x) := by
  have hrest : ((xs ++ ys).map key).Nodup :=
    h.sublist (List.Sublist.map key (by simp))
  funext k
  by_cases hk : k = key x
  · subst hk
    rw [Function.update_self, ofList_eq_some h]
    exact ⟨by simp, rfl⟩
  · rw [Function.update_of_ne hk]
    refine Option.ext fun y => ?_
    rw [ofList_eq_some h, ofList_eq_some hrest]
    constructor
    · rintro ⟨hy, rfl⟩
      have hne : y ≠ x := fun heq => hk (heq ▸ rfl)
      exact ⟨by simpa [hne] using hy, rfl⟩
    · rintro ⟨hy, rfl⟩
      exact ⟨by rcases List.mem_append.mp hy with hy | hy <;> simp [hy], rfl⟩

/-- A new key is not found. -/
theorem ofList_fresh (h : ((xs ++ x :: ys).map key).Nodup) :
    ofList key (xs ++ ys) (key x) = none := by
  rw [List.map_append, List.map_cons, List.nodup_middle] at h
  rw [ofList_eq_none]
  intro y hy heq
  refine (List.nodup_cons.mp h).1 ?_
  rw [← List.map_append, ← heq]
  exact List.mem_map_of_mem hy

/-- An element with a new key is a new entry. -/
theorem ofList_insert (h : ((xs ++ x :: ys).map key).Nodup) :
    (ofList key (xs ++ ys)).insert (key x) x =
      some (ofList key (xs ++ x :: ys)) := by
  rw [Table.insert_of_none (ofList_fresh h), ofList_middle h]

/-- Without an element its entry is gone. -/
theorem ofList_erase [DecidableEq ν] (h : ((xs ++ x :: ys).map key).Nodup) :
    (ofList key (xs ++ x :: ys)).erase (key x) x =
      some (ofList key (xs ++ ys)) := by
  rw [ofList_middle h, Table.erase_of_some (Function.update_self ..),
    Function.update_idem, ← ofList_fresh h, Function.update_eq_self]

end OfList

end KeyedTable
