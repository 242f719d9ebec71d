import Mathlib.Algebra.Order.Group.Multiset
import Mathlib.Data.Multiset.UnionInter

/-!
# Memory cells

A piece of memory is described by the cells in it, each an address with its
contents.  The addresses of the cells are different, so a write to one of them
leaves the others as they are; nothing else is said about the memory.
-/

namespace Cells

variable {ι ν : Type*} {ok : ι → Prop} {f : ι → ν} {C D : Multiset (ι × ν)}
  {a b : ι} {n n' k : ν}

/-- The memory `f` has the cells `C`, at different addresses, which are all
good for a cell. -/
structure Holds (ok : ι → Prop) (f : ι → ν) (C : Multiset (ι × ν)) : Prop where
  nodup : (C.map Prod.fst).Nodup
  valid : ∀ x ∈ C, ok x.1
  reads : ∀ x ∈ C, f x.1 = x.2

theorem Holds.of_eq (h : Holds ok f C) (e : C = D) : Holds ok f D := e ▸ h

theorem Holds.valid_head (h : Holds ok f ({(a, n)} + C)) : ok a :=
  h.valid (a, n) (by simp)

theorem Holds.reads_head (h : Holds ok f ({(a, n)} + C)) : f a = n :=
  h.reads (a, n) (by simp)

theorem Holds.not_mem_head (h : Holds ok f ({(a, n)} + C)) :
    a ∉ C.map Prod.fst := by
  have hnodup := h.nodup
  rw [Multiset.map_add, Multiset.map_singleton, Multiset.singleton_add,
    Multiset.nodup_cons] at hnodup
  exact hnodup.1

/-- The first cell is none of the others. -/
theorem Holds.head_ne (h : Holds ok f ({(a, n)} + C)) (hb : (b, k) ∈ C) :
    a ≠ b := by
  rintro rfl
  exact h.not_mem_head (Multiset.mem_map_of_mem Prod.fst hb)

/-- A smaller piece of the memory. -/
theorem Holds.mono (h : Holds ok f C) (hle : D ≤ C) : Holds ok f D where
  nodup := Multiset.nodup_of_le (Multiset.map_le_map hle) h.nodup
  valid x hx := h.valid x (Multiset.mem_of_le hle hx)
  reads x hx := h.reads x (Multiset.mem_of_le hle hx)

section Write

variable [DecidableEq ι]

/-- A write to a cell. -/
theorem Holds.write (h : Holds ok f ({(a, n)} + C)) (n' : ν) :
    Holds ok (Function.update f a n') ({(a, n')} + C) where
  nodup := by simpa using h.nodup
  valid x hx := by
    rcases Multiset.mem_add.mp hx with hx | hx
    · obtain rfl := Multiset.mem_singleton.mp hx
      exact h.valid_head
    · exact h.valid x (Multiset.mem_add.mpr (.inr hx))
  reads x hx := by
    rcases Multiset.mem_add.mp hx with hx | hx
    · obtain rfl := Multiset.mem_singleton.mp hx
      exact Function.update_self ..
    · have hne : x.1 ≠ a := fun heq =>
        h.not_mem_head (heq ▸ Multiset.mem_map_of_mem Prod.fst hx)
      rw [Function.update_of_ne hne]
      exact h.reads x (Multiset.mem_add.mpr (.inr hx))

/-- A write to an address outside makes a new cell. -/
theorem Holds.create (h : Holds ok f C) (ha : a ∉ C.map Prod.fst) (hok : ok a)
    (n : ν) : Holds ok (Function.update f a n) ({(a, n)} + C) where
  nodup := by
    rw [Multiset.map_add, Multiset.map_singleton, Multiset.singleton_add]
    exact Multiset.nodup_cons.mpr ⟨ha, h.nodup⟩
  valid x hx := by
    rcases Multiset.mem_add.mp hx with hx | hx
    · obtain rfl := Multiset.mem_singleton.mp hx
      exact hok
    · exact h.valid x hx
  reads x hx := by
    rcases Multiset.mem_add.mp hx with hx | hx
    · obtain rfl := Multiset.mem_singleton.mp hx
      exact Function.update_self ..
    · have hne : x.1 ≠ a := fun heq =>
        ha (heq ▸ Multiset.mem_map_of_mem Prod.fst hx)
      rw [Function.update_of_ne hne]
      exact h.reads x hx

end Write

end Cells
