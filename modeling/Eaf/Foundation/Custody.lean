import Mathlib.Data.List.Nodup

/-!
# Custody

Items that are handed from one place to another.  The places are put behind each
other in one list; that it has no duplicates and holds just the live items says that
each live item is in exactly one place.
-/

namespace Custody

variable {α : Type*} {live live' : α → Prop} {places places' : List α} {p : α}

/-- Each live item is in one place. -/
structure Placed (live : α → Prop) (places : List α) : Prop where
  nodup : places.Nodup
  mem : ∀ p, p ∈ places ↔ live p

namespace Placed

/-- Items are handed on. -/
theorem move (h : Placed live places) (hperm : places'.Perm places) :
    Placed live places' where
  nodup := hperm.nodup_iff.mpr h.nodup
  mem q := hperm.mem_iff.trans (h.mem q)

/-- An item comes into being. -/
theorem put (h : Placed live places) (hp : ¬live p) (hperm : places'.Perm (p :: places))
    (hlive : ∀ q, live' q ↔ q = p ∨ live q) : Placed live' places' := by
  have hput : Placed live' (p :: places) := by
    refine ⟨List.nodup_cons.mpr ⟨fun hmem => hp ((h.mem p).mp hmem), h.nodup⟩, fun q => ?_⟩
    rw [List.mem_cons, h.mem q, hlive q]
  exact hput.move hperm

/-- An item ceases to be. -/
theorem take (h : Placed live places) (hperm : places.Perm (p :: places'))
    (hlive : ∀ q, live' q ↔ q ≠ p ∧ live q) : Placed live' places' := by
  have hcons := h.move hperm.symm
  obtain ⟨hnot, hnodup⟩ := List.nodup_cons.mp hcons.nodup
  refine ⟨hnodup, fun q => ?_⟩
  rw [hlive q, ← hcons.mem q, List.mem_cons]
  constructor
  · intro hq
    exact ⟨fun heq => hnot (heq ▸ hq), .inr hq⟩
  · rintro ⟨hne, heq | hq⟩
    · exact absurd heq hne
    · exact hq

end Placed

end Custody
