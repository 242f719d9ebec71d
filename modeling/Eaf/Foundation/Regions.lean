import Mathlib.Data.List.Pairwise
import Mathlib.Order.Lattice

/-!
# Regions of an address space

A region is a run of addresses.  Regions that are laid out one after the other
do not overlap, and together they take up the sum of their lengths.
-/

/-- The addresses from `start` on. -/
structure Region where
  start : Nat
  length : Nat
  deriving DecidableEq, Repr

namespace Region

variable {r s : Region} {rs xs ys : List Region} {lo hi lo' hi' : Nat}

/-- The first address after the region. -/
def finish (r : Region) : Nat := r.start + r.length

/-- No address belongs to both. -/
def Apart (r s : Region) : Prop := r.finish ≤ s.start ∨ s.finish ≤ r.start

/-- All addresses are in `[lo, hi)`. -/
def Inside (r : Region) (lo hi : Nat) : Prop := lo ≤ r.start ∧ r.finish ≤ hi

instance (r : Region) (lo hi : Nat) : Decidable (r.Inside lo hi) :=
  inferInstanceAs (Decidable (_ ∧ _))

/-- Every region starts where the one before it ends. -/
def Consecutive : Nat → List Region → Prop
  | _, [] => True
  | lo, r :: rest => r.start = lo ∧ Consecutive r.finish rest

/-- The sum of the lengths. -/
def total : List Region → Nat
  | [] => 0
  | r :: rest => r.length + total rest

@[simp] theorem total_nil : total [] = 0 := rfl

@[simp] theorem total_cons : total (r :: rs) = r.length + total rs := rfl

/-- Consecutive regions fill the interval from the start of the first one. -/
theorem Consecutive.inside (h : Consecutive lo rs) (hr : r ∈ rs) :
    r.Inside lo (lo + total rs) := by
  induction rs generalizing lo with
  | nil => cases hr
  | cons s rest ih =>
      obtain ⟨hstart, hrest⟩ := h
      rw [total_cons]
      rcases List.mem_cons.mp hr with rfl | hr
      · constructor
        · omega
        · show r.start + r.length ≤ lo + (r.length + total rest)
          omega
      · obtain ⟨hlo, hhi⟩ := ih hrest hr
        unfold finish at hlo hhi
        constructor
        · omega
        · show r.start + r.length ≤ lo + (s.length + total rest)
          omega

/-- Consecutive regions are disjoint. -/
theorem Consecutive.pairwise (h : Consecutive lo rs) : rs.Pairwise Apart := by
  induction rs generalizing lo with
  | nil => exact List.Pairwise.nil
  | cons s rest ih =>
      obtain ⟨-, hrest⟩ := h
      refine List.Pairwise.cons (fun r hr => ?_) (ih hrest)
      exact .inl (hrest.inside hr).1

/-! ## Regions with gaps -/

/-- The regions follow each other between two addresses. -/
def Ascending : Nat → Nat → List Region → Prop
  | lo, hi, [] => lo ≤ hi
  | lo, hi, r :: rest => lo ≤ r.start ∧ Ascending r.finish hi rest

theorem Ascending.le (h : Ascending lo hi rs) : lo ≤ hi := by
  induction rs generalizing lo with
  | nil => exact h
  | cons r rest ih =>
      have hrest := ih h.2
      have hlo := h.1
      unfold finish at hrest
      omega

theorem Ascending.mono (h : Ascending lo hi rs) (hlo : lo' ≤ lo)
    (hhi : hi ≤ hi') : Ascending lo' hi' rs := by
  induction rs generalizing lo lo' with
  | nil => exact (hlo.trans h).trans hhi
  | cons r rest ih => exact ⟨hlo.trans h.1, ih h.2 le_rfl⟩

/-- A region splits the others. -/
theorem ascending_split :
    Ascending lo hi (xs ++ r :: ys) ↔
      Ascending lo r.start xs ∧ Ascending r.finish hi ys := by
  induction xs generalizing lo with
  | nil => exact Iff.rfl
  | cons s rest ih => simp only [List.cons_append, Ascending, ih, and_assoc]

/-- Two parts meet somewhere. -/
theorem ascending_append :
    Ascending lo hi (xs ++ ys) ↔
      ∃ mid, Ascending lo mid xs ∧ Ascending mid hi ys := by
  induction xs generalizing lo with
  | nil =>
      constructor
      · exact fun h => ⟨lo, le_rfl, h⟩
      · rintro ⟨mid, hle, h⟩
        exact h.mono hle le_rfl
  | cons s rest ih =>
      simp only [List.cons_append, Ascending, ih]
      constructor
      · rintro ⟨hlo, mid, hrest, hys⟩
        exact ⟨mid, ⟨hlo, hrest⟩, hys⟩
      · rintro ⟨mid, ⟨hlo, hrest⟩, hys⟩
        exact ⟨hlo, mid, hrest, hys⟩

/-- Where the last of the regions ends, or the start if there is none. -/
def endOf (lo : Nat) (rs : List Region) : Nat :=
  (rs.getLast?.map finish).getD lo

theorem Ascending.endOf (h : Ascending lo hi rs) :
    Ascending lo (endOf lo rs) rs ∧ endOf lo rs ≤ hi := by
  rcases List.eq_nil_or_concat rs with rfl | ⟨front, r, rfl⟩
  · exact ⟨le_rfl, h⟩
  · rw [List.concat_eq_append] at h ⊢
    obtain ⟨hfront, hhi⟩ := ascending_split.mp h
    have hend : Region.endOf lo (front ++ [r]) = r.finish := by
      simp [Region.endOf]
    rw [hend]
    exact ⟨ascending_split.mpr ⟨hfront, le_rfl⟩, hhi⟩

theorem Ascending.inside (h : Ascending lo hi rs) (hr : r ∈ rs) :
    r.Inside lo hi := by
  obtain ⟨xs, ys, rfl⟩ := List.append_of_mem hr
  obtain ⟨hxs, hys⟩ := ascending_split.mp h
  exact ⟨hxs.le, hys.le⟩

theorem Ascending.pairwise (h : Ascending lo hi rs) :
    rs.Pairwise fun r s => r.finish ≤ s.start := by
  induction rs generalizing lo with
  | nil => exact List.Pairwise.nil
  | cons r rest ih =>
      exact List.Pairwise.cons (fun s hs => (h.2.inside hs).1) (ih h.2)

/-- There is no room for more regions than addresses. -/
theorem Ascending.length_le (h : Ascending lo hi rs)
    (hpos : ∀ r ∈ rs, 0 < r.length) : lo + rs.length ≤ hi := by
  induction rs generalizing lo with
  | nil => exact h
  | cons r rest ih =>
      have hrest := ih h.2 fun s hs => hpos s (List.mem_cons_of_mem _ hs)
      have hr := hpos r List.mem_cons_self
      have hlo := h.1
      unfold finish at hrest
      rw [List.length_cons]
      omega

/-- Leaving regions out. -/
theorem Ascending.sublist (h : Ascending lo hi rs) (hxs : xs.Sublist rs) :
    Ascending lo hi xs := by
  induction hxs generalizing lo with
  | slnil => exact h
  | cons r _ ih =>
      have hle : r.start ≤ r.finish := Nat.le_add_right ..
      exact (ih h.2).mono (h.1.trans hle) le_rfl
  | cons_cons r _ ih => exact ⟨h.1, ih h.2⟩

end Region
