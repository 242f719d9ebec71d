import Mathlib.Data.List.Basic
import Mathlib.Data.List.TakeWhile

/-!
# Blocks of a range

A range of numbers that is looked at in blocks of one width, the last of which
may be shorter.
-/

namespace RangeBlocks

variable {α : Type*} {s w k : Nat}

/-- A loop that stops at `k` sees a shorter range. -/
theorem takeWhile_range {p : Nat → Bool} (hp : ∀ c < w, p c = true ↔ c < k) :
    (List.range w).takeWhile p = List.range (min w k) := by
  rcases Nat.le_total w k with hwk | hkw
  · rw [Nat.min_eq_left hwk, List.takeWhile_eq_self_iff]
    intro c hc
    have hlt := List.mem_range.mp hc
    exact (hp c hlt).mpr (by omega)
  · obtain ⟨d, rfl⟩ := Nat.exists_eq_add_of_le hkw
    rw [Nat.min_eq_right hkw, List.range_add, List.takeWhile_append_of_pos]
    · cases d with
      | zero => simp
      | succ d =>
          have hstop : ¬p k = true := fun hk => by
            have hlt := (hp k (by omega)).mp hk
            omega
          rw [List.range_succ_eq_map, List.map_cons, List.takeWhile_cons_of_neg
            (by rw [Nat.add_zero]; exact hstop), List.append_nil]
    · intro c hc
      have hlt := List.mem_range.mp hc
      exact (hp c (by omega)).mpr hlt

/-- A loop that skips what is not below `k`. -/
theorem filterMap_range {f : Nat → Option α} {g : Nat → α}
    (hf : ∀ c < w, f c = if c < k then some (g c) else none) :
    (List.range w).filterMap f = (List.range (min w k)).map g := by
  induction w with
  | zero => simp
  | succ w ih =>
      have hinit := ih fun c hc => hf c (by omega)
      rw [List.range_succ, List.filterMap_append, hinit]
      by_cases hwk : w < k
      · have hlast : [w].filterMap f = [g w] := by
          rw [List.filterMap_cons_some (by rw [hf w (by omega), if_pos hwk]),
            List.filterMap_nil]
        rw [hlast, Nat.min_eq_left (Nat.le_of_lt hwk), Nat.min_eq_left hwk,
          List.range_succ, List.map_append, List.map_singleton]
      · have hlast : [w].filterMap f = [] := by
          rw [List.filterMap_cons_none (by rw [hf w (by omega), if_neg hwk]),
            List.filterMap_nil]
        rw [hlast, List.append_nil, Nat.min_eq_right (by omega),
          Nat.min_eq_right (by omega)]

/-- The blocks of width `w`, cut off at `s`, make up the range. -/
theorem flatMap_blocks (s w k : Nat) :
    ((List.range k).flatMap fun j =>
      (List.range (min w (s - j * w))).map (j * w + ·)) = List.range (min s (k * w)) := by
  induction k with
  | zero => simp
  | succ k ih =>
      rw [List.range_succ, List.flatMap_append, ih, List.flatMap_singleton]
      rcases Nat.le_total (k * w) s with hle | hge
      · have hsum : min s ((k + 1) * w) = k * w + min w (s - k * w) := by
          rw [Nat.add_mul, Nat.one_mul]
          omega
        rw [Nat.min_eq_right hle, hsum, List.range_add]
      · have hnone : min w (s - k * w) = 0 := by omega
        have hmore : s ≤ (k + 1) * w := by
          rw [Nat.add_mul]
          omega
        rw [hnone, List.range_zero, List.map_nil, List.append_nil,
          Nat.min_eq_left hge, Nat.min_eq_left hmore]

end RangeBlocks
