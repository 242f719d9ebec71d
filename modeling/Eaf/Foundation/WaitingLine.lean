import Mathlib.Data.List.TakeWhile
import Mathlib.Data.List.Nodup
import Mathlib.Tactic.Cases

/-!
# Waiting lines

A waiting line is a list: whoever joins it does so at its end, and members may
leave from anywhere.  The members ahead of one that stays only become fewer,
and keep their order.
-/

namespace WaitingLine

variable {α : Type*} [DecidableEq α] {line : List α} {x y : α}

/-- The members ahead of `x`; everybody when `x` is not in the line. -/
def ahead (line : List α) (x : α) : List α :=
  line.takeWhile fun y => decide (y ≠ x)

@[simp] theorem ahead_nil (x : α) : ahead [] x = [] := rfl

@[simp] theorem ahead_cons_self (line : List α) (x : α) :
    ahead (x :: line) x = [] := by
  simp [ahead]

theorem ahead_cons_of_ne (line : List α) (h : y ≠ x) :
    ahead (y :: line) x = y :: ahead line x := by
  simp [ahead, h]

/-- Those who join a line stand behind everybody. -/
theorem ahead_append (hx : x ∈ line) (later : List α) :
    ahead (line ++ later) x = ahead line x := by
  induction line with
  | nil => cases hx
  | cons y line ih =>
      by_cases hy : y = x
      · subst hy
        simp
      · have hmem : x ∈ line := (List.mem_cons.mp hx).resolve_left (Ne.symm hy)
        rw [List.cons_append, ahead_cons_of_ne _ hy, ahead_cons_of_ne _ hy,
          ih hmem]

/-- When somebody leaves, the others close up. -/
theorem ahead_erase (hne : y ≠ x) (line : List α) :
    (ahead (line.erase y) x).Sublist (ahead line x) := by
  induction line with
  | nil => exact List.Sublist.refl _
  | cons z line ih =>
      by_cases hzy : z = y
      · subst hzy
        rw [List.erase_cons_head, ahead_cons_of_ne _ hne]
        exact List.sublist_cons_self _ _
      · rw [List.erase_cons_tail (by simpa using hzy)]
        by_cases hzx : z = x
        · subst hzx
          simp
        · rw [ahead_cons_of_ne _ hzx, ahead_cons_of_ne _ hzx]
          exact ih.cons_cons z

/-- The first in the line has nobody ahead. -/
theorem head_ahead {rest : List α} (h : line = y :: rest) (x : α) :
    y = x ∨ y ∈ ahead line x := by
  by_cases hy : y = x
  · exact .inl hy
  · rw [h, ahead_cons_of_ne _ hy]
    exact .inr (List.mem_cons_self)

end WaitingLine
