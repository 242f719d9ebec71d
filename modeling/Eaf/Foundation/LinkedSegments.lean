import Mathlib.Data.List.Nodup
import Eaf.Foundation.Iteration

/-!
# Doubly linked segments

A segment is a run of nodes, each of which points to the next one and to the
one before it.  It is joined to others at its ends only: the pointer before its
first node, and the pointer after its last one.
-/

namespace Linked

variable {α : Type*} {after before after' before' : α → α} {prev next a b n : α}
  {xs ys : List α}

/-- The nodes are linked in this order, with `prev` before them and `next`
after them. -/
def Segment (after before : α → α) : α → List α → α → Prop
  | _, [], _ => True
  | prev, p :: rest, next =>
      before p = prev ∧ after p = rest.headD next ∧
        Segment after before p rest next

theorem headD_append : (xs ++ ys).headD a = xs.headD (ys.headD a) := by
  cases xs <;> rfl

theorem getLastD_append : (xs ++ ys).getLastD a = ys.getLastD (xs.getLastD a) := by
  induction xs generalizing a with
  | nil => rfl
  | cons p rest ih =>
      rw [List.cons_append, List.getLastD_cons, List.getLastD_cons, ih]

/-- The ends of a list that is not empty. -/
theorem headD_eq (h : xs ≠ []) (a b : α) : xs.headD a = xs.headD b := by
  cases xs with
  | nil => exact absurd rfl h
  | cons p rest => rfl

theorem getLastD_eq (h : xs ≠ []) (a b : α) :
    xs.getLastD a = xs.getLastD b := by
  obtain ⟨front, p, rfl⟩ := (List.eq_nil_or_concat xs).resolve_left h
  rw [List.concat_eq_append, getLastD_append, getLastD_append]
  rfl

/-- Two segments, one after the other. -/
theorem segment_append :
    Segment after before prev (xs ++ ys) next ↔
      Segment after before prev xs (ys.headD next) ∧
        Segment after before (xs.getLastD prev) ys next := by
  induction xs generalizing prev with
  | nil => simp [Segment]
  | cons p rest ih =>
      simp only [List.cons_append, Segment, ih, headD_append,
        List.getLastD_cons, and_assoc]

/-- A segment depends on the pointers of its nodes only. -/
theorem Segment.congr (h : Segment after before prev xs next)
    (hsame : ∀ p ∈ xs, after' p = after p ∧ before' p = before p) :
    Segment after' before' prev xs next := by
  induction xs generalizing prev with
  | nil => trivial
  | cons p rest ih =>
      obtain ⟨hprev, hnext, hrest⟩ := h
      obtain ⟨hafter, hbefore⟩ := hsame p (by simp)
      exact ⟨hbefore.trans hprev, hafter.trans hnext,
        ih hrest fun q hq => hsame q (List.mem_cons_of_mem _ hq)⟩

section Relink

variable [DecidableEq α]

/-- The pointer after the last node is set. -/
theorem Segment.relink_end (h : Segment after before prev xs a)
    (hnodup : xs.Nodup) (hbefore : ∀ p ∈ xs, before' p = before p)
    (hafter : ∀ p ∈ xs,
      after' p = if p = xs.getLastD prev then b else after p) :
    Segment after' before' prev xs b := by
  induction xs generalizing prev with
  | nil => trivial
  | cons p rest ih =>
      obtain ⟨hprev, hnext, hrest⟩ := h
      obtain ⟨hp, hnodup'⟩ := List.nodup_cons.mp hnodup
      have hlast : (p :: rest).getLastD prev = rest.getLastD p := by
        rw [List.getLastD_cons]
      rw [hlast] at hafter
      refine ⟨(hbefore p (by simp)).trans hprev, ?_, ih hrest hnodup'
        (fun q hq => hbefore q (List.mem_cons_of_mem _ hq))
        fun q hq => hafter q (List.mem_cons_of_mem _ hq)⟩
      rw [hafter p (by simp)]
      cases rest with
      | nil => simp
      | cons q rest =>
          -- the last node is another one
          have hmem : (q :: rest).getLastD p ∈ q :: rest := by
            rw [List.getLastD_eq_getLast?,
              List.getLast?_eq_some_getLast (List.cons_ne_nil q rest)]
            exact List.getLast_mem _
          have hne : p ≠ (q :: rest).getLastD p := fun heq =>
            hp (by rw [heq]; exact hmem)
          rw [if_neg hne, hnext]
          rfl

/-- The pointer before the first node is set. -/
theorem Segment.relink_start (h : Segment after before a ys next)
    (hnodup : ys.Nodup) (hafter : ∀ p ∈ ys, after' p = after p)
    (hbefore : ∀ p ∈ ys,
      before' p = if p = ys.headD next then b else before p) :
    Segment after' before' b ys next := by
  cases ys with
  | nil => trivial
  | cons p rest =>
      obtain ⟨-, hnext, hrest⟩ := h
      obtain ⟨hp, hnodup'⟩ := List.nodup_cons.mp hnodup
      refine ⟨?_, (hafter p (by simp)).trans hnext, ?_⟩
      · rw [hbefore p (by simp)]
        simp
      · -- all other nodes keep their pointers
        refine hrest.congr fun q hq => ?_
        have hq' := List.mem_cons_of_mem p hq
        refine ⟨hafter q hq', ?_⟩
        have hne : q ≠ p := fun heq => hp (by rw [← heq]; exact hq)
        rw [hbefore q hq', List.headD_cons, if_neg hne]

/-- A node is linked in between two parts. -/
theorem Segment.splice (h : Segment after before prev (xs ++ ys) next)
    (hnodup : (xs ++ ys).Nodup) (hprev : before' n = xs.getLastD prev)
    (hnext : after' n = ys.headD next)
    (hxs : ∀ p ∈ xs, before' p = before p ∧
      after' p = if p = xs.getLastD prev then n else after p)
    (hys : ∀ p ∈ ys, after' p = after p ∧
      before' p = if p = ys.headD next then n else before p) :
    Segment after' before' prev (xs ++ n :: ys) next := by
  obtain ⟨hfront, hback⟩ := segment_append.mp h
  have hfront' := hfront.relink_end (hnodup.sublist (List.sublist_append_left ..))
    (fun p hp => (hxs p hp).1) fun p hp => (hxs p hp).2
  have hback' := hback.relink_start (hnodup.sublist (List.sublist_append_right ..))
    (fun p hp => (hys p hp).1) fun p hp => (hys p hp).2
  exact segment_append.mpr ⟨hfront', hprev, hnext, hback'⟩

/-- A part is taken out, and the parts before and after it are joined. -/
theorem Segment.unlink {run : List α}
    (h : Segment after before prev (xs ++ (run ++ ys)) next)
    (hnodup : (xs ++ (run ++ ys)).Nodup)
    (hxs : ∀ p ∈ xs, before' p = before p ∧
      after' p = if p = xs.getLastD prev then ys.headD next else after p)
    (hys : ∀ p ∈ ys, after' p = after p ∧
      before' p = if p = ys.headD next then xs.getLastD prev else before p) :
    Segment after' before' prev (xs ++ ys) next := by
  obtain ⟨hfront, hrest⟩ := segment_append.mp h
  obtain ⟨-, hback⟩ := segment_append.mp hrest
  have hsub : ys.Sublist (xs ++ (run ++ ys)) :=
    (List.sublist_append_right ..).trans (List.sublist_append_right ..)
  exact segment_append.mpr
    ⟨hfront.relink_end (hnodup.sublist (List.sublist_append_left ..))
      (fun p hp => (hxs p hp).1) fun p hp => (hxs p hp).2,
    hback.relink_start (hnodup.sublist hsub) (fun p hp => (hys p hp).1)
      fun p hp => (hys p hp).2⟩

/-! ## Rings -/

/-- The nodes are linked in a circle. -/
def Ring (null : α) (after before : α → α) (xs : List α) : Prop :=
  Segment after before (xs.getLastD null) xs (xs.headD null)

variable {null : α}

omit [DecidableEq α] in
/-- A circle has no first node. -/
theorem ring_rotate :
    Ring null after before (xs ++ ys) ↔ Ring null after before (ys ++ xs) := by
  by_cases hx : xs = []
  · subst hx
    rw [List.nil_append, List.append_nil]
  by_cases hy : ys = []
  · subst hy
    rw [List.nil_append, List.append_nil]
  have hlast := getLastD_eq hy (xs.getLastD null) null
  have hlast' := getLastD_eq hx (ys.getLastD null) null
  have hhead := headD_eq hx (ys.headD null) null
  have hhead' := headD_eq hy (xs.headD null) null
  simp only [Ring, segment_append, headD_append, getLastD_append, hlast, hlast',
    hhead, hhead', and_comm]

/-- The ends of a segment are joined. -/
theorem Segment.ring_close (h : Segment after before prev xs next)
    (hne : xs ≠ []) (hnodup : xs.Nodup)
    (hafter : ∀ p ∈ xs,
      after' p = if p = xs.getLastD null then xs.headD null else after p)
    (hbefore : ∀ p ∈ xs,
      before' p = if p = xs.headD null then xs.getLastD null else before p) :
    Ring null after' before' xs := by
  have hstart : Segment after before' (xs.getLastD null) xs next :=
    h.relink_start hnodup (fun _ _ => rfl) fun p hp => by
      rw [headD_eq hne next null]
      exact hbefore p hp
  exact hstart.relink_end hnodup (fun _ _ => rfl) fun p hp => by
    rw [getLastD_eq hne (xs.getLastD null) null]
    exact hafter p hp

/-- The ends of a segment are joined by a node. -/
theorem Segment.ring_push (h : Segment after before prev xs next)
    (hne : xs ≠ []) (hnodup : xs.Nodup) (hprev : before' n = xs.getLastD null)
    (hnext : after' n = xs.headD null)
    (hafter : ∀ p ∈ xs, after' p = if p = xs.getLastD null then n else after p)
    (hbefore : ∀ p ∈ xs, before' p = if p = xs.headD null then n else before p) :
    Ring null after' before' (xs ++ [n]) := by
  have hstart : Segment after before' n xs next :=
    h.relink_start hnodup (fun _ _ => rfl) fun p hp => by
      rw [headD_eq hne next null]
      exact hbefore p hp
  have hend : Segment after' before' n xs n :=
    hstart.relink_end hnodup (fun _ _ => rfl) fun p hp => by
      rw [getLastD_eq hne n null]
      exact hafter p hp
  unfold Ring
  rw [getLastD_append, headD_append]
  refine segment_append.mpr ⟨hend, ?_, ?_, trivial⟩
  · rw [hprev]
    exact getLastD_eq hne null _
  · rw [hnext]
    exact headD_eq hne null _

end Relink

/-! ## Traversals -/

section Traversal

variable [DecidableEq α] {null : α} {turns : Nat}

open Iteration

/-- A way along the pointers that must not be followed from the null
position. -/
def follow (null : α) (step : α → α) (p : α) : Option α :=
  if p = null then none else some (step p)

/-- From the first node, the pointers to the next nodes lead through the
segment. -/
theorem Segment.passFrom_after (h : Segment after before prev xs null)
    (hnull : ∀ p ∈ xs, p ≠ null) (hturns : xs.length < turns) :
    passFrom null (follow null after) turns (xs.headD null) = some xs := by
  induction xs generalizing prev turns with
  | nil =>
      cases turns with
      | zero => omega
      | succ turns => simp [passFrom]
  | cons p rest ih =>
      cases turns with
      | zero => omega
      | succ turns =>
          obtain ⟨-, hnext, hrest⟩ := h
          have hp := hnull p (by simp)
          refine passFrom_cons hp ?_ (ih hrest
            (fun q hq => hnull q (List.mem_cons_of_mem _ hq))
            (by simpa using hturns))
          show (if p = null then none else some (after p)) = _
          rw [if_neg hp, hnext]

/-- From the last node, the pointers to the nodes before lead back. -/
theorem Segment.passFrom_before (h : Segment after before null xs next)
    (hnull : ∀ p ∈ xs, p ≠ null) (hturns : xs.length < turns) :
    passFrom null (follow null before) turns (xs.getLastD null) =
      some xs.reverse := by
  induction turns generalizing xs next with
  | zero => omega
  | succ turns ih =>
      rcases List.eq_nil_or_concat xs with rfl | ⟨front, p, rfl⟩
      · simp [passFrom]
      · rw [List.concat_eq_append] at h hnull hturns ⊢
        obtain ⟨hfront, hprev, -⟩ := segment_append.mp h
        have hp := hnull p (by simp)
        rw [getLastD_append, List.reverse_append]
        show passFrom null (follow null before) (turns + 1) p = _
        refine passFrom_cons hp ?_ (ih hfront
          (fun q hq => hnull q (List.mem_append_left _ hq))
          (by simpa using hturns))
        show (if p = null then none else some (before p)) = _
        rw [if_neg hp, hprev]

end Traversal

end Linked
