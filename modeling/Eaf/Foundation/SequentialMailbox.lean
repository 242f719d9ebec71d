import Mathlib.Data.List.Nodup
import Mathlib.Tactic.Ring
import Eaf.Foundation.LabelledRun

/-!
# A mailbox that handles one item at a time

The abstract component has a first-in first-out queue and at most one current
item.  An item is put into the queue, taken from its front, and then either
dropped or started; a started item may suspend, in which case it has to be
woken before it is entered again, and it ends by finishing.  A dropped or
finished item is released before the next one is taken.  When the component
is shut down, the current item may be cancelled, and queued items may be
flushed (taken only to be released) or purged (released straight from the
queue).

What follows from this protocol is collected in `Accounts`: for every item,
the numbers of its events are tied together by linear equations whose only
correction terms say where the item is at the moment.  Every statement of the
form "exactly once" is read off these equations.
-/

namespace SequentialMailbox

open LabelledRun

variable {α : Type*}

/-- What is happening to the current item. -/
inductive Stage (α : Type*)
  | empty
  | taken (a : α)
  | running (a : α)
  | suspended (a : α)
  | woken (a : α)
  | finished (a : α)
  | discarded (a : α)
  deriving DecidableEq

/-- The observable moves of the mailbox. -/
inductive Event (α : Type*)
  | put (a : α)
  | take (a : α)
  | drop (a : α)
  | start (a : α)
  | suspend (a : α)
  | wake (a : α)
  | reenter (a : α)
  | finish (a : α)
  | release (a : α)
  | cancel (a : α)
  | flush (a : α)
  | purge (a : α)
  deriving DecidableEq

/-- The mailbox: waiting items, oldest first, and the current item. -/
structure State (α : Type*) where
  queue : List α
  stage : Stage α

/-- The empty mailbox. -/
def State.initial : State α := ⟨[], .empty⟩

/-- The protocol, one observable move per step. -/
inductive Step : State α → List (Event α) → State α → Prop
  | put (q : List α) (st : Stage α) (a : α) :
      Step ⟨q, st⟩ [.put a] ⟨q ++ [a], st⟩
  | take (q : List α) (a : α) :
      Step ⟨a :: q, .empty⟩ [.take a] ⟨q, .taken a⟩
  | drop (q : List α) (a : α) :
      Step ⟨q, .taken a⟩ [.drop a] ⟨q, .discarded a⟩
  | start (q : List α) (a : α) :
      Step ⟨q, .taken a⟩ [.start a] ⟨q, .running a⟩
  | suspend (q : List α) (a : α) :
      Step ⟨q, .running a⟩ [.suspend a] ⟨q, .suspended a⟩
  | wake (q : List α) (a : α) :
      Step ⟨q, .suspended a⟩ [.wake a] ⟨q, .woken a⟩
  | reenter (q : List α) (a : α) :
      Step ⟨q, .woken a⟩ [.reenter a] ⟨q, .running a⟩
  | finish (q : List α) (a : α) :
      Step ⟨q, .running a⟩ [.finish a] ⟨q, .finished a⟩
  | releaseFinished (q : List α) (a : α) :
      Step ⟨q, .finished a⟩ [.release a] ⟨q, .empty⟩
  | releaseDiscarded (q : List α) (a : α) :
      Step ⟨q, .discarded a⟩ [.release a] ⟨q, .empty⟩
  | cancelSuspended (q : List α) (a : α) :
      Step ⟨q, .suspended a⟩ [.cancel a] ⟨q, .discarded a⟩
  | cancelWoken (q : List α) (a : α) :
      Step ⟨q, .woken a⟩ [.cancel a] ⟨q, .discarded a⟩
  | flush (q : List α) (a : α) :
      Step ⟨a :: q, .empty⟩ [.flush a] ⟨q, .discarded a⟩
  | purge (q : List α) (st : Stage α) (a : α) :
      Step ⟨a :: q, st⟩ [.purge a] ⟨q, st⟩

/-- The histories of the protocol. -/
abbrev History (h : List (Event α)) (s : State α) : Prop :=
  Run Step State.initial h s

theorem Step.length_eq_one {s t : State α} {h : List (Event α)}
    (hstep : Step s h t) : h.length = 1 := by
  cases hstep <;> rfl

/-! ## Observations on a history -/

/-- The items put into the queue, in order. -/
def puts (h : List (Event α)) : List α :=
  h.filterMap fun
    | .put a => some a
    | _ => none

/-- The items that left the queue, in order, whatever became of them. -/
def removed (h : List (Event α)) : List α :=
  h.filterMap fun
    | .take a | .flush a | .purge a => some a
    | _ => none

/-- The items taken as current item, in order. -/
def takes (h : List (Event α)) : List α :=
  h.filterMap fun
    | .take a => some a
    | _ => none

@[simp] theorem puts_append (h h' : List (Event α)) :
    puts (h ++ h') = puts h ++ puts h' := by
  simp [puts]

@[simp] theorem removed_append (h h' : List (Event α)) :
    removed (h ++ h') = removed h ++ removed h' := by
  simp [removed]

@[simp] theorem takes_append (h h' : List (Event α)) :
    takes (h ++ h') = takes h ++ takes h' := by
  simp [takes]

/-- **First in, first out.**  What has been put is what has left the queue, in
the same order, followed by what still waits. -/
theorem puts_eq_removed_append_queue {h : List (Event α)} {s : State α}
    (hist : History h s) : puts h = removed h ++ s.queue := by
  refine hist.invariant (P := fun h s => puts h = removed h ++ s.queue)
    (by simp [puts, removed, State.initial]) ?_
  intro h s e t _ ih hstep
  rw [puts_append, removed_append, ih]
  cases hstep <;> simp [puts, removed]

/-- Until something is flushed or purged, what left the queue was taken. -/
theorem removed_eq_takes {h : List (Event α)}
    (hnone : ∀ a, .flush a ∉ h ∧ .purge a ∉ h) : removed h = takes h := by
  refine List.filterMap_congr fun e he => ?_
  cases e with
  | flush a => exact absurd he (hnone a).1
  | purge a => exact absurd he (hnone a).2
  | _ => rfl

section Counting

variable [DecidableEq α]

/-- One if `p` holds, zero otherwise. -/
def one? (p : Prop) [Decidable p] : Nat := if p then 1 else 0

@[simp] theorem one?_true : one? True = 1 := rfl

@[simp] theorem one?_false : one? False = 0 := rfl

/-- The item has been started and has neither finished nor been cancelled. -/
def Stage.Active (st : Stage α) (a : α) : Prop :=
  st = .running a ∨ st = .suspended a ∨ st = .woken a

/-- The item is done with and waits for its release. -/
def Stage.Over (st : Stage α) (a : α) : Prop :=
  st = .finished a ∨ st = .discarded a

instance (st : Stage α) (a : α) : Decidable (st.Active a) :=
  inferInstanceAs (Decidable (_ ∨ _))

instance (st : Stage α) (a : α) : Decidable (st.Over a) :=
  inferInstanceAs (Decidable (_ ∨ _))

/-- The bookkeeping of one item: each event count is tied to the next one, and
the correction term is the place where the item is now. -/
structure Accounts (h : List (Event α)) (st : Stage α) (a : α) : Prop where
  taken : h.count (.take a) =
    h.count (.drop a) + h.count (.start a) + one? (st = .taken a)
  started : h.count (.start a) =
    h.count (.finish a) + h.count (.cancel a) + one? (st.Active a)
  wokenLower : h.count (.reenter a) + one? (st = .woken a) ≤ h.count (.wake a)
  wokenUpper : h.count (.wake a) ≤
    h.count (.reenter a) + one? (st = .woken a) + h.count (.cancel a)
  suspendedLower : h.count (.wake a) + one? (st = .suspended a) ≤
    h.count (.suspend a)
  suspendedUpper : h.count (.suspend a) ≤
    h.count (.wake a) + one? (st = .suspended a) + h.count (.cancel a)
  released : h.count (.drop a) + h.count (.finish a) + h.count (.cancel a) +
    h.count (.flush a) = h.count (.release a) + one? (st.Over a)

/-- The equations hold along every history. -/
theorem accounts {h : List (Event α)} {s : State α} (hist : History h s)
    (a : α) : Accounts h s.stage a := by
  refine hist.invariant (P := fun h s => Accounts h s.stage a)
    ⟨rfl, rfl, Nat.le_refl _, Nat.le_refl _, Nat.le_refl _, Nat.le_refl _, rfl⟩
    ?_
  intro h s e t _ ih hstep
  obtain ⟨h1, h2, h3, h4, h5, h6, h7⟩ := ih
  -- only the moved item's own counts change, so split on whether it is `a`
  cases hstep with
  | put q st b | purge q st b =>
      exact ⟨by simpa, by simpa, by simpa, by simpa, by simpa, by simpa,
        by simpa⟩
  | take q b | drop q b | start q b | suspend q b | wake q b | reenter q b
  | finish q b | releaseFinished q b | releaseDiscarded q b
  | cancelSuspended q b | cancelWoken q b | flush q b =>
      by_cases hb : b = a
      · subst hb
        simp [Stage.Active, Stage.Over] at h1 h2 h3 h4 h5 h6 h7
        constructor <;> simp [Stage.Active, Stage.Over] <;> omega
      · simp [Stage.Active, Stage.Over, hb] at h1 h2 h3 h4 h5 h6 h7
        constructor <;> simp [Stage.Active, Stage.Over, hb] <;> omega

/-- How often an item left the queue, by the way it left. -/
theorem count_removed (h : List (Event α)) (a : α) :
    (removed h).count a =
      h.count (.take a) + h.count (.flush a) + h.count (.purge a) := by
  induction h with
  | nil => rfl
  | cons e h ih =>
      have hcons : removed (e :: h) = removed [e] ++ removed h := by
        rw [← removed_append, List.singleton_append]
      rw [hcons, List.count_append, ih]
      cases e <;> simp [removed, List.count_cons] <;> omega

theorem count_takes (h : List (Event α)) (a : α) :
    (takes h).count a = h.count (.take a) := by
  induction h with
  | nil => rfl
  | cons e h ih =>
      have hcons : takes (e :: h) = takes [e] ++ takes h := by
        rw [← takes_append, List.singleton_append]
      rw [hcons, List.count_append, ih]
      cases e <;> simp [takes, List.count_cons, Nat.add_comm]

theorem mem_takes_iff (h : List (Event α)) (a : α) :
    a ∈ takes h ↔ 0 < h.count (.take a) := by
  rw [← count_takes, List.count_pos_iff]

/-- An item put at most once leaves the queue at most once. -/
theorem count_removed_le_one {h : List (Event α)} {s : State α}
    (hist : History h s) (hnodup : (puts h).Nodup) (a : α) :
    h.count (.take a) + h.count (.flush a) + h.count (.purge a) ≤ 1 := by
  rw [← count_removed]
  have hremoved : (removed h).Nodup := by
    rw [puts_eq_removed_append_queue hist] at hnodup
    exact hnodup.of_append_left
  exact List.nodup_iff_count_le_one.mp hremoved a

/-- **No overlap.**  When an item is started, every other item taken before it
has been dropped, has finished or has been cancelled. -/
theorem done_before_start {before after : List (Event α)} {b : α}
    {s : State α} (hist : History (before ++ .start b :: after) s)
    {a : α} (ha : a ∈ takes before) (hne : a ≠ b) :
    .drop a ∈ before ∨ .finish a ∈ before ∨ .cancel a ∈ before := by
  obtain ⟨m, n, hleft, hfirst, -⟩ :=
    hist.at_event fun _ _ _ => Step.length_eq_one
  have hstage : m.stage = .taken b := by
    cases hfirst
    rfl
  have hacc := accounts hleft a
  have htaken := hacc.taken
  have hstarted := hacc.started
  rw [mem_takes_iff] at ha
  simp [hstage, Stage.Active, hne.symm] at htaken hstarted
  simp only [← List.count_pos_iff]
  omega

/-- An item put at most once is done with at most once. -/
theorem count_done_le_one {h : List (Event α)} {s : State α}
    (hist : History h s) (hnodup : (puts h).Nodup) (a : α) :
    h.count (.drop a) + h.count (.finish a) + h.count (.cancel a) +
      h.count (.flush a) ≤ 1 := by
  have hacc := accounts hist a
  have htaken := hacc.taken
  have hstarted := hacc.started
  have hremoved := count_removed_le_one hist hnodup a
  omega

/-- Until an item is done with, it waits or is the current one. -/
theorem waits_or_current {h : List (Event α)} {s : State α}
    (hist : History h s) {a : α} (ha : a ∈ puts h)
    (hopen : .drop a ∉ h ∧ .finish a ∉ h ∧ .cancel a ∉ h ∧ .flush a ∉ h ∧
      .purge a ∉ h) :
    a ∈ s.queue ∨ s.stage = .taken a ∨ s.stage.Active a := by
  simp only [← List.count_eq_zero] at hopen
  obtain ⟨hdrop, hfinish, hcancel, hflush, hpurge⟩ := hopen
  rw [puts_eq_removed_append_queue hist, List.mem_append,
    ← List.count_pos_iff, count_removed] at ha
  rcases ha with ha | ha
  · have htaken := (accounts hist a).taken
    have hstarted := (accounts hist a).started
    by_cases hstage : s.stage = .taken a
    · exact .inr (.inl hstage)
    · by_cases hactive : s.stage.Active a
      · exact .inr (.inr hactive)
      · simp only [hstage, hactive, one?_false] at htaken hstarted
        omega
  · exact .inl ha

/-- Until an item is released or purged, it waits, is the current one, or is
about to be released. -/
theorem waits_until_released {h : List (Event α)} {s : State α}
    (hist : History h s) {a : α} (ha : a ∈ puts h)
    (hkept : .release a ∉ h ∧ .purge a ∉ h) :
    a ∈ s.queue ∨ s.stage = .taken a ∨ s.stage.Active a ∨ s.stage.Over a := by
  by_cases hover : s.stage.Over a
  · exact .inr (.inr (.inr hover))
  · have hreleased := (accounts hist a).released
    rw [List.count_eq_zero.mpr hkept.1] at hreleased
    simp only [hover, one?_false] at hreleased
    have hopen : .drop a ∉ h ∧ .finish a ∉ h ∧ .cancel a ∉ h ∧
        .flush a ∉ h ∧ .purge a ∉ h := by
      refine ⟨?_, ?_, ?_, ?_, hkept.2⟩ <;> rw [← List.count_eq_zero] <;> omega
    have hopen := waits_or_current hist ha hopen
    rcases hopen with hq | htaken | hactive
    · exact .inl hq
    · exact .inr (.inl htaken)
    · exact .inr (.inr (.inl hactive))

/-- When an item is started, everything put before it has left the queue. -/
theorem removed_before_start {before after : List (Event α)} {b : α}
    {s : State α} (hist : History (before ++ .start b :: after) s)
    (hnodup : (puts (before ++ .start b :: after)).Nodup)
    {earlier later : List α}
    (hputs : puts (before ++ .start b :: after) = earlier ++ b :: later)
    {a : α} (ha : a ∈ earlier) : a ∈ removed before := by
  obtain ⟨m, n, hleft, hfirst, -⟩ :=
    hist.at_event fun _ _ _ => Step.length_eq_one
  have hstage : m.stage = .taken b := by
    cases hfirst
    rfl
  have hb : b ∈ removed before := by
    have htaken := (accounts hleft b).taken
    simp only [hstage, one?_true] at htaken
    rw [← List.count_pos_iff, count_removed]
    omega
  have hprefix : removed before ++ (m.queue ++ puts (.start b :: after)) =
      earlier ++ b :: later := by
    rw [← hputs, puts_append, puts_eq_removed_append_queue hleft,
      List.append_assoc]
  rw [hputs] at hnodup
  rcases List.append_eq_append_iff.mp hprefix with
    ⟨rest, hearlier, -⟩ | ⟨rest, hremoved, -⟩
  · -- then `b` would stand among the items put before itself
    have hbe : b ∈ earlier := by
      rw [hearlier]
      exact List.mem_append_left _ hb
    exact absurd rfl ((List.nodup_append.mp hnodup).2.2 b hbe b (by simp))
  · rw [hremoved]
    exact List.mem_append_left _ ha

end Counting

end SequentialMailbox
