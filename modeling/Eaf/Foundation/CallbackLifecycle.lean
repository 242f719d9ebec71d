import Mathlib.Data.List.Count
import Eaf.Foundation.LabelledRun

/-!
# The life of a component with an initialise and an exit callback

A component is fresh, is initialised once, then handles any number of calls,
and is exited once.  A component whose initialisation is optional may also be
exited while it is still fresh.  `Shape` describes, stage by stage, the only
histories such a component can have; the counting and ordering facts that a
user of the component relies on are read off that description.
-/

namespace CallbackLifecycle

open LabelledRun

/-- The stages of a component. -/
inductive Stage
  | fresh
  | initialising
  | ready
  | exiting
  | exited
  deriving DecidableEq

/-- Callbacks starting and returning; `handle` is an entry into a handler. -/
inductive Event
  | initStart
  | initDone
  | handle
  | exitStart
  | exitDone
  deriving DecidableEq

/-- The protocol; `optional` says whether initialisation may be skipped. -/
inductive Step (optional : Prop) : Stage → List Event → Stage → Prop
  | initStart : Step optional .fresh [.initStart] .initialising
  | initDone : Step optional .initialising [.initDone] .ready
  | handle : Step optional .ready [.handle] .ready
  | exit : Step optional .ready [.exitStart] .exiting
  | exitFresh (h : optional) : Step optional .fresh [.exitStart] .exiting
  | exitDone : Step optional .exiting [.exitDone] .exited

variable {optional : Prop} {h before after : List Event} {st : Stage}

theorem Step.length_eq_one {st st' : Stage} (hstep : Step optional st h st') :
    h.length = 1 := by
  cases hstep <;> rfl

/-- The histories of the protocol. -/
abbrev History (optional : Prop) (h : List Event) (st : Stage) : Prop :=
  Run (Step optional) .fresh h st

/-- Initialised, then `n` entries into handlers. -/
def served (n : Nat) : List Event :=
  .initStart :: .initDone :: List.replicate n .handle

/-- What may precede the exit callback. -/
def Exitable (optional : Prop) (h : List Event) : Prop :=
  (optional ∧ h = []) ∨ ∃ n, h = served n

/-- The history of a component, stage by stage. -/
def Shape (optional : Prop) (h : List Event) : Stage → Prop
  | .fresh => h = []
  | .initialising => h = [.initStart]
  | .ready => ∃ n, h = served n
  | .exiting => ∃ pre, Exitable optional pre ∧ h = pre ++ [.exitStart]
  | .exited => ∃ pre, Exitable optional pre ∧ h = pre ++ [.exitStart, .exitDone]

/-- Every history has the shape of its stage. -/
theorem shape (hist : History optional h st) : Shape optional h st := by
  refine hist.invariant (P := Shape optional) rfl ?_
  intro h st e st' _ ih hstep
  cases hstep with
  | initStart =>
      obtain rfl : h = [] := ih
      rfl
  | initDone =>
      obtain rfl : h = [.initStart] := ih
      exact ⟨0, rfl⟩
  | handle =>
      obtain ⟨n, rfl⟩ := ih
      exact ⟨n + 1, by simp [served, List.replicate_succ']⟩
  | exit => exact ⟨h, .inr ih, rfl⟩
  | exitFresh hoptional =>
      obtain rfl : h = [] := ih
      exact ⟨[], .inl ⟨hoptional, rfl⟩, rfl⟩
  | exitDone =>
      obtain ⟨pre, hpre, rfl⟩ := ih
      exact ⟨pre, hpre, by simp⟩

@[simp] theorem count_served_initStart (n : Nat) :
    (served n).count .initStart = 1 := by
  simp [served, List.count_replicate]

@[simp] theorem count_served_exitStart (n : Nat) :
    (served n).count .exitStart = 0 := by
  simp [served, List.count_replicate]

@[simp] theorem count_served_exitDone (n : Nat) :
    (served n).count .exitDone = 0 := by
  simp [served, List.count_replicate]

/-- Before the exit callback a component was initialised at most once and
never exited. -/
theorem Exitable.counts (hpre : Exitable optional h) :
    h.count .initStart ≤ 1 ∧ h.count .exitStart = 0 ∧
      h.count .exitDone = 0 := by
  rcases hpre with ⟨-, rfl⟩ | ⟨n, rfl⟩
  · simp
  · simp

/-- The initialise callback runs at most once. -/
theorem count_initStart_le_one (hist : History optional h st) :
    h.count .initStart ≤ 1 := by
  have hshape := shape hist
  cases st with
  | fresh => simp_all [Shape]
  | initialising => simp_all [Shape]
  | ready =>
      obtain ⟨n, rfl⟩ := hshape
      simp
  | exiting =>
      obtain ⟨pre, hpre, rfl⟩ := hshape
      simpa using hpre.counts.1
  | exited =>
      obtain ⟨pre, hpre, rfl⟩ := hshape
      simpa using hpre.counts.1

/-- The exit callback runs at most once. -/
theorem count_exitStart_le_one (hist : History optional h st) :
    h.count .exitStart ≤ 1 := by
  have hshape := shape hist
  cases st with
  | fresh => simp_all [Shape]
  | initialising => simp_all [Shape]
  | ready =>
      obtain ⟨n, rfl⟩ := hshape
      simp
  | exiting =>
      obtain ⟨pre, hpre, rfl⟩ := hshape
      simp [hpre.counts.2.1]
  | exited =>
      obtain ⟨pre, hpre, rfl⟩ := hshape
      simp [hpre.counts.2.1]

/-- Handlers run only after the initialise callback has returned and before
the exit callback has started. -/
theorem handle_within (hist : History optional (before ++ .handle :: after) st) :
    .initDone ∈ before ∧ .exitStart ∉ before := by
  obtain ⟨m, n, hleft, hfirst, -⟩ :=
    hist.at_event fun _ _ _ => Step.length_eq_one
  have hstage : m = .ready := by
    cases hfirst
    rfl
  subst hstage
  obtain ⟨k, rfl⟩ := shape hleft
  constructor
  · simp [served]
  · simp [served]

/-- The exit callback follows the initialise callback, unless initialisation
was optional and did not happen. -/
theorem exit_after_init
    (hist : History optional (before ++ .exitStart :: after) st) :
    .initDone ∈ before ∨ (optional ∧ before = []) := by
  obtain ⟨m, n, hleft, hfirst, -⟩ :=
    hist.at_event fun _ _ _ => Step.length_eq_one
  cases hfirst with
  | exit =>
      obtain ⟨k, rfl⟩ := shape hleft
      exact .inl (by simp [served])
  | exitFresh hoptional => exact .inr ⟨hoptional, shape hleft⟩

/-- A component past its initialisation was initialised, unless that was
optional. -/
theorem initDone_of_past (hist : History optional h st) (hfresh : st ≠ .fresh)
    (hinit : st ≠ .initialising) (hneeded : ¬ optional) : .initDone ∈ h := by
  have hserved : ∀ pre, Exitable optional pre → .initDone ∈ pre := by
    rintro pre (⟨hoptional, -⟩ | ⟨n, rfl⟩)
    · exact absurd hoptional hneeded
    · simp [served]
  have hshape := shape hist
  cases st with
  | fresh => exact absurd rfl hfresh
  | initialising => exact absurd rfl hinit
  | ready => exact hserved h (.inr hshape)
  | exiting =>
      obtain ⟨pre, hpre, rfl⟩ := hshape
      exact List.mem_append_left _ (hserved pre hpre)
  | exited =>
      obtain ⟨pre, hpre, rfl⟩ := hshape
      exact List.mem_append_left _ (hserved pre hpre)

/-- A component that is not between its two callbacks and was initialised has
been exited exactly once. -/
theorem exited_once (hist : History optional h st)
    (hend : st = .fresh ∨ st = .exited) (hinit : .initStart ∈ h) :
    h.count .exitStart = 1 ∧ h.count .exitDone = 1 := by
  rcases hend with rfl | rfl
  · obtain rfl : h = [] := shape hist
    simp at hinit
  · obtain ⟨pre, hpre, rfl⟩ := shape hist
    simp [hpre.counts.2.1, hpre.counts.2.2]

end CallbackLifecycle
