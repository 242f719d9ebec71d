import Eaf.System.GroupView

/-!
# The steps of a run

The trace of a run shows what happened, but not who did it or in which state.
Here a run is looked at with its steps as labels, so that a statement can say
which call did something, and what it saw.
-/

namespace Eaf
namespace Core

open LabelledRun

variable {L : Layout} {s s' : Sys} {a : Act} {events tr : List Event}

/-- One step of a run. -/
structure StepRecord where
  before : Sys
  act : Act
  events : List Event
  after : Sys

/-- The steps of the system, each shown as a whole. -/
def Logged (L : Layout) (s : Sys) (log : List StepRecord) (s' : Sys) : Prop :=
  ∃ a events, serial L s a ∧ step L s a = some (s', events) ∧
    log = [⟨s, a, events, s'⟩]

/-- A run from the start, with its steps. -/
abbrev LogRun (L : Layout) (log : List StepRecord) (s : Sys) : Prop :=
  Run (Logged L) (Sys.initial L) log s

variable {log front rest : List StepRecord} {e : StepRecord}

theorem Logged.length_eq_one (h : Logged L s log s') : log.length = 1 := by
  obtain ⟨a, events, -, -, rfl⟩ := h
  rfl

/-- The events of a run with its steps. -/
def logEvents (log : List StepRecord) : List Event :=
  log.flatMap (·.events)

/-- Forgetting the steps leaves a run. -/
theorem LogRun.trace (h : LogRun L log s) :
    Trace L (serial L) (logEvents log) s := by
  refine h.invariant
    (P := fun log s => Trace L (serial L) (logEvents log) s) .refl ?_
  rintro log s steps s' - ih ⟨a, events, hserial, hstep, rfl⟩
  have hnext := ih.snoc ⟨a, hserial, hstep⟩
  simpa [logEvents] using hnext

/-- Every run has its steps, which keep to its schedule. -/
theorem Trace.exists_log_of {ok : Sys → Act → Prop}
    (h : Trace L (fun s a => serial L s a ∧ ok s a) tr s) :
    ∃ log, LogRun L log s ∧ ∀ e ∈ log, ok e.before e.act := by
  refine Run.preserved (P := fun s =>
    ∃ log, LogRun L log s ∧ ∀ e ∈ log, ok e.before e.act) h
    ⟨[], .refl, by simp⟩ ?_
  rintro s events s' ⟨log, hlog, hall⟩ ⟨a, ⟨hserial, hok⟩, hstep⟩
  refine ⟨_, hlog.snoc ⟨a, events, hserial, hstep, rfl⟩, fun e he => ?_⟩
  rcases List.mem_append.mp he with he | he
  · exact hall e he
  · rw [List.mem_singleton.mp he]
    exact hok

/-- Every run has its steps. -/
theorem Trace.exists_log (h : Trace L (serial L) tr s) :
    ∃ log, LogRun L log s := by
  have hall : Trace L (fun s a => serial L s a ∧ True) tr s :=
    h.weaken fun _ _ hok => ⟨hok, trivial⟩
  obtain ⟨log, hlog, -⟩ := hall.exists_log_of
  exact ⟨log, hlog⟩

/-- Induction along the steps of a run. -/
theorem LogRun.bySteps {P : List StepRecord → Sys → Prop} (h : LogRun L log s)
    (hinit : P [] (Sys.initial L))
    (hnext : ∀ log s a events s', LogRun L log s → P log s → serial L s a →
      step L s a = some (s', events) → P (log ++ [⟨s, a, events, s'⟩]) s') :
    P log s := by
  refine h.invariant hinit ?_
  rintro log s steps s' hrun ih ⟨a, events, hserial, hstep, rfl⟩
  exact hnext log s a events s' hrun ih hserial hstep

/-- The state in which a step of the log was made was reached by the steps
before it. -/
theorem LogRun.split (h : LogRun L (front ++ e :: rest) s) :
    LogRun L front e.before ∧ serial L e.before e.act ∧
      step L e.before e.act = some (e.after, e.events) ∧
      Run (Logged L) e.after rest s := by
  obtain ⟨m, n, hfront, ⟨a, events, hserial, hstep, he⟩, hrest⟩ :=
    h.at_event fun _ _ _ hlogged => hlogged.length_eq_one
  obtain rfl := List.singleton_inj.mp he
  exact ⟨hfront, hserial, hstep, hrest⟩

end Core
end Eaf
