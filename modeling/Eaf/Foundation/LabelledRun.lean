import Mathlib.Data.List.Induction

/-!
# Runs of a labelled transition relation

A transition relation `step : σ → List ε → σ → Prop` moves from one state to
the next and shows the observer a list of events (possibly none).  `Run` is
its reflexive, transitive closure with the events concatenated in order, so a
property of a run may speak about the state it ends in, about what was
observed on the way, or about both.

The rules below are the ones a development about a concrete system needs:
induction along a run, gluing runs together, weakening the relation, looking
at a run through a projection of its states and events, and obtaining a run
from an executable step function and a list of actions.
-/

namespace LabelledRun

variable {σ τ ε δ α : Type*}

/-- Finite runs from `start`, indexed by the observed trace and the last
state. -/
inductive Run (step : σ → List ε → σ → Prop) (start : σ) :
    List ε → σ → Prop
  | refl : Run step start [] start
  | snoc {trace : List ε} {s : σ} {events : List ε} {t : σ} :
      Run step start trace s → step s events t →
        Run step start (trace ++ events) t

namespace Run

variable {step : σ → List ε → σ → Prop} {start s t : σ}
  {trace rest events : List ε}

/-- A single step is a run. -/
theorem single (h : step s events t) : Run step s events t := by
  have hrefl : Run step s [] s := .refl
  simpa using hrefl.snoc h

/-- Runs compose, and so do their traces. -/
theorem trans (h : Run step start trace s) (h' : Run step s rest t) :
    Run step start (trace ++ rest) t := by
  induction h' with
  | refl => simpa using h
  | snoc _ hstep ih =>
      rw [← List.append_assoc]
      exact ih.snoc hstep

/-- Induction along a run, with the run up to the current point available in
the step case. -/
theorem invariant {P : List ε → σ → Prop} (h : Run step start trace s)
    (hinit : P [] start)
    (hstep : ∀ trace s events t, Run step start trace s → P trace s →
      step s events t → P (trace ++ events) t) : P trace s := by
  induction h with
  | refl => exact hinit
  | snoc hrun hlast ih => exact hstep _ _ _ _ hrun ih hlast

/-- A property of states that every step keeps holds at the end of a run. -/
theorem preserved {P : σ → Prop} (h : Run step start trace s)
    (hinit : P start)
    (hstep : ∀ s events t, P s → step s events t → P t) : P s :=
  h.invariant (P := fun _ s => P s) hinit
    fun _ s events t _ hs ht => hstep s events t hs ht

/-- A run of a stronger relation is a run of a weaker one. -/
theorem mono {step' : σ → List ε → σ → Prop} (h : Run step start trace s)
    (hle : ∀ s events t, step s events t → step' s events t) :
    Run step' start trace s := by
  induction h with
  | refl => exact .refl
  | snoc _ hlast ih => exact ih.snoc (hle _ _ _ hlast)

/-- Projection: if, at every point of the run, a step looks through `view` and
`obs` like a run of another system, then so does the whole run. -/
theorem project {step' : τ → List δ → τ → Prop} (view : σ → τ)
    (obs : ε → Option δ) (h : Run step start trace s)
    (hstep : ∀ trace s events t, Run step start trace s → step s events t →
      Run step' (view s) (events.filterMap obs) (view t)) :
    Run step' (view start) (trace.filterMap obs) (view s) := by
  induction h with
  | refl => exact .refl
  | snoc hrun hlast ih =>
      rw [List.filterMap_append]
      exact ih.trans (hstep _ _ _ _ hrun hlast)

/-- Simulation: if related states stay related whenever one system steps and
the other answers with a run that shows the same observations, then every run
of the first is accompanied by a run of the second. -/
theorem simulate {step' : τ → List δ → τ → Prop} {start' : τ}
    {Related : σ → τ → Prop} (obs : ε → Option δ)
    (h : Run step start trace s) (hstart : Related start start')
    (hstep : ∀ trace s events t m, Run step start trace s → step s events t →
      Related s m →
      ∃ m', Run step' m (events.filterMap obs) m' ∧ Related t m') :
    ∃ m, Run step' start' (trace.filterMap obs) m ∧ Related s m := by
  induction h with
  | refl => exact ⟨start', .refl, hstart⟩
  | snoc hrun hlast ih =>
      obtain ⟨m, hleft, hm⟩ := ih
      obtain ⟨m', hright, hm'⟩ := hstep _ _ _ _ _ hrun hlast hm
      exact ⟨m', by rw [List.filterMap_append]; exact hleft.trans hright, hm'⟩

/-- The step of a run that shows an event, with the run before it and the run
after it. -/
theorem step_of_mem {e : ε} (h : Run step start trace s) (he : e ∈ trace) :
    ∃ front m events n rest, Run step start front m ∧ step m events n ∧
      Run step n rest s ∧ trace = front ++ events ++ rest ∧ e ∈ events := by
  induction h with
  | refl => cases he
  | @snoc trace s events t hrun hlast ih =>
      rcases List.mem_append.mp he with he | he
      · obtain ⟨front, m, shown, n, rest, hfront, hstep, hrest, rfl, hshown⟩ :=
          ih he
        exact ⟨front, m, shown, n, rest ++ events, hfront, hstep,
          hrest.snoc hlast, by simp, hshown⟩
      · exact ⟨trace, s, events, t, [], hrun, hlast, .refl, by simp, he⟩

/-- When every step shows exactly one event, a run may be cut at any point of
its trace. -/
theorem cut (hone : ∀ s events t, step s events t → events.length = 1)
    (h : Run step start (trace ++ rest) t) :
    ∃ s, Run step start trace s ∧ Run step s rest t := by
  induction rest using List.reverseRecOn generalizing t with
  | nil => exact ⟨t, by simpa using h, .refl⟩
  | append_singleton rest e ih =>
      generalize htrace : trace ++ (rest ++ [e]) = whole at h
      cases h with
      | refl => simp at htrace
      | @snoc front s events _ hrun hlast =>
          obtain ⟨e', rfl⟩ := List.length_eq_one_iff.mp (hone _ _ _ hlast)
          rw [← List.append_assoc] at htrace
          obtain ⟨hfront, hlastEvent⟩ := List.append_inj' htrace rfl
          subst hfront
          obtain ⟨m, hleft, hright⟩ := ih hrun
          refine ⟨m, hleft, ?_⟩
          rw [hlastEvent]
          exact hright.snoc hlast

/-- When every step shows one event, a run that shows none has not moved. -/
theorem eq_of_nil (hone : ∀ s events t, step s events t → events.length = 1)
    (h : Run step s [] t) : t = s := by
  generalize htrace : ([] : List ε) = trace at h
  cases h with
  | refl => rfl
  | snoc _ hlast =>
      have hlength := congrArg List.length htrace
      simp [hone _ _ _ hlast] at hlength

/-- When every step shows one event, a run that shows one event is a step. -/
theorem step_of_singleton
    (hone : ∀ s events t, step s events t → events.length = 1) {e : ε}
    (h : Run step s [e] t) : step s [e] t := by
  generalize htrace : [e] = trace at h
  cases h with
  | refl => simp at htrace
  | @snoc front m events _ hrun hlast =>
      obtain ⟨e', rfl⟩ := List.length_eq_one_iff.mp (hone _ _ _ hlast)
      have hsplit : [] ++ [e] = front ++ [e'] := htrace
      obtain ⟨hfront, -⟩ := List.append_inj' hsplit rfl
      subst hfront
      obtain rfl := eq_of_nil hone hrun
      exact hlast

/-- The step of a run that shows a given event. -/
theorem at_event (hone : ∀ s events t, step s events t → events.length = 1)
    {e : ε} (h : Run step start (trace ++ e :: rest) t) :
    ∃ m n, Run step start trace m ∧ step m [e] n ∧ Run step n rest t := by
  obtain ⟨m, hleft, hright⟩ := h.cut hone
  have hsplit : Run step m ([e] ++ rest) t := hright
  obtain ⟨n, hfirst, hlast⟩ := hsplit.cut hone
  exact ⟨m, n, hleft, step_of_singleton hone hfirst, hlast⟩

end Run

/-! ## Observers -/

/-- An observer who sees no more than another one sees a part of what the
other one sees, in the same order. -/
theorem sublist_of_observer {f g : ε → Option δ}
    (h : ∀ e x, f e = some x → g e = some x) (trace : List ε) :
    (trace.filterMap f).Sublist (trace.filterMap g) := by
  induction trace with
  | nil => exact .slnil
  | cons e rest ih =>
      cases hf : f e with
      | some x =>
          rw [List.filterMap_cons_some hf, List.filterMap_cons_some (h e x hf)]
          exact ih.cons_cons x
      | none =>
          rw [List.filterMap_cons_none hf]
          cases hg : g e with
          | none => rwa [List.filterMap_cons_none hg]
          | some y =>
              rw [List.filterMap_cons_some hg]
              exact ih.cons y

/-- When nothing is seen twice, two events that look the same are the same. -/
theorem eq_of_observed {f : ε → Option δ} {trace : List ε}
    (hnodup : (trace.filterMap f).Nodup) {a b : ε} {x : δ} (ha : a ∈ trace)
    (hb : b ∈ trace) (hfa : f a = some x) (hfb : f b = some x) : a = b := by
  induction trace with
  | nil => cases ha
  | cons e rest ih =>
      have hseen : ∀ c ∈ rest, f c = some x → x ∈ rest.filterMap f :=
        fun c hc hfc => List.mem_filterMap.mpr ⟨c, hc, hfc⟩
      rcases List.mem_cons.mp ha with rfl | hra <;>
        rcases List.mem_cons.mp hb with rfl | hrb
      · rfl
      · rw [List.filterMap_cons_some hfa, List.nodup_cons] at hnodup
        exact absurd (hseen b hrb hfb) hnodup.1
      · rw [List.filterMap_cons_some hfb, List.nodup_cons] at hnodup
        exact absurd (hseen a hra hfa) hnodup.1
      · refine ih (hnodup.sublist ?_) hra hrb
        exact (List.sublist_cons_self e rest).filterMap f

/-! ## Runs from an executable step function -/

/-- The relation of an executable step function whose actions satisfy `ok`. -/
def Guarded (next : σ → α → Option (σ × List ε)) (ok : σ → α → Prop)
    (s : σ) (events : List ε) (t : σ) : Prop :=
  ∃ a, ok s a ∧ next s a = some (t, events)

section Replay

variable {next : σ → α → Option (σ × List ε)} {ok : σ → α → Prop}
  [∀ s a, Decidable (ok s a)]

/-- Execute a list of permitted actions, collecting the events. -/
def replay (next : σ → α → Option (σ × List ε)) (ok : σ → α → Prop)
    [∀ s a, Decidable (ok s a)] : σ → List α → Option (σ × List ε)
  | s, [] => some (s, [])
  | s, a :: rest =>
      if ok s a then
        match next s a with
        | none => none
        | some (t, events) =>
            match replay next ok t rest with
            | none => none
            | some (u, later) => some (u, events ++ later)
      else none

/-- A successful replay is a run. -/
theorem run_of_replay {actions : List α} {s t : σ} {trace : List ε}
    (h : replay next ok s actions = some (t, trace)) :
    Run (Guarded next ok) s trace t := by
  induction actions generalizing s trace with
  | nil =>
      simp only [replay, Option.some.injEq, Prod.mk.injEq] at h
      obtain ⟨rfl, rfl⟩ := h
      exact .refl
  | cons a rest ih =>
      by_cases hok : ok s a
      · simp only [replay, if_pos hok] at h
        cases hnext : next s a with
        | none => simp [hnext] at h
        | some first =>
            obtain ⟨m, events⟩ := first
            cases hrest : replay next ok m rest with
            | none => simp [hnext, hrest] at h
            | some last =>
                obtain ⟨u, later⟩ := last
                simp only [hnext, hrest, Option.some.injEq,
                  Prod.mk.injEq] at h
                obtain ⟨rfl, rfl⟩ := h
                have hstep : Guarded next ok s events m := ⟨a, hok, hnext⟩
                exact (Run.single hstep).trans (ih hrest)
      · simp [replay, hok] at h

/-- A replay whose outcome passes a check yields a run whose outcome passes
it. -/
theorem exists_run_of_replay {actions : List α} {s : σ}
    {check : σ × List ε → Bool}
    (h : (replay next ok s actions).any check = true) :
    ∃ t trace, Run (Guarded next ok) s trace t ∧ check (t, trace) = true := by
  cases hreplay : replay next ok s actions with
  | none => simp [hreplay] at h
  | some outcome =>
      obtain ⟨t, trace⟩ := outcome
      rw [hreplay] at h
      exact ⟨t, trace, run_of_replay hreplay, by simpa using h⟩

end Replay

end LabelledRun
