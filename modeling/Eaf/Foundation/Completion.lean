import Eaf.Foundation.LabelledRun

/-!
# Schedules that come to an end

A system completes when no schedule goes on for ever and a schedule can only
stop in a state that counts as done.  The first half follows from a measure
that every step decreases; the second half says that nothing is stuck on the
way.  Together they give, from every reachable state, a run to a state that is
done.
-/

namespace LabelledRun

variable {σ ε : Type*} {step : σ → List ε → σ → Prop} {start s t : σ}
  {trace rest : List ε} {final : σ → Prop}

/-- No step is possible. -/
def Halted (step : σ → List ε → σ → Prop) (s : σ) : Prop :=
  ∀ events t, ¬ step s events t

/-- No run is longer than some bound. -/
def Bounded (step : σ → List ε → σ → Prop) (start : σ) : Prop :=
  ∃ n, ∀ trace s, Run step start trace s → trace.length ≤ n

/-- Every schedule comes to an end, and it ends in a final state. -/
structure Completes (step : σ → List ε → σ → Prop) (start : σ)
    (final : σ → Prop) : Prop where
  bounded : Bounded step start
  ending : ∀ trace s, Run step start trace s → Halted step s → final s

/-- A state that cannot be left is the end of all its runs. -/
theorem Halted.eq_of_run (h : Halted step s) (hrun : Run step s trace t) :
    t = s := by
  induction hrun with
  | refl => rfl
  | snoc _ hlast ih =>
      rw [ih] at hlast
      exact absurd hlast (h _ _)

/-- A measure that goes down with every step bounds the runs; the measure
needs to be right in the reachable states only. -/
theorem Bounded.of_measure (Inv : σ → Prop) (m : σ → Nat)
    (hone : ∀ s events t, step s events t → events.length = 1)
    (hinit : Inv start)
    (hstep : ∀ s events t, Inv s → step s events t → Inv t)
    (hdecrease : ∀ s events t, Inv s → step s events t → m t < m s) :
    Bounded step start := by
  refine ⟨m start, fun trace s h => ?_⟩
  have hsum : Inv s ∧ trace.length + m s ≤ m start := by
    refine h.invariant
      (P := fun trace s => Inv s ∧ trace.length + m s ≤ m start)
      ⟨hinit, by simp⟩ ?_
    intro trace s events t _ ⟨hinv, hle⟩ hlast
    have hlength := hone s events t hlast
    have hless := hdecrease s events t hinv hlast
    refine ⟨hstep s events t hinv hlast, ?_⟩
    rw [List.length_append, hlength]
    omega
  omega

/-- Every run of a bounded system can be continued until nothing moves. -/
theorem Run.exists_halted (h : Run step start trace s)
    (hone : ∀ s events t, step s events t → events.length = 1)
    (hbounded : Bounded step start) :
    ∃ rest t, Run step s rest t ∧ Halted step t := by
  obtain ⟨n, hn⟩ := hbounded
  -- the induction is on the number of steps the bound leaves
  induction hk : n - trace.length generalizing trace s with
  | zero =>
      refine ⟨[], s, .refl, fun events t hstep => ?_⟩
      have hlength := hn _ _ (h.snoc hstep)
      rw [List.length_append, hone _ _ _ hstep] at hlength
      omega
  | succ k ih =>
      by_cases hhalted : Halted step s
      · exact ⟨[], s, .refl, hhalted⟩
      · simp only [Halted, not_forall, not_not] at hhalted
        obtain ⟨events, t, hstep⟩ := hhalted
        have hlength := hone _ _ _ hstep
        obtain ⟨rest, u, hrest, hu⟩ := ih (h.snoc hstep) (by
          rw [List.length_append]
          omega)
        exact ⟨events ++ rest, u, (Run.single hstep).trans hrest, hu⟩

end LabelledRun
