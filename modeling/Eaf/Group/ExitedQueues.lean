import Eaf.Group.CallbackOrder

/-!
# The queues of exited services

Teardown empties a service before it sets `exit1`; `_eaf_group_exit` does not.
So until the worker gets there, whatever waits in an exited service was pushed
after the exit.
-/

namespace Eaf
namespace Core

open LabelledRun

variable {c : GroupTable} {G G' : Group} {i : Nat} {e : Env} {o : Outcome}
  {events tr : List GroupEvent}

/-- `_eaf_group_exit` does not come back to a service. -/
theorem WorkerTrans.doneWith_mono (h : WorkerTrans c e G o G' events)
    (hdone : G.worker.doneWith i = true) : G'.worker.doneWith i = true := by
  cases h
  case exitEnd => rfl
  case exitSkip k h _ | exitExit0 k h _ _ | exitExit1 k h _ =>
    simp only [h, Pc.doneWith, decide_eq_true_eq] at hdone
    simp only [Group.goto_worker, Pc.doneWith, decide_eq_true_eq]
    omega
  all_goals simp_all [Pc.doneWith]

/-- The worker leaves exited services alone, and a service it exits during
teardown is empty. -/
theorem WorkerTrans.exited (inv : GroupInv c G)
    (h : WorkerTrans c e G o G' events) (hi : i < c.size)
    (hst : (G'.table i).state = .exit1)
    (hdone : G'.worker.doneWith i = false) :
    ((G'.table i).queue = [] ∧ (G'.table i).curMsg = none) ∨
      G'.table i = G.table i := by
  have hholds := (inv.sound i hi).holds
  cases h
  case tdSetExit1 k h =>
    by_cases hk : i = k
    · subst hk
      rw [h] at hholds
      obtain ⟨-, hcur, hq⟩ := hholds rfl
      exact .inl (by simp [hq, hcur])
    · exact .inr (by simp [hk])
  case exitExit1 k h hcall =>
    simp only [Group.goto_worker, Pc.doneWith, decide_eq_false_iff_not] at hdone
    have hk : i ≠ k := by omega
    exact .inr (by simp [hk])
  case initDone k caller h hcall hyield =>
    by_cases hk : i = k
    · subst hk
      simp only [Group.goto_table, Group.finishServiceInit_table,
        Group.setService_table, Function.update_self,
        Group.initDoneState] at hst
      split at hst <;> cases hst
    · exact .inr (by simp [hk])
  case popNone k h _ | handledYield k r h _ _ | tdExit0 k h _ _
    | exitExit0 k h _ _ =>
    by_cases hk : i = k
    · subst hk
      simp at hst
    · exact .inr (by simp [hk])
  case popSome k r rest h hq | handlerReturn k h _ | reset k r h _
    | tdFreeCur k r h | tdPopSome k r rest h _ =>
    -- the worker has only busy services and services in `exit0` in its hands
    by_cases hk : i = k
    · subst hk
      rw [h] at hholds
      simp [(hholds rfl).1] at hst
    · exact .inr (by simp [hk])
  all_goals exact .inr rfl

/-- What waits in a service that was exited during teardown was pushed into it
afterwards. -/
def ExitedQueues (c : GroupTable) (tr : List GroupEvent) (G : Group) : Prop :=
  ∀ i, c.Registered i → (G.table i).state = .exit1 →
    G.worker.doneWith i = false →
    (G.table i).curMsg = none ∧
      ∀ r ∈ (G.table i).queue, .push i r .exit1 ∈ tr

/-- Only the service itself matters, and the worker. -/
theorem ExitedQueues.of_same (hq : ExitedQueues c tr G)
    (hreg : c.Registered i) (hst : (G'.table i).state = .exit1)
    (hdone : G.worker.doneWith i = false)
    (hsame : G'.table i = G.table i) (events : List GroupEvent) :
    (G'.table i).curMsg = none ∧
      ∀ r ∈ (G'.table i).queue, .push i r .exit1 ∈ tr ++ events := by
  rw [hsame] at hst ⊢
  obtain ⟨hcur, hpushed⟩ := hq i hreg hst hdone
  exact ⟨hcur, fun r hr => List.mem_append_left _ (hpushed r hr)⟩

/-- Every step of a group keeps this. -/
theorem ExitedQueues.step (hq : ExitedQueues c tr G) (inv : GroupInv c G)
    (h : GroupStep c G events G') : ExitedQueues c (tr ++ events) G' := by
  intro i hreg hst hdone
  cases h with
  | work hfixed h =>
      rcases h.exited inv hreg.1 hst hdone with ⟨hnil, hcur⟩ | hsame
      · exact ⟨hcur, by simp [hnil]⟩
      · refine hq.of_same hreg hst ?_ hsame events
        by_contra hold
        rw [h.doneWith_mono (by simpa using hold)] at hdone
        cases hdone
  | fix hraw =>
      obtain ⟨hi, hentry⟩ := hreg
      simp only [Group.loadFixState_table, if_pos hi, Group.loadState] at hst
      split at hst
      · simp_all
      · split at hst <;> cases hst
  | @push _ j r hfixed hregj h =>
      obtain ⟨hexit0, htable, hworker, -⟩ := Group.pushMsg_some h
      rw [hworker] at hdone
      by_cases hij : i = j
      · subst hij
        rw [htable, Function.update_self] at hst ⊢
        have hold : (G.table i).state = .exit1 := by
          cases hs : (G.table i).state <;>
            simp [hs, Group.pushedState] at hst ⊢
        obtain ⟨hcur, hpushed⟩ := hq i hreg hold hdone
        refine ⟨hcur, fun r' hr' => ?_⟩
        rcases List.mem_append.mp hr' with hr' | hr'
        · exact List.mem_append_left _ (hpushed r' hr')
        · rw [List.mem_singleton] at hr'
          rw [hr', hold]
          exact List.mem_append_right _ (by simp)
      · exact hq.of_same hreg hst hdone (by rw [htable]; simp [hij]) _
  | @resume _ j hregj h =>
      obtain ⟨hyield, rfl⟩ := Group.resumeService_some h
      by_cases hij : i = j
      · subst hij
        simp at hst
      · exact hq.of_same hreg hst hdone (by simp [hij]) _
  | post => exact hq.of_same hreg hst hdone rfl _
  | @purgeQueued j r rest site hj hworker hqueue =>
      by_cases hij : i = j
      · subst hij
        obtain ⟨hcur, hpushed⟩ := hq i hreg (by simpa using hst) hdone
        simp only [Group.setService_table, Function.update_self]
        refine ⟨hcur, fun r' hr' => List.mem_append_left _ (hpushed r' ?_)⟩
        rw [hqueue]
        exact List.mem_cons_of_mem r hr'
      · exact hq.of_same hreg hst hdone (by simp [hij]) _
  | @purgeCurrent j r site hj hworker hcur =>
      by_cases hij : i = j
      · subst hij
        obtain ⟨hnone, -⟩ := hq i hreg (by simpa using hst) hdone
        rw [hnone] at hcur
        cases hcur
      · exact hq.of_same hreg hst hdone (by simp [hij]) _

theorem ExitedQueues.ofRun (h : GroupRun c tr G) : ExitedQueues c tr G := by
  refine h.invariant (P := ExitedQueues c) ?_ ?_
  · intro i _ hst
    simp [Group.initial, Service.initial] at hst
  · intro tr G events G' hrun hq hstep
    exact hq.step (GroupInv.ofRun hrun) hstep

end Core
end Eaf
