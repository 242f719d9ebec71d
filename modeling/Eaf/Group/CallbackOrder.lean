import Eaf.Foundation.CallbackLifecycle
import Eaf.Group.ServiceFacts

/-!
# The callbacks of a service

Seen from one registered service, every run of its group is a history of
`CallbackLifecycle`: `on_init` runs once, handlers run after it has returned,
and `on_exit` runs once and ends the life of the service.  The stage of the
service is read off its state and the worker's program point.  Initialisation
is optional for a service with the lazyload attribute only.
-/

namespace Eaf
namespace Core

open LabelledRun CallbackLifecycle

/-- The callbacks of service `i`. -/
def lifecycleEvent (i : Nat) : GroupEvent → Option CallbackLifecycle.Event
  | .initStart j => if j = i then some .initStart else none
  | .initDone j => if j = i then some .initDone else none
  | .start j _ _ | .reenter j _ _ => if j = i then some .handle else none
  | .exitStart j => if j = i then some .exitStart else none
  | .exitDone j => if j = i then some .exitDone else none
  | .push _ _ _ | .resume _ _ | .take _ _ | .drop _ _ | .suspend _ _
  | .finish _ _ | .release _ _ | .cancel _ _ | .flush _ _ | .purge _ _
  | .answer _ _ _ | .answered _ _ _ _ | .ready | .failure => none

/-- The stage of a service none of whose first or last callbacks is running. -/
def ServiceState.stage : ServiceState → Stage
  | .init0 | .init1 | .init2 => .fresh
  | .idle | .busy | .yield => .ready
  | .exit0 | .exit1 => .exited

/-- The stage of service `i`. -/
def lifeStage (i : Nat) (S : Service) : Pc → Stage
  | .inInit j _ => if j = i then .initialising else S.state.stage
  | .tdInExit j | .exInExit j => if j = i then .exiting else S.state.stage
  | _ => S.state.stage

/-- The stage of service `i` of a group. -/
def Group.lifeStage (G : Group) (i : Nat) : Stage :=
  Core.lifeStage i (G.table i) G.worker

/-- The worker may have exited service `i`. -/
def Pc.past (i : Nat) : Pc → Bool
  | .tdScan k | .tdInExit k | .tdMsg k _ _ | .tdSend k _ _ _ | .tdFree k _ _
  | .tdPop k | .tdExit1 k => decide (i < k)
  | .tdTest => false
  | pc => pc.late

variable {c : GroupTable} {G G' : Group} {i j : Nat} {S S' : Service}
  {pc : Pc} {e : Env} {o : Outcome} {events : List GroupEvent}

/-! ## Exited services -/

/-- A registered service is in `exit1` only when the worker has exited it. -/
def ExitedPast (c : GroupTable) (G : Group) : Prop :=
  ∀ i, c.Registered i → (G.table i).state = .exit1 → G.worker.past i = true

@[simp] theorem Pc.handlerPc_past (ph : Phase) (fn : Option Fn) :
    (handlerPc ph j fn).past i = (Pc.inHandler ph j).past i := by
  cases fn <;> cases ph <;> rfl

theorem ExitedPast.initial (c : GroupTable) :
    ExitedPast c (Group.initial c) := by
  intro i _ hst
  simp [Group.initial, Service.initial] at hst

/-- The worker does not come back to a service it has exited. -/
theorem WorkerTrans.past_mono (h : WorkerTrans c e G o G' events)
    (hpast : G.worker.past i = true) : G'.worker.past i = true := by
  cases h
  case initDone idx caller h hcall hyield =>
    cases caller <;> simp_all [Pc.past, Pc.late, afterInit]
  case dispatchReenter h _ _ _ | beforeStart h _ _ _ _ =>
    rw [h] at hpast
    rw [Group.goto_worker, Pc.handlerPc_past]
    exact hpast
  case tdSkip k h _ _ | tdSetExit1 k h =>
    simp only [h, Pc.past, Group.goto_worker, decide_eq_true_eq] at hpast ⊢
    omega
  all_goals simp_all [Pc.past, Pc.late]

/-- The two places that set `exit1` are past the service. -/
theorem WorkerTrans.exit1_origin (h : WorkerTrans c e G o G' events)
    (hst : (G'.table i).state = .exit1) :
    (G.table i).state = .exit1 ∨ G'.worker.past i = true := by
  cases h
  case tdSetExit1 k h =>
    by_cases hk : i = k
    · exact .inr (by simp [Pc.past, hk])
    · exact .inl (by simpa [hk] using hst)
  case exitExit1 => exact .inr rfl
  case initDone idx caller h hcall hyield =>
    simp only [Group.goto_table, Group.finishServiceInit_table,
      Group.setService_table, Function.update_idem] at hst
    refine .inl (state_of_update hst ?_)
    simp only [Group.initDoneState]
    split <;> simp
  case popNone | handledYield | tdExit0 | exitExit0 =>
    exact .inl (state_of_update hst (by simp))
  case popSome | handlerReturn | reset | tdFreeCur | tdPopSome =>
    exact .inl (state_of_update hst id)
  all_goals exact .inl hst

/-- Every step of a group keeps this. -/
theorem ExitedPast.step (hpast : ExitedPast c G)
    (h : GroupStep c G events G') : ExitedPast c G' := by
  intro i hreg hst
  cases h with
  | work hfixed h =>
      rcases h.exit1_origin hst with hst | hnew
      · exact h.past_mono (hpast i hreg hst)
      · exact hnew
  | fix hraw =>
      obtain ⟨hi, hentry⟩ := hreg
      simp only [Group.loadFixState_table, if_pos hi, Group.loadState] at hst
      split at hst
      · simp_all
      · split at hst <;> cases hst
  | push hfixed hregj h =>
      obtain ⟨hexit0, htable, hworker, -⟩ := Group.pushMsg_some h
      rw [htable] at hst
      rw [hworker]
      refine hpast i hreg (state_of_update hst ?_)
      simp only [Group.pushedState]
      split <;> simp
  | resume hregj h =>
      obtain ⟨hyield, rfl⟩ := Group.resumeService_some h
      exact hpast i hreg (state_of_update hst (by simp))
  | post => exact hpast i hreg hst
  | purgeQueued hj hworker hq =>
      exact hpast i hreg (state_of_update hst id)
  | purgeCurrent hj hworker hcur =>
      exact hpast i hreg (state_of_update hst id)

theorem ExitedPast.ofRun {tr : List GroupEvent} (h : GroupRun c tr G) :
    ExitedPast c G :=
  h.preserved (initial c) fun _ _ _ hpast hstep => hpast.step hstep


/-! ## Every step of the group is a move of the life cycle, or none -/

@[simp] theorem lifeStage_handlerPc (ph : Phase) (fn : Option Fn) :
    lifeStage i S (handlerPc ph j fn) = S.state.stage := by
  cases fn <;> rfl

variable {optional : Prop}

/-- The life cycle does not notice. -/
theorem lifecycle_quiet (hevents : events.filterMap (lifecycleEvent i) = [])
    (hstage : G'.lifeStage i = G.lifeStage i) :
    Run (CallbackLifecycle.Step optional) (G.lifeStage i)
      (events.filterMap (lifecycleEvent i)) (G'.lifeStage i) := by
  rw [hevents, hstage]
  exact .refl

/-- The life cycle makes the one move the step shows. -/
theorem lifecycle_moves {e : CallbackLifecycle.Event} {st st' : Stage}
    (hevents : events.filterMap (lifecycleEvent i) = [e])
    (hstep : CallbackLifecycle.Step optional st [e] st')
    (hstage : G.lifeStage i = st) (hstage' : G'.lifeStage i = st') :
    Run (CallbackLifecycle.Step optional) (G.lifeStage i)
      (events.filterMap (lifecycleEvent i)) (G'.lifeStage i) := by
  rw [hevents, hstage, hstage']
  exact Run.single hstep

/-- A service that the worker is about to exit was initialised, or may be
exited without. -/
theorem Sound.stage_before_exit (hs : Sound c pc i S)
    (hearly : pc.early = false) (hawaits : pc.awaits i = false)
    (hexiting : pc.exiting i = false) (hst : S.state ≠ .exit1) :
    S.state.stage = .ready ∨
      (S.state.stage = .fresh ∧ (c.row i).lazyload = true) := by
  cases hstate : S.state with
  | init0 => exact absurd (hs.raw hstate).1 (by simp [hearly])
  | init1 =>
      refine .inr ⟨rfl, ?_⟩
      by_contra hlazy
      have hwait := (hs.waiting hstate).2 (.inr (by simpa using hlazy))
      simp [hawaits] at hwait
  | init2 => exact .inr ⟨rfl, (hs.lazy hstate).1⟩
  | idle | busy | yield => exact .inl rfl
  | exit0 => exact absurd (hs.leaving hstate) (by simp [hexiting])
  | exit1 => exact absurd hstate hst

/-- The worker calls the callbacks as the protocol allows. -/
theorem WorkerTrans.lifecycle (inv : GroupInv c G) (hpast : ExitedPast c G)
    (h : WorkerTrans c e G o G' events) (hreg : c.Registered i) :
    Run (CallbackLifecycle.Step ((c.row i).lazyload = true)) (G.lifeStage i)
      (events.filterMap (lifecycleEvent i)) (G'.lifeStage i) := by
  have hs := inv.sound i hreg.1
  cases h
  case enterOk h _ | enterFail h _ | startWait h _ | startGo h _
    | startWake h _ | startNotBusy h _ | startBusy h _ | scanSkip h _ _
    | scanEnd h _ | readySome h _ | loopGo h _ | loopBusyEnd h _
    | loopTeardownEnd h _ | pickNone h _ | pickSome h _ | pend h _
    | tryPend h | handleGo h _ | dispatchPop h _ _ | beforeDrop h _ _ _
    | handledFinish h _ _ | yieldDone h _ | afterDone h _ | tdEnter h _
    | tdPass h _ | tdSkip h _ _ | tdEnd h _ | tdAnswer h _ _ _ | tdNoAnswer h _ _
    | tdSent h _ | tdFreeQueued h | tdPopNone h _ | exitEnd h | exitSkip h _ =>
    refine lifecycle_quiet rfl ?_
    simp only [Group.lifeStage, h]
    rfl
  case readyNone n h _ =>
    refine lifecycle_quiet (by split <;> rfl) ?_
    simp only [Group.lifeStage, h]
    rfl
  case scanInit k counter h _ hst | handleInit k h hst =>
    by_cases hk : k = i
    · subst hk
      exact lifecycle_moves (by simp [lifecycleEvent]) .initStart
        (by simp [Group.lifeStage, h, lifeStage, hst, ServiceState.stage])
        (by simp [Group.lifeStage, lifeStage])
    · refine lifecycle_quiet (by simp [lifecycleEvent, hk]) ?_
      simp [Group.lifeStage, h, lifeStage, hk]
  case initDone k caller h hcall hyield =>
    by_cases hk : k = i
    · subst hk
      refine lifecycle_moves (by simp [lifecycleEvent]) .initDone
        (by simp [Group.lifeStage, h, lifeStage]) ?_
      cases caller <;> simp only [Group.lifeStage, afterInit, lifeStage,
        Group.goto_worker, Group.goto_table, Group.finishServiceInit_table,
        Function.update_self, Group.initDoneState] <;> split <;> rfl
    · refine lifecycle_quiet (by simp [lifecycleEvent, hk]) ?_
      cases caller <;> simp [Group.lifeStage, h, lifeStage, afterInit, hk,
        Ne.symm hk]
  case dispatchReenter ph k r fn h hst hcur hfn =>
    by_cases hk : k = i
    · subst hk
      exact lifecycle_moves (by simp [lifecycleEvent]) .handle
        (by simp [Group.lifeStage, h, lifeStage, hst, ServiceState.stage])
        (by simp [Group.lifeStage, hst, ServiceState.stage])
    · refine lifecycle_quiet (by simp [lifecycleEvent, hk]) ?_
      simp only [Group.lifeStage, h, Group.goto_worker, Group.goto_table,
        lifeStage_handlerPc]
      rfl
  case beforeStart ph k r fn h hcur hcall hret hfn =>
    rw [h] at hs
    by_cases hk : k = i
    · subst hk
      have hst := (hs.holds rfl).1
      exact lifecycle_moves (by simp [lifecycleEvent]) .handle
        (by simp [Group.lifeStage, h, lifeStage, hst, ServiceState.stage])
        (by simp [Group.lifeStage, hst, ServiceState.stage])
    · refine lifecycle_quiet (by simp [lifecycleEvent, hk]) ?_
      simp only [Group.lifeStage, h, Group.goto_worker, Group.goto_table,
        lifeStage_handlerPc]
      rfl
  case popNone ph k h hq =>
    rw [h] at hs
    refine lifecycle_quiet rfl ?_
    by_cases hk : i = k
    · subst hk
      simp [Group.lifeStage, h, lifeStage, (hs.holds rfl).1,
        ServiceState.stage]
    · simp [Group.lifeStage, h, lifeStage, hk]
  case handledYield ph k r h hcur hcc =>
    rw [h] at hs
    refine lifecycle_quiet rfl ?_
    by_cases hk : i = k
    · subst hk
      simp [Group.lifeStage, h, lifeStage, (hs.holds rfl).1,
        ServiceState.stage]
    · simp [Group.lifeStage, h, lifeStage, hk]
  case tdSetExit1 k h =>
    rw [h] at hs
    refine lifecycle_quiet rfl ?_
    by_cases hk : i = k
    · subst hk
      simp [Group.lifeStage, h, lifeStage, (hs.holds rfl).1,
        ServiceState.stage]
    · simp [Group.lifeStage, h, lifeStage, hk]
  case popSome k _ _ h _ | handlerReturn k h _ | reset k _ h _
    | tdFreeCur k _ h | tdPopSome k _ _ h _ =>
    refine lifecycle_quiet rfl ?_
    by_cases hk : i = k
    · subst hk
      simp [Group.lifeStage, h, lifeStage]
    · simp [Group.lifeStage, h, lifeStage, hk]
  case tdExit0 k h _ _ | exitExit0 k h _ _ =>
    by_cases hk : k = i
    · subst hk
      have hst : (G.table k).state ≠ .exit1 := by
        intro hst
        have hgone := hpast k hreg hst
        simp_all [Pc.past]
      rw [h] at hs
      have hexit : CallbackLifecycle.Step ((c.row k).lazyload = true)
          (G.lifeStage k) [.exitStart] .exiting := by
        rcases hs.stage_before_exit rfl rfl rfl hst with
          hready | ⟨hfresh, hlazy⟩
        · simpa [Group.lifeStage, h, lifeStage, hready] using
            CallbackLifecycle.Step.exit
        · simpa [Group.lifeStage, h, lifeStage, hfresh] using
            CallbackLifecycle.Step.exitFresh hlazy
      exact lifecycle_moves (by simp [lifecycleEvent]) hexit rfl
        (by simp [Group.lifeStage, lifeStage])
    · refine lifecycle_quiet (by simp [lifecycleEvent, hk]) ?_
      simp [Group.lifeStage, h, lifeStage, hk, Ne.symm hk]
  case tdExitedIdle k h _ _ | tdExitedCur k _ h _ _ =>
    rw [h] at hs
    by_cases hk : k = i
    · subst hk
      have hst := hs.holds rfl
      exact lifecycle_moves (by simp [List.filterMap_cons, lifecycleEvent])
        .exitDone (by simp [Group.lifeStage, h, lifeStage])
        (by simp [Group.lifeStage, lifeStage, hst, ServiceState.stage])
    · refine lifecycle_quiet
        (by simp [List.filterMap_cons, lifecycleEvent, hk]) ?_
      simp [Group.lifeStage, h, lifeStage, hk]
  case exitExit1 k h hcall =>
    by_cases hk : k = i
    · subst hk
      exact lifecycle_moves (by simp [lifecycleEvent]) .exitDone
        (by simp [Group.lifeStage, h, lifeStage])
        (by simp [Group.lifeStage, lifeStage, ServiceState.stage])
    · refine lifecycle_quiet (by simp [lifecycleEvent, hk]) ?_
      simp [Group.lifeStage, h, lifeStage, hk, Ne.symm hk]

/-- Every step of a group is a run of the life cycle of each service. -/
theorem GroupStep.lifecycle (inv : GroupInv c G) (hpast : ExitedPast c G)
    (h : GroupStep c G events G') (hreg : c.Registered i) :
    Run (CallbackLifecycle.Step ((c.row i).lazyload = true)) (G.lifeStage i)
      (events.filterMap (lifecycleEvent i)) (G'.lifeStage i) := by
  have hs := inv.sound i hreg.1
  cases h with
  | work hfixed h => exact h.lifecycle inv hpast hreg
  | fix hraw =>
      have hst := hraw i hreg.1
      have hearly := (hs.raw hst).1
      have hstage : ∀ S, lifeStage i S G.worker = S.state.stage := by
        cases hpc : G.worker <;> simp_all [Pc.early, lifeStage]
      refine lifecycle_quiet rfl ?_
      simp only [Group.lifeStage, Group.loadFixState_worker, hstage,
        Group.loadFixState_table, if_pos hreg.1, hst, Group.loadState]
      have hentry : (c.row i).entry.isNone = false := by
        simpa using hreg.2
      rw [if_neg (by simp [hentry])]
      split <;> rfl
  | @push _ j r hfixed hregj h =>
      obtain ⟨-, htable, hworker, -⟩ := Group.pushMsg_some h
      refine lifecycle_quiet rfl ?_
      by_cases hj : i = j
      · subst hj
        have hstage : (Group.pushedState (G.table i).state).stage =
            (G.table i).state.stage := by
          cases (G.table i).state <;> rfl
        simp only [Group.lifeStage, htable, hworker, Function.update_self]
        cases G.worker <;> simp only [lifeStage, hstage]
      · simp [Group.lifeStage, htable, hworker, hj]
  | @resume _ j hregj h =>
      obtain ⟨hyield, rfl⟩ := Group.resumeService_some h
      refine lifecycle_quiet rfl ?_
      by_cases hj : i = j
      · subst hj
        have hstage : ServiceState.stage .busy = (G.table i).state.stage := by
          rw [hyield]
          rfl
        simp only [Group.lifeStage, Group.setState_table,
          Group.setState_worker, Function.update_self]
        cases G.worker <;> simp only [lifeStage, hstage]
      · simp [Group.lifeStage, hj]
  | post => exact lifecycle_quiet rfl rfl
  | @purgeQueued j r rest site hj hworker hq =>
      refine lifecycle_quiet rfl ?_
      by_cases hij : i = j
      · subst hij
        simp [Group.lifeStage, hworker, lifeStage]
      · simp [Group.lifeStage, hij]
  | @purgeCurrent j r site hj hworker hcur =>
      refine lifecycle_quiet rfl ?_
      by_cases hij : i = j
      · subst hij
        simp [Group.lifeStage, hworker, lifeStage]
      · simp [Group.lifeStage, hij]

/-- **Refinement.**  What a run of a group shows of one registered service is a
history of the life cycle, and it leads to the stage the service now is in. -/
theorem GroupRun.lifecycle {tr : List GroupEvent} (h : GroupRun c tr G)
    (hreg : c.Registered i) :
    CallbackLifecycle.History ((c.row i).lazyload = true)
      (tr.filterMap (lifecycleEvent i)) (G.lifeStage i) :=
  Run.project (Group.lifeStage · i) (lifecycleEvent i) h
    fun _ _ _ _ hrun hstep =>
      hstep.lifecycle (GroupInv.ofRun hrun) (ExitedPast.ofRun hrun) hreg

end Core
end Eaf
