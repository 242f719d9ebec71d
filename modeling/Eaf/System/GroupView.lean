import Eaf.System.Effects
import Eaf.Group.MessageHandling
import Eaf.Group.CallbackOrder

/-!
# Every group of a running system runs its protocol

The loader turns the system from `Starting`, where workers wait and the
service states are being fixed group by group, into `Started`, where every
service has a state and the context has left `init` for good.  Under this
order of events every step of the system is, for each of its groups, a step
of `GroupStep` or nothing at all, so what holds in every run of a group holds
in every run of the system.
-/

namespace Eaf
namespace Core

open LabelledRun

variable {L : Layout} {s s' : Sys} {g k : Nat} {t : Tid} {a : Act}
  {events : List Event}

/-! ## Before and after the loader -/

namespace Call

/-- How many groups a call of `eaf_load` has fixed. -/
def fixed (L : Layout) : Call → Nat
  | .loadFix k => k
  | .loadWrite => L.size
  | _ => 0

/-- The call is inside `eaf_load`, before its store of the context state. -/
def loading : Call → Bool
  | .loadHook | .loadFix _ | .loadWrite => true
  | _ => false

theorem fixed_of_not_ofMain {c : Call} (h : c.ofMain = false) :
    c.fixed L = 0 := by
  cases c <;> simp_all [ofMain, fixed]

theorem loading_ofMain {c : Call} (h : c.loading = true) :
    c.ofMain = true := by
  cases c <;> simp_all [ofMain, loading]

/-- A send that has passed the test of the context state. -/
def sending : Call → Bool
  | .sendHook _ | .sendFind _ | .pushTest _ _ _ _ | .pushAlloc _ _ _ _
  | .pushLock _ _ _ _ | .pushRevert _ _ | .pushPost _ _ | .sendAfter _ _ => true
  | _ => false

end Call

/-- The loader has not made the context busy. -/
structure Starting (L : Layout) (s : Sys) : Prop where
  ctx : s.ctx ≠ .busy
  early : ∀ g < L.size, (s.group g).worker.early = true
  quiet : ∀ t, (s.call t).sending = false
  raw : ∀ g < L.size, (∀ t, (s.call t).fixed L ≤ g) →
    (s.group g).Raw (L.conf g)
  fixed : ∀ g < L.size, ∀ t, g < (s.call t).fixed L →
    (s.group g).Fixed (L.conf g)

/-- The loader has fixed all groups and made the context busy. -/
structure Started (L : Layout) (s : Sys) : Prop where
  ctx : s.ctx ≠ .init
  done : ∀ t, (s.call t).loading = false
  fixed : ∀ g < L.size, (s.group g).Fixed (L.conf g)

/-- One of the two holds at any time. -/
def LoadOrder (L : Layout) (s : Sys) : Prop := Starting L s ∨ Started L s

/-- What the groups may rely on. -/
structure Guards (L : Layout) (s : Sys) : Prop where
  calls : CallFacts L s
  busy : s.ctx = .busy → ∀ g < L.size, (s.group g).Fixed (L.conf g)
  sending : ∀ t, (s.call t).sending = true →
    ∀ g < L.size, (s.group g).Fixed (L.conf g)
  fixing : ∀ t k, s.call t = .loadFix k → k < L.size →
    (s.group k).Raw (L.conf k)

theorem LoadOrder.guards (h : LoadOrder L s) (calls : CallFacts L s) :
    Guards L s := by
  refine ⟨calls, ?_, ?_, ?_⟩
  · rcases h with h | h
    · exact fun hctx => absurd hctx h.ctx
    · exact fun _ => h.fixed
  · rcases h with h | h
    · intro t hsend
      rw [h.quiet t] at hsend
      cases hsend
    · exact fun _ _ => h.fixed
  · intro t k hc hk
    rcases h with h | h
    · refine h.raw k hk fun t' => ?_
      by_cases ht : t' = t
      · rw [ht, hc]
        exact Nat.le_refl k
      · -- no other thread is loading
        have hmain : (s.call t').ofMain = false := by
          by_contra hmain
          exact ht (calls.serial t t' (by rw [hc]; rfl) (by simpa using hmain))
        rw [Call.fixed_of_not_ofMain hmain]
        exact Nat.zero_le k
    · have hdone := h.done t
      rw [hc] at hdone
      cases hdone

/-! ## The view of one group -/

/-- The events of group `g`. -/
def groupEvent (g : Nat) : Event → Option GroupEvent
  | .group k e => if k = g then some e else none
  | .enter _ _ | .ret _ _ _ => none

@[simp] theorem filterMap_groupEvent_self (gevents : List GroupEvent) :
    (gevents.map (Event.group g)).filterMap (groupEvent g) = gevents := by
  induction gevents with
  | nil => rfl
  | cons e rest ih => simp [groupEvent, ih]

theorem filterMap_groupEvent_of_ne (hk : k ≠ g) (gevents : List GroupEvent) :
    (gevents.map (Event.group k)).filterMap (groupEvent g) = [] := by
  induction gevents with
  | nil => rfl
  | cons e rest ih => simp [groupEvent, hk, ih]

/-- The group neither moves nor shows anything. -/
theorem group_stays (hevents : events.filterMap (groupEvent g) = [])
    (hgroup : s'.group g = s.group g) :
    Run (GroupStep (L.conf g)) (s.group g) (events.filterMap (groupEvent g))
      (s'.group g) := by
  rw [hevents, hgroup]
  exact .refl

/-- One group moves; the others neither move nor show anything. -/
theorem group_moves {G : Group} {gevents : List GroupEvent}
    (hevents : events = gevents.map (Event.group k))
    (hgroup : s'.group = Function.update s.group k G)
    (hstep : GroupStep (L.conf k) (s.group k) gevents G) :
    Run (GroupStep (L.conf g)) (s.group g) (events.filterMap (groupEvent g))
      (s'.group g) := by
  subst hevents
  by_cases hk : k = g
  · subst hk
    rw [filterMap_groupEvent_self, hgroup, Function.update_self]
    exact Run.single hstep
  · exact group_stays (filterMap_groupEvent_of_ne hk _)
      (by rw [hgroup, Function.update_of_ne (Ne.symm hk)])

/-- One group makes a move that shows nothing. -/
theorem group_moves_silently {G : Group}
    (hevents : events.filterMap (groupEvent g) = [])
    (hgroup : s'.group = Function.update s.group k G)
    (hstep : GroupStep (L.conf k) (s.group k) [] G) :
    Run (GroupStep (L.conf g)) (s.group g) (events.filterMap (groupEvent g))
      (s'.group g) := by
  by_cases hk : k = g
  · subst hk
    rw [hevents, hgroup, Function.update_self]
    exact Run.single hstep
  · exact group_stays hevents
      (by rw [hgroup, Function.update_of_ne (Ne.symm hk)])

/-- A step of a call does to a group what the protocol of the group allows. -/
theorem CallTrans.group (h : CallTrans L s t events s') (guards : Guards L s) :
    Run (GroupStep (L.conf g)) (s.group g) (events.filterMap (groupEvent g))
      (s'.group g) := by
  have hplaced := guards.calls.placed t
  cases h
  case pushAccepted b k i r G h hpush =>
    rw [h] at hplaced
    obtain ⟨hk, hreg, -⟩ := hplaced
    exact group_moves rfl rfl
      (.push (guards.sending t (by rw [h]; rfl) k hk) hreg hpush)
  case resumeAccepted k i G h hresume =>
    rw [h] at hplaced
    exact group_moves rfl rfl (.resume hplaced.2 hresume)
  case pushPosted | resumePosted | exitPosted | loadPosted =>
    exact group_moves_silently rfl rfl .post
  case loadFixed k h hk =>
    exact group_moves_silently rfl rfl (.fix (guards.fixing t k h hk))
  case cleanQueued k i r rest h hi hq =>
    obtain ⟨site, hsite⟩ := guards.calls.joined t k i h
    exact group_moves rfl rfl (.purgeQueued hi hsite hq)
  case cleanCurrent k i r h hi hq hcur =>
    obtain ⟨site, hsite⟩ := guards.calls.joined t k i h
    exact group_moves rfl rfl (.purgeCurrent hi hsite hcur)
  all_goals exact group_stays rfl (by simp)

/-- A step of the system is, for each group, a step of its protocol or nothing
at all. -/
theorem SysTrans.group (h : SysTrans L s a events s') (guards : Guards L s) :
    Run (GroupStep (L.conf g)) (s.group g) (events.filterMap (groupEvent g))
      (s'.group g) := by
  cases h with
  | worker hg h =>
      exact group_moves rfl (by simp)
        (.work (fun hctx => guards.busy hctx _ hg) h)
  | call hlive h => exact h.group guards
  | enter h =>
      refine group_stays ?_ (by rw [h.group_eq])
      cases h <;> rfl
  | user h => exact group_stays rfl (by rw [h.group_eq])

/-! ## The loader comes first -/

/-- The worker brings no service back to `init0`. -/
theorem WorkerTrans.fixed {c : GroupTable} {e : Env} {G G' : Group}
    {o : Outcome} {gevents : List GroupEvent}
    (h : WorkerTrans c e G o G' gevents) (hfixed : G.Fixed c) :
    G'.Fixed c := by
  intro i hi hst
  refine hfixed i hi ?_
  cases h
  case initDone idx caller h hcall hyield =>
    simp only [Group.goto_table, Group.finishServiceInit_table,
      Group.setService_table, Function.update_idem] at hst
    refine state_of_update hst ?_
    simp only [Group.initDoneState]
    split <;> simp
  case popNone | handledYield | tdExit0 | tdSetExit1 | exitExit0 | exitExit1 =>
    exact state_of_update hst (by simp)
  case popSome | handlerReturn | reset | tdFreeCur | tdPopSome =>
    exact state_of_update hst id
  all_goals exact hst

/-- The loader gives every service a state. -/
theorem Group.fixed_loadFixState (c : GroupTable) (G : Group) :
    (G.loadFixState c).Fixed c := by
  intro i hi
  simp only [Group.loadFixState_table, if_pos hi, Group.loadState]
  split
  · simp
  · split <;> simp

/-- Fixed services stay fixed. -/
theorem GroupStep.fixed {c : GroupTable} {G G' : Group}
    {gevents : List GroupEvent} (h : GroupStep c G gevents G')
    (hfixed : G.Fixed c) : G'.Fixed c := by
  cases h with
  | work hctx h => exact h.fixed hfixed
  | fix hraw => exact G.fixed_loadFixState c
  | push hfix hreg h =>
      intro i hi hst
      rw [(Group.pushMsg_some h).2.1] at hst
      refine hfixed i hi (state_of_update hst ?_)
      simp only [Group.pushedState]
      split <;> simp
  | resume hreg h =>
      obtain ⟨-, rfl⟩ := Group.resumeService_some h
      exact fun i hi hst => hfixed i hi (state_of_update hst (by simp))
  | post => exact hfixed
  | purgeQueued | purgeCurrent =>
      exact fun i hi hst => hfixed i hi (state_of_update hst id)

/-- Before the context is busy a worker waits, or returns. -/
theorem WorkerTrans.early {c : GroupTable} {e : Env} {G G' : Group}
    {o : Outcome} {gevents : List GroupEvent}
    (h : WorkerTrans c e G o G' gevents) (hctx : e.ctx ≠ .busy)
    (hearly : G.worker.early = true) :
    G'.worker.early = true ∧ G'.table = G.table ∧ gevents = [] := by
  cases h <;> simp_all [Pc.early]

theorem LoadOrder.initial (L : Layout) : LoadOrder L (Sys.initial L) := by
  refine .inl ⟨by simp [Sys.initial], fun _ _ => rfl, fun _ => rfl,
    fun _ _ _ _ _ => rfl, fun _ _ _ hk => ?_⟩
  simp [Sys.initial, Call.fixed] at hk

/-- Every step keeps every group fixed. -/
theorem SysTrans.fixed (h : SysTrans L s a events s') (guards : Guards L s)
    (hfixed : (s.group g).Fixed (L.conf g)) :
    (s'.group g).Fixed (L.conf g) :=
  (h.group guards).preserved (P := Group.Fixed (L.conf g)) hfixed
    fun _ _ _ hfixed hstep => hstep.fixed hfixed

/-- After the loader nothing returns to the time before it. -/
theorem Started.step (h : Started L s) (guards : Guards L s)
    (hstep : SysTrans L s a events s') : Started L s' := by
  refine ⟨?_, ?_, fun g hg => hstep.fixed guards (h.fixed g hg)⟩
  · cases hstep with
    | worker hg hw => simpa using h.ctx
    | call hlive hc =>
        rcases hc.ctx_cases with hctx | ⟨td, reason, -, hctx, -⟩ | ⟨-, hctx, -⟩
        · rw [hctx]
          exact h.ctx
        · rw [hctx]
          cases td <;> simp [Sys.exitState]
        · simp [hctx]
    | enter he => rw [he.ctx_eq]; exact h.ctx
    | user hu => rw [hu.ctx_eq]; exact h.ctx
  · intro t'
    have hdone := h.done t'
    have hctx := h.ctx
    cases hstep with
    | worker hg hw =>
        rcases Sys.emitAll_call (s.setGroup _ _) (t := t') with
          hc | hc | ⟨b, hc⟩ <;> rw [hc]
        · exact hdone
        · rfl
        · rfl
    | @call t o events s' hlive hc =>
        by_cases ht : t' = t
        · subst ht
          cases hc <;> simp_all [Call.loading]
        · rw [hc.call_of_ne ht]
          exact hdone
    | @enter t q events s' he =>
        by_cases ht : t' = t
        · subst ht
          rw [he.call_self]
          cases q <;> rfl
        · rw [he.call_of_ne ht]
          exact hdone
    | user hu => rw [hu.call_eq]; exact hdone

/-- The time before the loader goes on as long as no state is fixed and the
context does not become busy. -/
theorem Starting.of_same (h : Starting L s) (hctx : s'.ctx ≠ .busy)
    (hworker : ∀ g, (s'.group g).worker = (s.group g).worker)
    (hquiet : ∀ t, (s'.call t).sending = false)
    (hstate : ∀ g i, ((s'.group g).table i).state =
      ((s.group g).table i).state)
    (hfixed : ∀ t, (s'.call t).fixed L = (s.call t).fixed L) :
    Starting L s' where
  ctx := hctx
  early g hg := by rw [hworker]; exact h.early g hg
  quiet := hquiet
  raw g hg hk i hi := by
    rw [hstate]
    exact h.raw g hg (fun t => hfixed t ▸ hk t) i hi
  fixed g hg t hk i hi := by
    rw [hstate]
    exact h.fixed g hg t (hfixed t ▸ hk) i hi

/-- A call before the loader's store: no send gets past its first test, and
`eaf_load` fixes one group after the other. -/
theorem Starting.call (h : Starting L s) (calls : CallFacts L s)
    (hc : CallTrans L s t events s') : LoadOrder L s' := by
  have hplaced := calls.placed t
  have hother : ∀ t', t' ≠ t → s'.call t' = s.call t' :=
    fun t' ht => hc.call_of_ne ht
  have hquiet : (s'.call t).sending = false →
      ∀ t', (s'.call t').sending = false := fun hself t' => by
    by_cases ht : t' = t
    · rw [ht]
      exact hself
    · rw [hother t' ht]
      exact h.quiet t'
  have hfixed : (s'.call t).fixed L = (s.call t).fixed L →
      ∀ t', (s'.call t').fixed L = (s.call t').fixed L := fun hself t' => by
    by_cases ht : t' = t
    · rw [ht]
      exact hself
    · rw [hother t' ht]
  have hworker := hc.worker_eq
  have hsending := h.quiet t
  cases hc
  case sendHooked h' | sendVeto h' _ | sendNotFound h' | sendFound h' _
    | pushOverflow h' | pushRoom h' | pushNoMemory h' | pushRecord h'
    | pushRefused h' _ | pushAccepted h' _ | pushReverted h' | pushPosted h'
    | sendDone h' =>
    rw [h'] at hsending
    cases hsending
  case sendAccepted hctx => exact absurd hctx h.ctx
  case loadWritten h' =>
    refine .inr ⟨by simp, fun t' => ?_, fun g hg => ?_⟩
    · by_cases ht : t' = t
      · simp [ht, Call.loading]
      · rw [hother t' ht]
        by_contra hload
        exact ht (calls.serial t t' (by rw [h']; rfl)
          (Call.loading_ofMain (by simpa using hload)))
    · exact h.fixed g hg t (by rw [h']; exact hg)
  case loadFixed k h' hk =>
    refine .inl ⟨h.ctx, fun g hg => by rw [hworker]; exact h.early g hg,
      hquiet (by simp [Call.sending]), fun g hg hkg => ?_,
      fun g hg t' hgk => ?_⟩
    · have hkt := hkg t
      simp only [Sys.setCall_call, Function.update_self, Call.fixed] at hkt
      have hne : g ≠ k := by omega
      suffices hraw : (s.group g).Raw (L.conf g) by simpa [hne] using hraw
      refine h.raw g hg fun t' => ?_
      by_cases ht : t' = t
      · rw [ht, h']
        exact Nat.le_of_succ_le hkt
      · rw [← hother t' ht]
        exact hkg t'
    · by_cases hne : g = k
      · subst hne
        simpa using (s.group g).fixed_loadFixState (L.conf g)
      · have hold : g < (s.call t').fixed L := by
          by_cases ht : t' = t
          · subst ht
            simp only [Sys.setCall_call, Function.update_self,
              Call.fixed] at hgk
            rw [h']
            simp only [Call.fixed]
            omega
          · rw [← hother t' ht]
            exact hgk
        simpa [hne] using h.fixed g hg t' hold
  case loadAllFixed k h' hk =>
    refine .inl ⟨h.ctx, h.early, hquiet (by simp [Call.sending]),
      fun g hg hkg => ?_, fun g hg _ _ =>
        h.fixed g hg t (by rw [h']; simp only [Call.fixed]; omega)⟩
    have hkt := hkg t
    simp only [Sys.setCall_call, Function.update_self, Call.fixed] at hkt
    omega
  case resumeAccepted k i G h' hresume =>
    -- a group before its fixing has no yielded service
    rw [h'] at hplaced
    obtain ⟨hk, hi, -⟩ := hplaced
    obtain ⟨hyield, rfl⟩ := Group.resumeService_some hresume
    have hsame := hfixed (by simp [h', Call.fixed])
    refine .inl ⟨h.ctx, fun g hg => by rw [hworker]; exact h.early g hg,
      hquiet (by simp [Call.sending]), fun g hg hkg => ?_,
      fun g hg t' hgk => ?_⟩
    · have hraw := h.raw g hg fun t' => hsame t' ▸ hkg t'
      have hne : g ≠ k := by
        rintro rfl
        have hst := hraw i hi
        rw [hyield] at hst
        cases hst
      simpa [hne] using hraw
    · have hfix := h.fixed g hg t' (hsame t' ▸ hgk)
      by_cases hne : g = k
      · subst hne
        simp only [Sys.setCall_group, Sys.setGroup_group, Function.update_self]
        exact fun j hj hst => hfix j hj (state_of_update hst (by simp))
      · simpa [hne] using hfix
  case resumePosted k _ | exitPosted k _ _ | loadPosted k _ _ =>
    refine .inl (h.of_same h.ctx hworker (hquiet (by simp [Call.sending]))
      (fun g j => ?_) (hfixed (by simp_all [Call.fixed])))
    by_cases hg : g = k
    · simp [hg]
    · simp [hg]
  case cleanQueued k i _ _ _ _ _ | cleanCurrent k i _ _ _ _ _ =>
    refine .inl (h.of_same h.ctx hworker h.quiet (fun g j => ?_) fun _ => rfl)
    by_cases hg : g = k
    · subst hg
      by_cases hj : j = i
      · simp [hj]
      · simp [hj]
    · simp [hg]
  case exitWritten td reason h' =>
    exact .inl (h.of_same (by cases td <;> simp [Sys.exitState]) hworker
      (hquiet (by simp [Call.sending])) (fun g j => by simp)
      (hfixed (by simp_all [Call.fixed])))
  all_goals
    exact .inl (h.of_same (by simpa using h.ctx) hworker
      (hquiet (by simp [Call.sending])) (fun g j => by simp)
      (hfixed (by simp_all [Call.fixed])))

/-- Before the loader's store the system stays as it is, and the store ends
this time. -/
theorem Starting.step (h : Starting L s) (calls : CallFacts L s)
    (hstep : SysTrans L s a events s') : LoadOrder L s' := by
  cases hstep with
  | @worker k o G gevents hk hw =>
      obtain ⟨hpc, htable, rfl⟩ := hw.early h.ctx (h.early k hk)
      have htables : ∀ g, (((s.setGroup k G).emitAll L k []).group g).table =
          (s.group g).table := fun g => by
        by_cases hgk : g = k
        · subst hgk
          simpa [Sys.emitAll] using htable
        · simp [Sys.emitAll, hgk]
      refine .inl ⟨h.ctx, fun g hg => ?_, h.quiet, fun g hg hfix i => ?_,
        fun g hg t hfix i => ?_⟩
      · by_cases hgk : g = k
        · subst hgk
          simpa [Sys.emitAll] using hpc
        · simpa [Sys.emitAll, hgk] using h.early g hg
      · rw [htables]
        exact h.raw g hg hfix i
      · rw [htables]
        exact h.fixed g hg t hfix i
  | call hlive hc => exact h.call calls hc
  | @enter t q events s' he =>
      refine .inl (h.of_same (by rw [he.ctx_eq]; exact h.ctx)
        (fun g => by rw [he.group_eq]) (fun t' => ?_)
        (fun g i => by rw [he.group_eq]) fun t' => ?_)
      · by_cases ht : t' = t
        · rw [ht, he.call_self]
          cases q <;> rfl
        · rw [he.call_of_ne ht]
          exact h.quiet t'
      · by_cases ht : t' = t
        · subst ht
          have hfree := he.free
          rw [he.call_self]
          cases hcall : s.call t' <;> simp_all [Call.free] <;>
            cases q <;> rfl
        · rw [he.call_of_ne ht]
  | user hu =>
      exact .inl (h.of_same (by rw [hu.ctx_eq]; exact h.ctx)
        (fun g => by rw [hu.group_eq]) (by rw [hu.call_eq]; exact h.quiet)
        (fun g i => by rw [hu.group_eq]) (fun t => by rw [hu.call_eq]))

/-! ## Runs -/

section Runs

variable {ok ok' : Sys → Act → Prop} {tr : List Event}

/-- Induction along a run of the system, by transitions. -/
theorem Trace.byTrans {P : List Event → Sys → Prop} (h : Trace L ok tr s)
    (hinit : P [] (Sys.initial L))
    (hstep : ∀ tr s a events s', Trace L ok tr s → P tr s → ok s a →
      SysTrans L s a events s' → P (tr ++ events) s') : P tr s := by
  refine h.invariant hinit ?_
  rintro tr s events s' hrun hP ⟨a, hok, hnext⟩
  exact hstep tr s a events s' hrun hP hok (step_trans hnext)

/-- A run under a stricter schedule is a run. -/
theorem Trace.weaken (h : Trace L ok tr s)
    (hok : ∀ s a, ok s a → ok' s a) : Trace L ok' tr s :=
  h.mono fun _ _ _ ⟨a, ha, hnext⟩ => ⟨a, hok _ a ha, hnext⟩

/-- Along every run in which calls of `eaf_load` and `eaf_cleanup` do not
overlap, the groups may rely on their guards. -/
theorem Trace.guards (h : Trace L (serial L) tr s) : Guards L s := by
  have hboth : CallFacts L s ∧ LoadOrder L s := by
    refine Trace.byTrans (P := fun _ s => CallFacts L s ∧ LoadOrder L s) h
      ⟨CallFacts.initial L, LoadOrder.initial L⟩ ?_
    rintro tr s a events s' - ⟨calls, horder⟩ hserial hstep
    refine ⟨calls.step hstep hserial, ?_⟩
    rcases horder with hstart | hstarted
    · exact hstart.step calls hstep
    · exact .inr (hstarted.step (LoadOrder.guards (.inr hstarted) calls) hstep)
  exact hboth.2.guards hboth.1

theorem Trace.order (h : Trace L (serial L) tr s) : LoadOrder L s := by
  refine Trace.byTrans (P := fun _ s => LoadOrder L s) h
    (LoadOrder.initial L) ?_
  intro tr s a events s' hrun horder _ hstep
  rcases horder with hstart | hstarted
  · exact hstart.step hrun.guards.calls hstep
  · exact .inr (hstarted.step hrun.guards hstep)

/-- **Projection.**  What a run of the system shows of one of its groups is a
run of that group. -/
theorem Trace.groupRun (h : Trace L (serial L) tr s) :
    GroupRun (L.conf g) (tr.filterMap (groupEvent g)) (s.group g) := by
  refine Run.project (Sys.group · g) (groupEvent g) h ?_
  rintro tr s events s' hrun ⟨a, -, hnext⟩
  exact (step_trans hnext).group (Trace.guards hrun)

end Runs

end Core
end Eaf
