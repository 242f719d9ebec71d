import Eaf.System.Phases
import Eaf.Guarantees.Loading

/-!
# A busy service has a worker

After start-up, while the context is busy, a group with a busy service has a
worker that has not returned, provided that each worker initialised a service
of its group during its initial scan, or had none to serve.  A worker that
finds only lazily loaded services returns instead, and the requests which
these accept later are never handled.
-/

namespace Eaf
namespace Core

variable {L : Layout} {s s' : Sys} {g : Nat} {t : Tid} {tr : List Event}
  {c : GroupTable} {e : Env} {G G' : Group} {o : Outcome}
  {gevents : List GroupEvent}

/-- A service of the group has been initialised, or none is registered. -/
def Group.SomeReady (c : GroupTable) (G : Group) : Prop :=
  (∀ i < c.size, ¬ c.Registered i) ∨
    ∃ i < c.size, c.Registered i ∧ (G.table i).state.stage ≠ .fresh

instance (c : GroupTable) (G : Group) : Decidable (G.SomeReady c) :=
  inferInstanceAs (Decidable (_ ∨ _))

/-- Schedules in which every worker has initialised a service when its initial
scan is over, or has none to serve. -/
def initialisesSome (L : Layout) (s : Sys) : Act → Prop
  | .worker g _ =>
      match (s.group g).worker with
      | .postReady _ => (s.group g).SomeReady (L.conf g)
      | _ => True
  | a => serial L s a

/-- The worker is about to post `ready`. -/
def Pc.postsReady : Pc → Bool
  | .postReady _ => true
  | _ => false

theorem initialisesSome_worker {L : Layout} {s : Sys} {g : Nat} {o : Outcome} :
    initialisesSome L s (.worker g o) ↔
      ((s.group g).worker.postsReady = false ∨
        (s.group g).SomeReady (L.conf g)) := by
  unfold initialisesSome
  cases hworker : (s.group g).worker <;> simp [Pc.postsReady, hworker]

instance (L : Layout) (s : Sys) : ∀ a, Decidable (initialisesSome L s a)
  | .worker _ _ => decidable_of_iff _ initialisesSome_worker.symm
  | .call t o => inferInstanceAs (Decidable (serial L s (.call t o)))
  | .enter t q => inferInstanceAs (Decidable (serial L s (.enter t q)))
  | .user op => inferInstanceAs (Decidable (serial L s (.user op)))

theorem Trace.ofInitialisesSome (h : Trace L (initialisesSome L) tr s) :
    Trace L (serial L) tr s := by
  refine h.weaken fun s a hok => ?_
  cases a with
  | worker g o => trivial
  | _ => exact hok

/-- The one way to return for want of a service. -/
theorem WorkerTrans.noService_origin (h : WorkerTrans c e G o G' gevents)
    (hret : G'.worker = .returned .noService) :
    ∃ n, G.worker = .postReady n ∧ n ≤ 0 := by
  cases h
  case readyNone n h hn => exact ⟨n, h, hn⟩
  case initDone idx caller h _ _ => cases caller <;> cases hret
  case dispatchReenter fn _ _ _ _ | beforeStart fn _ _ _ _ _ =>
    cases fn <;> cases hret
  all_goals cases hret

/-- A worker that counted no initialisation has initialised nothing. -/
theorem GroupInv.none_registered (inv : GroupInv c G) {n : Int}
    (hpc : G.worker = .postReady n) (hn : n ≤ 0) (hsome : G.SomeReady c) :
    ∀ i < c.size, ¬ c.Registered i := by
  refine hsome.resolve_right ?_
  rintro ⟨i, hi, hreg, hstage⟩
  have hcounted := inv.counted
  have hfresh := (inv.sound i hi).fresh
  rw [hpc] at hcounted hfresh
  have hzero : n = 0 := Int.le_antisymm hn hcounted
  rcases hfresh (by simp [Pc.untouched, hzero]) hreg with hst | hst | hst <;>
    simp [hst, ServiceState.stage] at hstage

/-- Under these schedules a worker returns for want of a service only when its
group has none. -/
theorem Trace.noService (h : Trace L (initialisesSome L) tr s)
    (hret : (s.group g).worker = .returned .noService) :
    ∀ i < (L.conf g).size, ¬ (L.conf g).Registered i := by
  suffices (s.group g).worker = .returned .noService →
      ∀ i < (L.conf g).size, ¬ (L.conf g).Registered i from this hret
  clear hret
  refine Trace.byTrans (P := fun _ s => (s.group g).worker =
    .returned .noService → ∀ i < (L.conf g).size, ¬ (L.conf g).Registered i) h
    (fun hret => by cases hret) ?_
  intro tr s a events s' hrun ih hok hstep hret
  cases hstep with
  | @worker k o G gevents hk hw =>
      rw [Sys.emitAll_group, Sys.setGroup_group] at hret
      by_cases hgk : g = k
      · subst hgk
        rw [Function.update_self] at hret
        obtain ⟨n, hpc, hn⟩ := hw.noService_origin hret
        have hsome : (s.group g).SomeReady (L.conf g) := by
          simpa [initialisesSome, hpc] using hok
        exact (GroupInv.ofRun hrun.ofInitialisesSome.groupRun).none_registered
          hpc hn hsome
      · rw [Function.update_of_ne hgk] at hret
        exact ih hret
  | call hlive hc => exact ih (by rw [← hc.worker_eq]; exact hret)
  | enter he => exact ih (by rw [← he.group_eq]; exact hret)
  | user hu => exact ih (by rw [← hu.group_eq]; exact hret)

/-- **A busy service has a worker.**  When `eaf_load` has succeeded and the
context is busy, the worker of a group with a service on `busy_list` has not
returned, in every run in which no worker with services to serve ends its
initial scan without having initialised one. -/
theorem worker_present (L : Layout) (h : Trace L (initialisesSome L) tr s)
    (hloaded : .ret t .load Errno.success ∈ tr) (hctx : s.ctx = .busy)
    (g : Nat) (hbusy : (s.group g).busyList ≠ []) (site : ReturnSite) :
    (s.group g).worker ≠ .returned site := by
  intro hret
  have hserial := h.ofInitialisesSome
  have inv : GroupInv (L.conf g) (s.group g) :=
    GroupInv.ofRun hserial.groupRun
  obtain ⟨i, hi⟩ := List.exists_mem_of_ne_nil _ hbusy
  obtain ⟨hsize, hstate⟩ := (inv.lists.mem_busy i).mp hi
  have hg := Layout.lt_size_of_lt hsize
  cases site with
  | storage | notBusy =>
      have hposted := hserial.posted_of_loaded hloaded hg
      rw [hret] at hposted
      cases hposted
  | noService =>
      -- a group without registered services has none on `busy_list`
      rcases ((inv.sound i hsize).dead (h.noService hret i hsize)).1 with
        hst | hst <;> simp [hst, ServiceState.onBusyList] at hstate
  | finished =>
      have hclosing := hserial.late hg (by rw [hret]; rfl)
      rw [hctx] at hclosing
      cases hclosing

/-- The worker of a group with an ordinary service is there when a request has
reached the lazily loaded one. -/
theorem worker_present_lazy :
    ∃ tr s, Trace lazyPair (initialisesSome lazyPair) tr s ∧
      (s.group 0).busyList = [0] ∧
      ∀ site, (s.group 0).worker ≠ .returned site := by
  obtain ⟨tr, s, hrun, hcheck⟩ :=
    exists_trace lazyPair (initialisesSome lazyPair) lazyPairRequest
      (fun o => decide (.ret (.client 0) .load Errno.success ∈ o.2 ∧
        o.1.ctx = .busy ∧ (o.1.group 0).busyList = [0])) (by decide +kernel)
  obtain ⟨hloaded, hctx, hbusy⟩ := of_decide_eq_true hcheck
  have hne : (s.group 0).busyList ≠ [] := fun hnil => by
    cases hbusy.symm.trans hnil
  exact ⟨tr, s, hrun, hbusy, worker_present lazyPair hrun hloaded hctx 0 hne⟩

/-- A group whose only service is loaded lazily. -/
def lazyOnly : Layout where
  group := [⟨[⟨1, 2, attributeLazyload, some ⟨[⟨5, 7⟩]⟩⟩]⟩]
  clients := 2

/-- `eaf_load`, while the worker returns, and a request to the service. -/
def lazyOnlyRequest : List Act :=
  workerSteps 0 1 ++ [.enter (.client 0) .load] ++ clientSteps 0 7 ++
    workerSteps 0 5 ++ clientSteps 0 3 ++
    [.user (.createReq 5 0 0),
      .enter (.client 1) (.send ⟨.req, 9, 1, 0, false⟩)] ++ clientSteps 1 8

/-- The request is accepted, but no worker is left to handle it. -/
theorem accepted_without_worker :
    ∃ tr s, Trace lazyOnly (serial lazyOnly) tr s ∧
      .ret (.client 0) .load Errno.success ∈ tr ∧
      .ret (.client 1) .sendReq Errno.success ∈ tr ∧ s.ctx = .busy ∧
      (s.group 0).busyList = [0] ∧
      (s.group 0).worker = .returned .noService := by
  obtain ⟨tr, s, hrun, hcheck⟩ :=
    exists_trace lazyOnly (serial lazyOnly) lazyOnlyRequest
      (fun o => decide (.ret (.client 0) .load Errno.success ∈ o.2 ∧
        .ret (.client 1) .sendReq Errno.success ∈ o.2 ∧ o.1.ctx = .busy ∧
        (o.1.group 0).busyList = [0] ∧
        (o.1.group 0).worker = .returned .noService)) (by decide +kernel)
  exact ⟨tr, s, hrun, of_decide_eq_true hcheck⟩

end Core
end Eaf
