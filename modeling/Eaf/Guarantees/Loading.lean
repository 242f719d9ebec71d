import Eaf.Guarantees.WakeUp
import Eaf.System.StartUp

/-!
# The workers get ready and `eaf_load` returns

Every worker that gets past its start-up has posted `ready` once, and when
`eaf_load` waits, some worker is still on its way to its post and will not
wait for ever; when `eaf_load` succeeds, every registered service that is not
loaded lazily has been initialised.  Two early returns of `_eaf_thread` miss
the post, so this needs that no worker takes them.
-/

namespace Eaf
namespace Core

open LabelledRun

variable {L : Layout} {s s' : Sys} {g i k : Nat} {t : Tid}
  {tr events : List Event} {c : GroupTable} {e : Env} {G G' : Group}
  {o : Outcome} {gevents gtr : List GroupEvent}

/-- Schedules in which every worker gets its thread storage and finds the
context busy when it has waited for that. -/
def startsCleanly (L : Layout) (s : Sys) : Act → Prop
  | .worker g o =>
      match (s.group g).worker with
      | .enter => o.ok = true
      | .startCheck => s.ctx = .busy
      | _ => True
  | a => serial L s a

theorem startsCleanly_worker : startsCleanly L s (.worker g o) ↔
    ((s.group g).worker = .enter → o.ok = true) ∧
      ((s.group g).worker = .startCheck → s.ctx = .busy) := by
  cases hpc : (s.group g).worker <;> simp [startsCleanly, hpc]

instance (L : Layout) (s : Sys) : (a : Act) → Decidable (startsCleanly L s a)
  | .worker _ _ => decidable_of_iff' _ startsCleanly_worker
  | .call t o => inferInstanceAs (Decidable (serial L s (.call t o)))
  | .enter t q => inferInstanceAs (Decidable (serial L s (.enter t q)))
  | .user op => inferInstanceAs (Decidable (serial L s (.user op)))

theorem Trace.ofStartsCleanly (h : Trace L (startsCleanly L) tr s) :
    Trace L (serial L) tr s := by
  refine h.weaken fun s a hok => ?_
  cases a with
  | worker g o => trivial
  | _ => exact hok

/-! ## The posts of the workers -/

/-- The two returns that miss the post. -/
theorem WorkerTrans.gaveUp_origin (h : WorkerTrans c e G o G' gevents)
    (hpc : G'.worker.gaveUp) :
    (G.worker = .enter ∧ o.ok = false) ∨
      (G.worker = .startCheck ∧ e.ctx ≠ .busy) := by
  cases h
  case enterFail h hok => exact .inl ⟨h, hok⟩
  case startNotBusy h hctx => exact .inr ⟨h, hctx⟩
  case initDone idx caller h _ _ =>
    cases caller <;> simp [Pc.gaveUp, afterInit] at hpc
  case dispatchReenter fn _ _ _ _ | beforeStart fn _ _ _ _ _ =>
    cases fn <;> simp [Pc.gaveUp, handlerPc] at hpc
  all_goals simp [Pc.gaveUp] at hpc

/-- Under these schedules no worker takes them. -/
theorem Trace.not_gaveUp (h : Trace L (startsCleanly L) tr s) (g : Nat) :
    ¬ (s.group g).worker.gaveUp := by
  refine Trace.byTrans (P := fun _ s => ¬ (s.group g).worker.gaveUp) h
    (by simp [Sys.initial, Group.initial, Pc.gaveUp]) ?_
  intro tr s a events s' _ ih hok hstep
  cases hstep with
  | @worker k o G gevents hk hw =>
      rw [Sys.emitAll_group, Sys.setGroup_group]
      by_cases hgk : g = k
      · subst hgk
        rw [Function.update_self]
        intro hpc
        rcases hw.gaveUp_origin hpc with ⟨hold, hfail⟩ | ⟨hold, hctx⟩ <;>
          simp_all [startsCleanly, Sys.env]
      · rwa [Function.update_of_ne hgk]
  | call hlive hc => rw [hc.worker_eq]; exact ih
  | enter he => rw [he.group_eq]; exact ih
  | user hu => rw [hu.group_eq]; exact ih

theorem count_groupEvent (tr : List Event) (g : Nat) (ev : GroupEvent) :
    (tr.filterMap (groupEvent g)).count ev = tr.count (.group g ev) := by
  induction tr with
  | nil => rfl
  | cons e tr ih =>
      cases e with
      | enter | ret => simpa [List.filterMap_cons, groupEvent] using ih
      | group k ev' =>
          by_cases hk : k = g <;>
            simp [List.count_cons, groupEvent, hk, ih]

/-! ## Waiting for the start -/

/-- The call has changed the context state and has yet to post the semaphore
of group `g`. -/
def Call.willStart (g : Nat) : Call → Bool
  | .loadPost k | .exitPost _ k => decide (k ≤ g)
  | _ => false

/-- The worker need not wait for the start, or has a token, or gets one. -/
def Startable (s : Sys) (g : Nat) : Prop :=
  (s.group g).worker = .startPend →
    0 < (s.group g).sem ∨ ∃ t, (s.call t).willStart g = true

theorem CallTrans.willStart (h : CallTrans L s t events s') (hg : g < L.size)
    (hpost : (s.call t).willStart g = true) :
    0 < (s'.group g).sem ∨ (s'.call t).willStart g = true := by
  cases h
  case exitPosted td k h hk | loadPosted k h hk =>
    have hle : k ≤ g := by simpa [h, Call.willStart] using hpost
    by_cases hkg : g = k
    · simp [hkg]
    · right
      simp [Call.willStart]
      omega
  case exitDone td k h hk | loadAllPosted k h hk =>
    have hle : k ≤ g := by simpa [h, Call.willStart] using hpost
    omega
  all_goals simp_all [Call.willStart]

/-- Once the context has left `init`, no worker waits for the start in vain. -/
theorem Trace.startable (h : Trace L (serial L) tr s) (hg : g < L.size)
    (hctx : s.ctx ≠ .init) : Startable s g := by
  suffices s.ctx ≠ .init → Startable s g from this hctx
  clear hctx
  refine Trace.byTrans (P := fun _ s => s.ctx ≠ .init → Startable s g) h
    (fun hctx => absurd rfl hctx) ?_
  intro tr s a events s' hrun ih _ hstep hctx hpc
  cases hstep with
  | @worker k o G gevents hk hw =>
      rw [Sys.emitAll_ctx, Sys.setGroup_ctx] at hctx
      rw [Sys.emitAll_group, Sys.setGroup_group] at hpc ⊢
      by_cases hgk : g = k
      · subst hgk
        rw [Function.update_self] at hpc
        cases hw
        case startWait h hinit => exact absurd hinit hctx
        case initDone idx caller h _ _ => cases caller <;> cases hpc
        case dispatchReenter fn _ _ _ _ | beforeStart fn _ _ _ _ _ =>
          cases fn <;> cases hpc
        all_goals cases hpc
      · rw [Function.update_of_ne hgk] at hpc ⊢
        refine (ih hctx hpc).imp id fun ⟨t, ht⟩ => ⟨t, ?_⟩
        rwa [hrun.call_kept hw]
        cases hcall : s.call t <;> simp_all [Call.free, Call.willStart]
  | @call t o events s' hlive hc =>
      rw [hc.worker_eq] at hpc
      rcases hc.ctx_cases with hsame | ⟨td, reason, -, -, hcall⟩ |
        ⟨-, -, hcall⟩
      · rcases ih (by rwa [← hsame]) hpc with hsem | ⟨t', ht'⟩
        · exact .inl (Nat.lt_of_lt_of_le hsem hc.sem_le)
        · by_cases ht : t' = t
          · subst ht
            exact (hc.willStart hg ht').imp id fun hpost => ⟨t', hpost⟩
          · exact .inr ⟨t', by rwa [hc.call_of_ne ht]⟩
      · exact .inr ⟨t, by simp [hcall, Call.willStart]⟩
      · exact .inr ⟨t, by simp [hcall, Call.willStart]⟩
  | @enter t q events s' he =>
      rw [he.group_eq] at hpc ⊢
      refine (ih (by rwa [← he.ctx_eq]) hpc).imp id fun ⟨t', ht'⟩ => ?_
      refine ⟨t', ?_⟩
      rwa [he.call_of_ne]
      rintro rfl
      have hfree := he.free
      cases hcall : s.call t' <;> simp_all [Call.free, Call.willStart]
  | user hu =>
      rw [hu.group_eq] at hpc ⊢
      rw [hu.call_eq]
      exact ih (by rwa [← hu.ctx_eq]) hpc

/-- While `eaf_load` deals with `ready`, the context has left `init`. -/
theorem Trace.ctx_of_readying {ok : Sys → Act → Prop} (h : Trace L ok tr s)
    (hcall : (s.call t).readying = true) : s.ctx ≠ .init := by
  suffices ∀ t, (s.call t).readying = true → s.ctx ≠ .init from this t hcall
  clear hcall
  refine Trace.byTrans (P := fun _ s => ∀ t, (s.call t).readying = true →
    s.ctx ≠ .init) h (fun _ hcall => by cases hcall) ?_
  intro tr s a events s' _ ih _ hstep t' ht'
  cases hstep with
  | @worker k o G gevents hk hw =>
      rw [Sys.emitAll_ctx]
      rcases Sys.emitAll_call (s.setGroup k G) (t := t') with
        hc | hc | ⟨b, hc⟩ <;> rw [hc] at ht'
      · exact ih t' ht'
      · cases ht'
      · cases ht'
  | @call t o events s' hlive hc =>
      rcases hc.ctx_cases with hsame | ⟨td, reason, -, hctx, -⟩ | ⟨-, hctx, -⟩
      · rw [hsame]
        by_cases ht : t' = t
        · subst ht
          cases hc
          case loadWritten => simp [← hsame]
          all_goals exact ih t' (by simp_all [Call.readying])
        · exact ih t' (by rwa [← hc.call_of_ne ht])
      · rw [hctx]
        cases td <;> simp [Sys.exitState]
      · simp [hctx]
  | @enter t q events s' he =>
      rw [he.ctx_eq]
      by_cases ht : t' = t
      · subst ht
        rw [he.call_self] at ht'
        cases q <;> cases ht'
      · exact ih t' (by rwa [← he.call_of_ne ht])
  | user hu =>
      rw [hu.ctx_eq]
      exact ih t' (by rwa [← hu.call_eq])

/-! ## The initial scan -/

/-- The initial scan is past service `i`. -/
def Pc.scanned (i : Nat) : Pc → Bool
  | .initScan idx _ | .inInit idx (.scan _) => decide (i < idx)
  | .postReady _ => true
  | pc => pc.posted

/-- The initial scan passes a service when it has initialised it, or when it
finds that the service is not in `init1`. -/
theorem WorkerTrans.scanned_origin (h : WorkerTrans c e G o G' gevents)
    (hi : i < c.size) (hpc : G'.worker.scanned i = true) :
    G.worker.scanned i = true ∨ .initDone i ∈ gevents ∨
      ∃ n, G.worker = .initScan i n ∧ (G.table i).state ≠ .init1 := by
  cases h
  case scanSkip idx n h hlt hst =>
    simp only [Pc.scanned, decide_eq_true_eq] at hpc
    by_cases hidx : idx = i
    · subst hidx
      exact .inr (.inr ⟨n, h, hst⟩)
    · left
      rw [h]
      simp only [Pc.scanned, decide_eq_true_eq]
      omega
  case initDone idx caller h hcall hyield =>
    cases caller with
    | loop ph =>
        rw [h]
        exact .inl rfl
    | scan n =>
        simp only [Group.goto_worker, afterInit, Pc.scanned,
          decide_eq_true_eq] at hpc
        by_cases hidx : idx = i
        · subst hidx
          exact .inr (.inl (by simp))
        · left
          rw [h]
          simp only [Pc.scanned, decide_eq_true_eq]
          omega
  case scanEnd idx n h hge =>
    left
    rw [h]
    simp only [Pc.scanned, decide_eq_true_eq]
    omega
  case dispatchReenter h _ _ _ | beforeStart h _ _ _ _ =>
    rw [h]
    exact .inl rfl
  all_goals simp_all [Pc.scanned, Pc.posted, Pc.starting]

theorem GroupStep.scanned_origin (h : GroupStep c G gevents G')
    (hi : i < c.size) (hpc : G'.worker.scanned i = true) :
    G.worker.scanned i = true ∨ .initDone i ∈ gevents ∨
      ∃ n, G.worker = .initScan i n ∧ (G.table i).state ≠ .init1 := by
  cases h with
  | work hfixed h => exact h.scanned_origin hi hpc
  | fix hraw => exact .inl (by simpa using hpc)
  | push hfixed hreg h =>
      exact .inl (by rwa [(Group.pushMsg_some h).2.2.1] at hpc)
  | resume hreg h =>
      obtain ⟨-, rfl⟩ := Group.resumeService_some h
      exact .inl hpc
  | post | purgeQueued | purgeCurrent => exact .inl hpc

/-- A service that need not wait for a request is initialised when the initial
scan has passed it. -/
theorem GroupRun.initDone_of_scanned (h : GroupRun c gtr G)
    (hreg : c.Registered i) (hlazy : (c.row i).lazyload = false)
    (hpc : G.worker.scanned i = true) : .initDone i ∈ gtr := by
  suffices G.worker.scanned i = true → .initDone i ∈ gtr from this hpc
  clear hpc
  refine h.invariant (P := fun gtr G => G.worker.scanned i = true →
    .initDone i ∈ gtr) (fun hpc => by cases hpc) ?_
  intro gtr G gevents G' hrun ih hstep hpc
  rcases hstep.scanned_origin hreg.1 hpc with hold | hdone | ⟨n, hscan, hst⟩
  · exact List.mem_append_left _ (ih hold)
  · exact List.mem_append_right _ hdone
  · -- the service is past its first callback already
    have hs := (GroupInv.ofRun hrun).sound i hreg.1
    have hstage : G.lifeStage i ≠ .fresh ∧ G.lifeStage i ≠ .initialising := by
      simp only [Group.lifeStage, hscan, lifeStage]
      rw [hscan] at hs
      have hraw := hs.raw
      have hlate := hs.lazy
      cases hstate : (G.table i).state <;>
        simp_all [ServiceState.stage, Pc.early]
    have hmem := CallbackLifecycle.initDone_of_past
      (GroupRun.lifecycle hrun hreg) hstage.1 hstage.2 (by simp [hlazy])
    obtain ⟨ev, hev, hview⟩ := List.mem_filterMap.mp hmem
    have hev' : ev = .initDone i := by
      cases ev <;> simp [lifecycleEvent] at hview
      rw [hview]
    exact List.mem_append_left _ (hev' ▸ hev)

/-- **Start-up.**  In every run in which each worker gets its thread storage
and finds the context busy when it has waited for that: a worker past its
start-up has posted `ready` exactly once; when `eaf_load` waits for a post
that was not made yet, the worker of some group still is in its start-up, and
does not wait for the start in vain; and when `eaf_load` has succeeded, every
registered service that is not loaded lazily has completed `on_init`. -/
theorem workers_get_ready (L : Layout) (h : Trace L (startsCleanly L) tr s) :
    (∀ g < L.size, (s.group g).worker.starting = false →
      tr.count (.group g .ready) = 1) ∧
    (∀ t k, s.call t = .loadPend k → k < L.size → s.ready = 0 →
      ∃ g < L.size, (s.group g).worker.starting = true ∧ Startable s g) ∧
    (∀ t, .ret t .load Errno.success ∈ tr → ∀ g i, (L.conf g).Registered i →
      ((L.conf g).row i).lazyload = false → .group g (.initDone i) ∈ tr) := by
  have hserial := h.ofStartsCleanly
  have hposted : ∀ g, (s.group g).worker.starting = false →
      (s.group g).worker.posted = true := fun g hstart => by
    rcases (s.group g).worker.posted_or with hold | hgaveUp | hposted
    · simp [hstart] at hold
    · exact absurd hgaveUp (h.not_gaveUp g)
    · exact hposted
  refine ⟨fun g _ hstart => ?_, fun t k hcall hk hready => ?_,
    fun t hloaded g i hreg hlazy => ?_⟩
  · have hcount : (tr.filterMap (groupEvent g)).count .ready =
        (s.group g).worker.posted.toNat := hserial.groupRun.count_ready
    rw [count_groupEvent, hposted g hstart] at hcount
    exact hcount
  · obtain ⟨n, hn⟩ := hserial.readyBalance
    have hwaiting := hn.waiting t k hcall
    have hbalance := hn.balance
    have hlt : s.posts L < (List.range L.size).length := by
      rw [List.length_range]
      omega
    obtain ⟨g, hg, hzero⟩ := Ledger.exists_zero_of_total_lt hlt
    have hg := List.mem_range.mp hg
    refine ⟨g, hg, ?_, hserial.startable hg
      (hserial.ctx_of_readying (t := t) (by rw [hcall]; rfl))⟩
    cases hstart : (s.group g).worker.starting
    · simp [hposted g hstart] at hzero
    · rfl
  · have hg := Layout.lt_size_of_registered hreg
    have hworker := hserial.posted_of_loaded hloaded hg
    have hscanned : (s.group g).worker.scanned i = true := by
      cases hpc : (s.group g).worker <;>
        simp_all [Pc.scanned, Pc.posted, Pc.starting]
      case inInit idx caller => cases caller <;> simp_all
    have hmem := (hserial.groupRun (g := g)).initDone_of_scanned hreg hlazy
      hscanned
    obtain ⟨ev, hev, hview⟩ := List.mem_filterMap.mp hmem
    cases ev <;> simp [groupEvent] at hview
    obtain ⟨rfl, rfl⟩ := hview
    exact hev

/-- `eaf_load` of the lazy pair succeeds, and the ordinary service of the group
is initialised. -/
theorem workers_get_ready_lazy :
    ∃ tr s, Trace lazyPair (startsCleanly lazyPair) tr s ∧
      .ret (.client 0) .load Errno.success ∈ tr ∧
      tr.count (.group 0 .ready) = 1 ∧ .group 0 (.initDone 1) ∈ tr := by
  obtain ⟨tr, s, hrun, hcheck⟩ :=
    exists_trace lazyPair (startsCleanly lazyPair) lazyPairLoad
      (fun o => decide (.ret (.client 0) .load Errno.success ∈ o.2 ∧
        (o.1.group 0).worker.starting = false)) (by decide +kernel)
  obtain ⟨hloaded, hstart⟩ := of_decide_eq_true hcheck
  have hall := workers_get_ready lazyPair hrun
  exact ⟨tr, s, hrun, hloaded, hall.1 0 (by decide) hstart,
    hall.2.2 _ hloaded 0 1 (by decide) (by decide)⟩

/-- `eaf_exit` is called while `eaf_load` waits and before the worker looks at
the context state. -/
def exitWhileLoading : List Act :=
  [.enter (.client 0) .load] ++ clientSteps 0 7 ++
    [.enter (.client 1) (.exit 0)] ++ clientSteps 1 5 ++ workerSteps 0 3

/-- The worker returns without a post, and `eaf_load` waits for it. -/
theorem load_waits_in_vain :
    ∃ tr s, Trace lazyPair (serial lazyPair) tr s ∧
      (s.group 0).worker = .returned .notBusy ∧
      tr.count (.group 0 .ready) = 0 ∧
      s.call (.client 0) = .loadPend 0 ∧ s.ready = 0 := by
  obtain ⟨tr, s, hrun, hcheck⟩ :=
    exists_trace lazyPair (serial lazyPair) exitWhileLoading
      (fun o => decide ((o.1.group 0).worker = .returned .notBusy ∧
        o.2.count (.group 0 .ready) = 0 ∧
        o.1.call (.client 0) = .loadPend 0 ∧ o.1.ready = 0))
      (by decide +kernel)
  exact ⟨tr, s, hrun, of_decide_eq_true hcheck⟩

end Core
end Eaf
