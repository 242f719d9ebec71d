import Eaf.Foundation.Completion
import Eaf.System.Effort
import Eaf.System.Emptying
import Eaf.Guarantees.Loading
import Eaf.Guarantees.WorkerProgress

/-!
# The system comes to rest

Once the loader is through, the workers and the calls in progress come to an
end whatever the callbacks return, unless user code makes new calls.  Where
they end, every worker has returned or waits in its event loop with nothing to
do.
-/

namespace Eaf
namespace Core

open LabelledRun

variable {L : Layout} {s s' : Sys} {g i : Nat} {t : Tid} {a : Act}
  {tr events : List Event} {ok : Sys → Act → Prop} {o : Outcome}

/-! ## Who may wait for whom -/

/-- The thread of a worker enters `eaf_cleanup`, which waits for this worker. -/
def Act.joinsItself : Act → Bool
  | .enter (.worker _) .cleanup => true
  | _ => false

/-- Schedules in which calls of `eaf_load` and `eaf_cleanup` do not overlap,
only responses go through `eaf_send_rsp`, and no callback calls
`eaf_cleanup`. -/
def orderly (L : Layout) (s : Sys) (a : Act) : Prop :=
  properlySent L s a ∧ a.joinsItself = false

instance (L : Layout) (s : Sys) (a : Act) : Decidable (orderly L s a) :=
  inferInstanceAs (Decidable (_ ∧ _))

theorem Trace.ofOrderly (h : Trace L (orderly L) tr s) :
    Trace L (properlySent L) tr s :=
  h.weaken fun _ _ hok => hok.1

/-- A callback gets no further than the guard of `eaf_load`. -/
theorem Trace.worker_main (h : Trace L (orderly L) tr s) (g : Nat)
    (hmain : (s.call (.worker g)).ofMain = true) :
    s.call (.worker g) = .loadTest := by
  refine Trace.byTrans (P := fun _ s => (s.call (.worker g)).ofMain = true →
    s.call (.worker g) = .loadTest) h (fun hmain => by cases hmain) ?_ hmain
  intro tr s a events s' hrun ih hok hstep hmain
  have hserial := hrun.ofOrderly.ofProperlySent
  have hkept : s'.call (.worker g) = s.call (.worker g) →
      s'.call (.worker g) = .loadTest := fun hc => by
    rw [hc] at hmain ⊢
    exact ih hmain
  cases hstep with
  | @worker k o G gevents hk hw =>
      rcases Sys.emitAll_call (s.setGroup k G) (t := .worker g) with
        hc | hc | ⟨b, hc⟩
      · exact hkept hc
      · rw [hc] at hmain
        cases hmain
      · rw [hc] at hmain
        cases hmain
  | @call t o events s' hlive hc =>
      by_cases ht : .worker g = t
      · subst ht
        -- the guard lets nobody in, since the worker runs a callback
        have hold := ih (hc.ofMain hmain)
        have hctx : s.ctx ≠ .init := by
          have hg : g < L.size := by
            by_contra hg
            have hout := hserial.guards.calls.outside (.worker g)
              (by simpa [Layout.threads] using Nat.le_of_not_lt hg)
            simp [hout] at hold
          rcases hserial.order with hstart | hstarted
          · have hearly := hstart.early g hg
            have hown := hserial.ownCall g
            rw [hold] at hown
            cases hpc : (s.group g).worker <;>
              simp_all [OwnCall, Pc.early, Pc.inCallback, Call.free]
          · exact hstarted.ctx
        cases hc <;> simp_all [Call.ofMain]
      · exact hkept (hc.call_of_ne ht)
  | @enter t q events s' he =>
      by_cases ht : .worker g = t
      · subst ht
        rw [he.call_self] at hmain ⊢
        cases q with
        | load => rfl
        | cleanup => cases hok.2
        | _ => cases hmain
      · exact hkept (he.call_of_ne ht)
  | user hu => exact hkept (by rw [hu.call_eq])

/-- How many workers a call of `eaf_cleanup` has waited for. -/
def Call.waitedFor (L : Layout) : Call → Nat
  | .cleanJoin k => k
  | .cleanMsgq k _ => k + 1
  | .cleanFree => L.size
  | _ => 0

/-- `eaf_cleanup` waits for the workers before it frees the context. -/
structure Joins (L : Layout) (s : Sys) : Prop where
  joined : ∀ t, ∀ g < L.size, g < (s.call t).waitedFor L →
    ∃ site, (s.group g).worker = .returned site
  freed : s.live = false → ∀ g < L.size,
    ∃ site, (s.group g).worker = .returned site

/-- A call waits for one worker after the other. -/
theorem CallTrans.waitedFor (h : CallTrans L s t events s') (hg : g < L.size)
    (hjoined : g < (s'.call t).waitedFor L) :
    g < (s.call t).waitedFor L ∨ ∃ site, (s.group g).worker = .returned site := by
  cases h
  case cleanJoined k site hcall hk hret =>
    by_cases hgk : g = k
    · subst hgk
      exact .inr ⟨site, hret⟩
    · left
      simp [Call.waitedFor] at hjoined
      simp only [hcall, Call.waitedFor]
      omega
  case cleanAllJoined k hcall hk =>
    left
    simp only [hcall, Call.waitedFor]
    omega
  all_goals simp_all [Call.waitedFor]

theorem Trace.joins (h : Trace L ok tr s) : Joins L s := by
  refine Trace.byTrans (P := fun _ s => Joins L s) h
    ⟨fun t g _ hjoined => (by cases hjoined), fun hlive => (by cases hlive)⟩ ?_
  intro tr s a events s' _ ih _ hstep
  cases hstep with
  | @worker k o G gevents hk hw =>
      have hstays : ∀ g, (∃ site, (s.group g).worker = .returned site) →
          ∃ site, (((s.setGroup k G).emitAll L k gevents).group g).worker =
            .returned site := by
        rintro g ⟨site, hret⟩
        have hgk : g ≠ k := by
          rintro rfl
          exact hw.not_returned site hret
        refine ⟨site, ?_⟩
        simpa [hgk] using hret
      refine ⟨fun t g hg hjoined => hstays g (ih.joined t g hg ?_),
        fun hlive g hg => hstays g (ih.freed (by simpa using hlive) g hg)⟩
      rcases Sys.emitAll_call (s.setGroup k G) (t := t) with
        hc | hc | ⟨b, hc⟩ <;> rw [hc] at hjoined
      · exact hjoined
      · cases hjoined
      · cases hjoined
  | @call t o events s' hlive hc =>
      have hjoined : ∀ t', ∀ g < L.size, g < (s'.call t').waitedFor L →
          ∃ site, (s'.group g).worker = .returned site := by
        intro t' g hg hjoined
        rw [hc.worker_eq]
        by_cases ht : t' = t
        · subst ht
          exact (hc.waitedFor hg hjoined).elim (ih.joined t' g hg) id
        · rw [hc.call_of_ne ht] at hjoined
          exact ih.joined t' g hg hjoined
      refine ⟨hjoined, fun hdead g hg => ?_⟩
      rw [hc.worker_eq]
      rcases hc.live_eq with hsame | hfree
      · exact ih.freed (hsame ▸ hdead) g hg
      · refine ih.joined t g hg ?_
        rw [hfree]
        exact hg
  | @enter t q events s' he =>
      refine ⟨fun t' g hg hjoined => ?_, fun hlive g hg => ?_⟩
      · rw [he.group_eq]
        by_cases ht : t' = t
        · subst ht
          rw [he.call_self] at hjoined
          cases q <;> cases hjoined
        · rw [he.call_of_ne ht] at hjoined
          exact ih.joined t' g hg hjoined
      · rw [he.group_eq]
        exact ih.freed (by rwa [← he.live_eq]) g hg
  | user hu =>
      refine ⟨fun t g hg hjoined => ?_, fun hlive g hg => ?_⟩
      · rw [hu.group_eq]
        exact ih.joined t g hg (by rwa [← hu.call_eq])
      · rw [hu.group_eq]
        exact ih.freed (by rwa [← hu.live_eq]) g hg

/-! ## Calls that cannot go on -/

/-- The call waits for `ready`, or for a worker. -/
def Sys.CallWaits (L : Layout) (s : Sys) (t : Tid) : Prop :=
  (∃ k < L.size, s.call t = .loadPend k ∧ s.ready = 0) ∨
    ∃ k < L.size, s.call t = .cleanJoin k ∧
      ∀ site, (s.group k).worker ≠ .returned site

/-- A call goes on unless it waits. -/
theorem Sys.call_moves (hlive : s.live = true)
    (hbusy : (s.call t).free = false) (hmoves : ¬ s.CallWaits L t) :
    (s.callStep L t .plain).isSome := by
  unfold Sys.callStep
  rw [if_pos (.inl hlive)]
  cases hcall : s.call t
  case idle | done => simp [hcall, Call.free] at hbusy
  case loadPend k =>
    simp only [Sys.loadStep]
    split
    · next hk =>
        rw [if_neg fun hready => hmoves (.inl ⟨k, hk, hcall, hready⟩)]
        rfl
    · rfl
  case cleanJoin k =>
    simp only [Sys.cleanStep]
    split
    · next hk =>
        cases hpc : (s.group k).worker
        case returned => rfl
        all_goals
          exact absurd (.inr ⟨k, hk, hcall, by simp [hpc]⟩) hmoves
    · rfl
  case sendFind b =>
    simp only [Sys.sendStep]
    split
    · rfl
    · split <;> rfl
  case cleanMsgq k i =>
    simp only [Sys.cleanStep]
    split
    · split
      · rfl
      · split <;> rfl
    · rfl
  case sendTest | sendHook | pushTest | pushAlloc | pushLock =>
    simp only [Sys.sendStep]
    split <;> rfl
  case resumeFind | resumeLock =>
    simp only [Sys.resumeStep]
    split <;> rfl
  case exitTest | exitPost =>
    simp only [Sys.exitStep]
    split <;> rfl
  case loadTest | loadFix | loadPost =>
    simp only [Sys.loadStep]
    split <;> rfl
  case cleanTest =>
    simp only [Sys.cleanStep]
    split <;> rfl
  case initTest => simp [Sys.initStep, hlive]
  all_goals rfl

/-! ## Rest -/

/-- A worker or a call goes on. -/
def Act.unattended : Act → Bool
  | .worker _ _ | .call _ _ => true
  | .enter _ _ | .user _ => false

/-- The steps of the system while user code makes no new calls and leaves the
messages alone. -/
def Unattended (L : Layout) (s : Sys) (acts : List Act) (s' : Sys) : Prop :=
  ∃ a events, a.unattended = true ∧ step L s a = some (s', events) ∧
    acts = [a]

/-- Every worker has returned, or waits with nothing to do in an event loop that
is right for the context; the calls have returned, but for an `eaf_load` that
waits for `ready` and an `eaf_cleanup` that waits for a worker. -/
structure AtRest (L : Layout) (s : Sys) : Prop where
  workers : ∀ g < L.size, (∃ site, (s.group g).worker = .returned site) ∨
    ∃ ph, (s.group g).worker = .semPend ph ∧ (s.group g).busyList = [] ∧
      s.ctx = ph.ctx
  calls : s.live = true → ∀ t,
    (s.call t).free = true ∨ s.CallWaits L t

/-- Nothing that is under way needs the consent of the schedule. -/
theorem orderly_of_unattended (ha : a.unattended = true) : orderly L s a := by
  cases a with
  | worker | call => exact ⟨trivial, rfl⟩
  | enter | user => cases ha

/-- A run that goes on unattended is a run, and the loader stays through. -/
theorem Trace.unattended {acts : List Act} (h : Trace L (orderly L) tr s)
    (hstarted : Started L s) (hrun : Run (Unattended L) s acts s') :
    (∃ tr', Trace L (orderly L) tr' s') ∧ Started L s' := by
  refine hrun.preserved
    (P := fun s' => (∃ tr', Trace L (orderly L) tr' s') ∧ Started L s')
    ⟨⟨tr, h⟩, hstarted⟩ ?_
  rintro u acts u' ⟨⟨tr', htr⟩, hu⟩ ⟨a, events, ha, hstep, -⟩
  refine ⟨⟨_, htr.snoc ⟨a, orderly_of_unattended ha, hstep⟩⟩, ?_⟩
  exact hu.step htr.ofOrderly.ofProperlySent.guards (step_trans hstep)

/-- Every such step uses some effort up. -/
theorem Unattended.effort {acts : List Act} (h : Trace L (orderly L) tr s)
    (hstarted : Started L s) (hstep : Unattended L s acts s') :
    s'.effort L < s.effort L := by
  obtain ⟨a, events, ha, hstep, -⟩ := hstep
  have hserial := h.ofOrderly.ofProperlySent
  cases step_trans hstep with
  | worker hg hw => exact hserial.worker_effort hstarted hg hw
  | call hlive hc => exact hc.effort hserial.guards.calls hstarted
  | enter | user => cases ha

/-- When no call can go on, the ones of the workers have returned. -/
theorem Trace.worker_free (h : Trace L (orderly L) tr s)
    (hcalls : ∀ t, (s.call t).free = true ∨ s.CallWaits L t) (g : Nat) :
    (s.call (.worker g)).free = true := by
  rcases hcalls (.worker g) with hfree | ⟨k, -, hcall, -⟩ | ⟨k, -, hcall, -⟩
  · exact hfree
  · have hmain := h.worker_main g (by rw [hcall]; rfl)
    rw [hcall] at hmain
    cases hmain
  · have hmain := h.worker_main g (by rw [hcall]; rfl)
    rw [hcall] at hmain
    cases hmain

/-- Nobody is about to post when no call can go on. -/
theorem Sys.not_posting (hcalls : ∀ t, (s.call t).free = true ∨
    s.CallWaits L t) : ¬ Posting s g ∧ ∀ t, (s.call t).willStart g = false := by
  have hquiet : ∀ t, (s.call t).willPost g = false ∧
      (s.call t).willStart g = false := by
    intro t
    rcases hcalls t with hfree | ⟨k, -, hcall, -⟩ | ⟨k, -, hcall, -⟩
    · cases hcall : s.call t <;>
        simp_all [Call.free, Call.willPost, Call.willStart]
    · rw [hcall]
      exact ⟨rfl, rfl⟩
    · rw [hcall]
      exact ⟨rfl, rfl⟩
  refine ⟨fun hposting => ?_, fun t => (hquiet t).2⟩
  obtain ⟨t, ht⟩ := hposting
  rw [(hquiet t).1] at ht
  cases ht

/-- Where nothing moves, the system is at rest. -/
theorem Trace.atRest (h : Trace L (orderly L) tr s) (hstarted : Started L s)
    (hhalted : Halted (Unattended L) s) : AtRest L s := by
  have hserial := h.ofOrderly.ofProperlySent
  have hstep : ∀ a, a.unattended = true → step L s a = none := by
    intro a ha
    by_contra hsome
    obtain ⟨⟨s', events⟩, hstep⟩ := Option.ne_none_iff_exists'.mp hsome
    exact hhalted [a] s' ⟨a, events, ha, hstep, rfl⟩
  have hcalls : s.live = true → ∀ t,
      (s.call t).free = true ∨ s.CallWaits L t := by
    intro hlive t
    by_contra hnot
    rw [not_or, Bool.not_eq_true] at hnot
    have hmoves := Sys.call_moves hlive hnot.1 hnot.2
    rw [show s.callStep L t .plain = none from
      hstep (.call t .plain) rfl] at hmoves
    cases hmoves
  refine ⟨fun g hg => ?_, hcalls⟩
  cases hlive : s.live with
  | false => exact .inl (hserial.joins.freed hlive g hg)
  | true =>
      have hwaits : s.Waits g := by
        by_contra hwaits
        have hmoves := h.ofOrderly.worker_moves hg hwaits
        rw [show s.workerStep L g .plain = none from
          hstep (.worker g .plain) rfl] at hmoves
        cases hmoves
      obtain ⟨hposting, hstarting⟩ := Sys.not_posting (g := g) (hcalls hlive)
      have hfree := h.worker_free (hcalls hlive) g
      have hawake := hserial.awake hg
      have hstartable := hserial.startable hg hstarted.ctx
      cases hpc : (s.group g).worker
      case returned site => exact .inl ⟨site, rfl⟩
      case semPend ph =>
        have hsem : (s.group g).sem = 0 := by
          simpa only [Sys.Waits, hpc] using hwaits
        have hidle : ¬ ((s.group g).busyList ≠ [] ∨ s.ctx ≠ ph.ctx) := by
          intro hdue
          simp only [Awake, hpc] at hawake
          rcases hawake hdue with htoken | hpost
          · omega
          · exact hposting hpost
        rw [not_or, not_not, not_not] at hidle
        exact .inr ⟨ph, rfl, hidle⟩
      case startPend =>
        have hsem : (s.group g).sem = 0 := by
          simpa only [Sys.Waits, hpc] using hwaits
        rcases hstartable hpc with htoken | ⟨t, ht⟩
        · omega
        · rw [hstarting t] at ht
          cases ht
      all_goals simp [Sys.Waits, hpc, hfree] at hwaits

/-- Every schedule without new calls comes to an end. -/
theorem Trace.unattended_bounded (h : Trace L (orderly L) tr s)
    (hstarted : Started L s) : Bounded (Unattended L) s := by
  refine Bounded.of_measure
    (fun u => (∃ tr', Trace L (orderly L) tr' u) ∧ Started L u)
    (Sys.effort L) ?_ ⟨⟨tr, h⟩, hstarted⟩ ?_ ?_
  · rintro u acts u' ⟨a, events, -, -, rfl⟩
    rfl
  · rintro u acts u' ⟨⟨tr', htr⟩, hu⟩ hstep
    exact htr.unattended hu (.single hstep)
  · rintro u acts u' ⟨⟨tr', htr⟩, hu⟩ hstep
    exact hstep.effort htr hu

/-- Where such a schedule ends, the system is at rest. -/
theorem Trace.unattended_rests {acts : List Act} {u : Sys}
    (h : Trace L (orderly L) tr s) (hstarted : Started L s)
    (hrun : Run (Unattended L) s acts u)
    (hhalted : Halted (Unattended L) u) : AtRest L u := by
  obtain ⟨⟨tr', htr⟩, hu⟩ := h.unattended hstarted hrun
  exact htr.atRest hu hhalted

/-- **The system comes to rest.**  In an orderly run, once the loader is through
and as long as user code makes no new calls, every schedule comes to an end
whatever the callbacks return, and ends with the workers returned or waiting
with nothing to do. -/
theorem comes_to_rest (L : Layout) (h : Trace L (orderly L) tr s)
    (hstarted : Started L s) : Completes (Unattended L) s (AtRest L) where
  bounded := h.unattended_bounded hstarted
  ending _ _ hrun hhalted := h.unattended_rests hstarted hrun hhalted

/-- Two workers are not needed for that: the worker of a pair of services has
picked a request up, and a client has called `eaf_exit`. -/
theorem comes_to_rest_exit :
    ∃ tr s, Trace lazyPair (orderly lazyPair) tr s ∧ s.ctx = .busy ∧
      (s.group 0).worker = .handle .busy 0 ∧
      s.call (.client 0) = .exitWrite false 3 ∧
      Completes (Unattended lazyPair) s (AtRest lazyPair) := by
  obtain ⟨tr, s, hrun, hcheck⟩ :=
    exists_trace lazyPair (orderly lazyPair)
      (lazyPairRequest ++ [.enter (.client 0) (.exit 3)] ++ clientSteps 0 2)
      (fun o => decide (o.1.ctx = .busy ∧
        (o.1.group 0).worker = .handle .busy 0 ∧
        o.1.call (.client 0) = .exitWrite false 3)) (by decide +kernel)
  obtain ⟨hctx, hpc, hcall⟩ := of_decide_eq_true hcheck
  refine ⟨tr, s, hrun, hctx, hpc, hcall, comes_to_rest lazyPair hrun ?_⟩
  exact hrun.ofOrderly.ofProperlySent.order.resolve_left
    fun hstart => hstart.ctx hctx

/-! ## The end of the program -/

/-- The call is an `eaf_teardown` that has yet to store its state. -/
def Call.tearsDown : Call → Bool
  | .exitTest td _ | .exitHook td _ | .exitWrite td _ => td
  | _ => false

/-- `eaf_exit` has stored its state, and no `eaf_teardown` in progress has yet to
store its own. -/
structure Exiting (s : Sys) : Prop where
  ctx : s.ctx = .exit
  calls : ∀ t, (s.call t).tearsDown = false

/-- Unattended, the context stays in `exit`. -/
theorem Exiting.step {acts : List Act} (h : Exiting s) (hstarted : Started L s)
    (hstep : Unattended L s acts s') : Exiting s' := by
  obtain ⟨a, events, ha, hnext, -⟩ := hstep
  cases step_trans hnext with
  | @worker k o G gevents hk hw =>
      refine ⟨by simpa using h.ctx, fun t => ?_⟩
      rcases Sys.emitAll_call (s.setGroup k G) (t := t) with
        hc | hc | ⟨b, hc⟩ <;> rw [hc]
      · exact h.calls t
      · rfl
      · rfl
  | @call t o events s' hlive hc =>
      have hcall := h.calls t
      have hdone := hstarted.done t
      refine ⟨?_, fun t' => ?_⟩
      · rcases hc.ctx_cases with hctx | ⟨td, reason, hwrite, hctx, -⟩ |
          ⟨hwrite, -, -⟩
        · rw [hctx]
          exact h.ctx
        · rw [hwrite] at hcall
          obtain rfl : td = false := hcall
          exact hctx
        · rw [hwrite] at hdone
          cases hdone
      · by_cases ht : t' = t
        · subst ht
          cases hc <;> simp_all [Call.tearsDown]
        · rw [hc.call_of_ne ht]
          exact h.calls t'
  | enter | user => cases ha

/-- **The program ends.**  Once the loader is through, `eaf_exit` has stored its
state and no `eaf_teardown` in progress has yet to store its own, as long as
user code makes no new calls, every schedule comes to an end, with all workers
returned; an `eaf_cleanup` that waits for them returns, like every other call
but an `eaf_load` that waits for `ready`. -/
theorem exit_completes (L : Layout) (h : Trace L (orderly L) tr s)
    (hstarted : Started L s) (hexit : Exiting s) :
    Completes (Unattended L) s fun u =>
      (∀ g < L.size, ∃ site, (u.group g).worker = .returned site) ∧
      (u.live = true → ∀ t, (u.call t).free = true ∨
        ∃ k < L.size, u.call t = .loadPend k ∧ u.ready = 0) where
  bounded := h.unattended_bounded hstarted
  ending acts u hrun hhalted := by
    have hrest := h.unattended_rests hstarted hrun hhalted
    have hend : Exiting u ∧ Started L u := by
      refine hrun.invariant (P := fun _ u => Exiting u ∧ Started L u)
        ⟨hexit, hstarted⟩ ?_
      rintro acts v more w hv ⟨hexiting, hloaded⟩ hstep
      refine ⟨hexiting.step hloaded hstep, ?_⟩
      exact (h.unattended hstarted (hv.snoc hstep)).2
    have hreturned : ∀ g < L.size,
        ∃ site, (u.group g).worker = .returned site := by
      intro g hg
      refine (hrest.workers g hg).resolve_right ?_
      rintro ⟨ph, -, -, hph⟩
      rw [hend.1.ctx] at hph
      cases ph <;> cases hph
    refine ⟨hreturned, fun hlive t => ?_⟩
    rcases hrest.calls hlive t with hfree | hload | ⟨k, hk, -, hnot⟩
    · exact .inl hfree
    · exact .inr hload
    · obtain ⟨site, hsite⟩ := hreturned k hk
      exact absurd hsite (hnot site)

/-- A request is being handled when one client calls `eaf_exit` and the other
one waits in `eaf_cleanup`. -/
theorem exit_completes_cleanup :
    ∃ tr s, Trace lazyPair (orderly lazyPair) tr s ∧
      (s.group 0).worker = .handle .busy 0 ∧
      s.call (.client 0) = .exitPost false 0 ∧
      s.call (.client 1) = .cleanJoin 0 ∧
      Completes (Unattended lazyPair) s fun u =>
        (∀ g < lazyPair.size, ∃ site, (u.group g).worker = .returned site) ∧
        (u.live = true → ∀ t, (u.call t).free = true ∨
          ∃ k < lazyPair.size, u.call t = .loadPend k ∧ u.ready = 0) := by
  obtain ⟨tr, s, hrun, hcheck⟩ :=
    exists_trace lazyPair (orderly lazyPair)
      (lazyPairRequest ++ clientSteps 1 1 ++
        [.enter (.client 0) (.exit 3)] ++ clientSteps 0 3 ++
        [.enter (.client 1) .cleanup] ++ clientSteps 1 1)
      (fun o => decide (o.1.ctx = .exit ∧
        (o.1.group 0).worker = .handle .busy 0 ∧
        o.1.call (.client 0) = .exitPost false 0 ∧
        o.1.call (.client 1) = .cleanJoin 0 ∧
        ∀ t ∈ lazyPair.threads, (o.1.call t).tearsDown = false))
      (by decide +kernel)
  obtain ⟨hctx, hpc, hcall₀, hcall₁, hteardown⟩ := of_decide_eq_true hcheck
  have hserial := hrun.ofOrderly.ofProperlySent
  have hstarted : Started lazyPair s := by
    refine hserial.order.resolve_left fun hstart => ?_
    have hearly := hstart.early 0 (by decide)
    rw [hpc] at hearly
    cases hearly
  refine ⟨tr, s, hrun, hpc, hcall₀, hcall₁,
    exit_completes lazyPair hrun hstarted ⟨hctx, fun t => ?_⟩⟩
  by_cases ht : t ∈ lazyPair.threads
  · exact hteardown t ht
  · rw [hserial.guards.calls.outside t ht]
    rfl

end Core
end Eaf
