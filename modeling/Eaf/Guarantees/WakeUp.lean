import Eaf.System.OwnCalls
import Eaf.Guarantees.ListMembership

/-!
# No wake-up is lost

Senders, resumers and the callers of `eaf_teardown` and `eaf_exit` change a
group first and post its semaphore afterwards.  A worker that waits for the
semaphore without a reason to go on has missed nothing: as long as there is
something to do, the semaphore is positive or somebody is about to post it.
-/

namespace Eaf
namespace Core

variable {L : Layout} {s s' : Sys} {g : Nat} {t : Tid} {tr events : List Event}
  {G G' : Group} {ctx ctx' : CtxState} {due due' : Prop}

/-- The call has changed something the worker of group `g` waits for, and has
yet to post the group's semaphore. -/
def Call.willPost (g : Nat) : Call → Bool
  | .pushPost _ k | .resumePost k => k == g
  | .exitPost _ k => decide (k ≤ g)
  | _ => false

/-- Somebody is about to post the semaphore of group `g`. -/
def Posting (s : Sys) (g : Nat) : Prop := ∃ t, (s.call t).willPost g = true

/-- A worker with a reason to go on finds a token, or will get one. -/
def Awake (G : Group) (ctx : CtxState) (due : Prop) : Prop :=
  match G.worker with
  | .pickBusy ph => ctx ≠ ph.ctx → 0 < G.sem ∨ due
  | .semPend ph => G.busyList ≠ [] ∨ ctx ≠ ph.ctx → 0 < G.sem ∨ due
  | _ => True

/-- Whoever is about to post keeps the worker awake. -/
theorem Awake.of_due (h : due) : Awake G ctx due := by
  unfold Awake
  split <;> simp [h]

/-- The worker has tested the context state and may go on to wait. -/
def Pc.waits : Pc → Bool
  | .pickBusy _ | .semPend _ => true
  | _ => false

/-- A worker elsewhere needs no token. -/
theorem Awake.of_not_waits (hpc : G.worker.waits = false) :
    Awake G ctx due := by
  unfold Awake
  split <;> simp_all [Pc.waits]

/-- More tokens do no harm. -/
theorem Awake.mono (h : Awake G ctx due) (hworker : G'.worker = G.worker)
    (hlist : G'.busyList = G.busyList) (hctx : ctx' = ctx)
    (hsem : G.sem ≤ G'.sem)
    (hdue : due → 0 < G'.sem ∨ due') : Awake G' ctx' due' := by
  have htoken : 0 < G.sem ∨ due → 0 < G'.sem ∨ due' := by
    rintro (htoken | hpost)
    · exact .inl (Nat.lt_of_lt_of_le htoken hsem)
    · exact hdue hpost
  unfold Awake at h ⊢
  rw [hworker, hlist, hctx]
  split <;> simp_all

/-- The worker tests the context state and looks at its list before it
waits. -/
theorem WorkerTrans.awake {c : GroupTable} {e : Env} {o : Outcome}
    {gevents : List GroupEvent} (h : WorkerTrans c e G o G' gevents)
    (hawake : Awake G e.ctx due) : Awake G' e.ctx due := by
  cases h
  case loopGo ph h hctx => simp [Awake, hctx]
  case pickNone ph h hlist =>
    simpa [Awake, h, hlist] using hawake
  case dispatchReenter fn _ _ _ _ | beforeStart fn _ _ _ _ _ =>
    exact Awake.of_not_waits (by cases fn <;> rfl)
  case initDone idx caller _ _ _ =>
    exact Awake.of_not_waits (by cases caller <;> rfl)
  all_goals exact Awake.of_not_waits rfl

/-! ## Calls -/

/-- A thread that was about to post goes on to post, or has just posted. -/
theorem CallTrans.willPost (h : CallTrans L s t events s') (hg : g < L.size)
    (hpost : (s.call t).willPost g = true) :
    0 < (s'.group g).sem ∨ (s'.call t).willPost g = true := by
  cases h
  case pushPosted b k h | resumePosted k h =>
    obtain rfl : k = g := by simpa [h, Call.willPost] using hpost
    simp
  case exitPosted td k h hk =>
    have hle : k ≤ g := by simpa [h, Call.willPost] using hpost
    by_cases hkg : g = k
    · simp [hkg]
    · right
      simp [Call.willPost]
      omega
  case exitDone td k h hk =>
    have hle : k ≤ g := by simpa [h, Call.willPost] using hpost
    omega
  all_goals simp_all [Call.willPost]

/-- Calls take no tokens. -/
theorem CallTrans.sem_le (h : CallTrans L s t events s') :
    (s.group g).sem ≤ (s'.group g).sem := by
  cases h
  case pushAccepted b k i r G h hpush =>
    by_cases hk : g = k
    · subst hk
      simp [(Group.pushMsg_some hpush).2.2.2]
    · simp [hk]
  case resumeAccepted k i G h hresume =>
    obtain ⟨-, rfl⟩ := Group.resumeService_some hresume
    by_cases hk : g = k
    · subst hk
      simp
    · simp [hk]
  case loadFixed k _ _ | pushPosted k _ | resumePosted k _ | exitPosted k _ _
    | loadPosted k _ _ | cleanQueued k _ _ _ _ _ _ | cleanCurrent k _ _ _ _ _ _ =>
    by_cases hk : g = k
    · subst hk
      simp
    · simp [hk]
  all_goals simp

/-- A call changes the list of busy services only if it posts afterwards, or
if it fixes the states of the group. -/
theorem CallTrans.busyList (h : CallTrans L s t events s') :
    (s'.group g).busyList = (s.group g).busyList ∨
      (s'.call t).willPost g = true ∨ s.call t = .loadFix g := by
  cases h
  case pushAccepted b k i r G h hpush =>
    by_cases hk : g = k
    · simp [hk, Call.willPost]
    · simp [hk]
  case resumeAccepted k i G h hresume =>
    by_cases hk : g = k
    · simp [hk, Call.willPost]
    · simp [hk]
  case loadFixed k h _ =>
    by_cases hk : g = k
    · simp [hk, h]
    · simp [hk]
  case pushPosted k _ | resumePosted k _ | exitPosted k _ _ | loadPosted k _ _
    | cleanQueued k _ _ _ _ _ _ | cleanCurrent k _ _ _ _ _ _ =>
    by_cases hk : g = k
    · simp [hk]
    · simp [hk]
  all_goals simp

/-- A call changes the context state only if it posts afterwards, or if it is
`eaf_load`. -/
theorem CallTrans.ctx_post (h : CallTrans L s t events s') :
    s'.ctx = s.ctx ∨ (s'.call t).willPost g = true ∨ s.call t = .loadWrite := by
  rcases h.ctx_cases with hctx | ⟨td, reason, -, -, hcall⟩ | ⟨hcall, -, -⟩
  · exact .inl hctx
  · exact .inr (.inl (by simp [hcall, Call.willPost]))
  · exact .inr (.inr hcall)

/-- Somebody who is about to post stays so until the semaphore is posted. -/
theorem CallTrans.posting (h : CallTrans L s t events s') (hg : g < L.size)
    (hpost : Posting s g) : 0 < (s'.group g).sem ∨ Posting s' g := by
  obtain ⟨t', ht'⟩ := hpost
  by_cases ht : t' = t
  · subst ht
    exact (h.willPost hg ht').imp id fun hpost => ⟨t', hpost⟩
  · exact .inr ⟨t', by rwa [h.call_of_ne ht]⟩

theorem CallTrans.awake (h : CallTrans L s t events s') (hg : g < L.size)
    (hearly : (s.call t).loading = true → (s.group g).worker.waits = false)
    (hawake : Awake (s.group g) s.ctx (Posting s g)) :
    Awake (s'.group g) s'.ctx (Posting s' g) := by
  have hother : (s.call t).loading = true →
      Awake (s'.group g) s'.ctx (Posting s' g) := fun hload =>
    Awake.of_not_waits (by rw [h.worker_eq]; exact hearly hload)
  rcases h.busyList (g := g) with hlist | hpost | hcall
  · rcases h.ctx_post (g := g) with hctx | hpost | hcall
    · exact hawake.mono (h.worker_eq g) hlist hctx h.sem_le (h.posting hg)
    · exact Awake.of_due ⟨t, hpost⟩
    · exact hother (by rw [hcall]; rfl)
  · exact Awake.of_due ⟨t, hpost⟩
  · exact hother (by rw [hcall]; rfl)

/-! ## Runs -/

/-- Entering the API changes nothing a worker waits for. -/
theorem EnterTrans.posting {q : Request} (h : EnterTrans L s t q events s')
    (hpost : Posting s g) : Posting s' g := by
  obtain ⟨t', ht'⟩ := hpost
  have ht : t' ≠ t := by
    rintro rfl
    have hfree := h.free
    cases hcall : s.call t' <;> simp_all [Call.free, Call.willPost]
  exact ⟨t', by rwa [h.call_of_ne ht]⟩

/-- A worker changes no call that is about to post. -/
theorem Trace.posting_worker {k : Nat} {o : Outcome}
    {gevents : List GroupEvent} (h : Trace L (serial L) tr s)
    (hw : WorkerTrans (L.conf k) (s.env k) (s.group k) o G gevents)
    (hpost : Posting s g) :
    Posting ((s.setGroup k G).emitAll L k gevents) g := by
  obtain ⟨t, ht⟩ := hpost
  refine ⟨t, ?_⟩
  rwa [h.call_kept hw]
  cases hcall : s.call t <;> simp_all [Call.free, Call.willPost]

/-- Every worker that may go on to wait is awake. -/
theorem Trace.awake (h : Trace L (serial L) tr s) (hg : g < L.size) :
    Awake (s.group g) s.ctx (Posting s g) := by
  refine Trace.byTrans
    (P := fun _ s => Awake (s.group g) s.ctx (Posting s g)) h trivial ?_
  intro tr s a events s' hrun ih _ hstep
  cases hstep with
  | @worker k o G gevents hk hw =>
      rw [Sys.emitAll_group, Sys.emitAll_ctx]
      by_cases hgk : g = k
      · subst hgk
        simp only [Sys.setGroup_group, Function.update_self]
        refine (WorkerTrans.awake hw ih).mono rfl rfl rfl
          (Nat.le_refl _) fun hpost => .inr (hrun.posting_worker hw hpost)
      · refine ih.mono (by simp [hgk]) (by simp [hgk]) rfl (by simp [hgk])
          fun hpost => .inr (hrun.posting_worker hw hpost)
  | @call t o events s' hlive hc =>
      refine hc.awake hg (fun hload => ?_) ih
      rcases hrun.order with hstart | hstarted
      · have hearly := hstart.early g hg
        cases hpc : (s.group g).worker <;> simp_all [Pc.early, Pc.waits]
      · rw [hstarted.done t] at hload
        cases hload
  | enter he =>
      rw [he.group_eq, he.ctx_eq]
      exact ih.mono rfl rfl rfl (Nat.le_refl _) fun hpost =>
        .inr (he.posting hpost)
  | user hu =>
      rw [hu.group_eq, hu.ctx_eq]
      refine ih.mono rfl rfl rfl (Nat.le_refl _) ?_
      rintro ⟨t, ht⟩
      exact .inr ⟨t, by rwa [hu.call_eq]⟩

/-- **No lost wake-up.**  A worker that waits in its event loop while the
semaphore is zero and nobody is between a change and the post for it has an
empty `busy_list`, and the context state still is the one it tested. -/
theorem no_lost_wake_up (L : Layout) (h : Trace L (serial L) tr s)
    (hg : g < L.size) {ph : Phase} (hpc : (s.group g).worker = .semPend ph)
    (hsem : (s.group g).sem = 0)
    (hpost : ∀ t, (s.call t).willPost g = false) :
    (s.group g).busyList = [] ∧ s.ctx = ph.ctx := by
  have hawake := h.awake hg
  simp only [Awake, hpc, hsem, Nat.lt_irrefl, false_or] at hawake
  have hnone : ¬ Posting s g := fun ⟨t, ht⟩ => by simp [hpost t] at ht
  by_contra hreason
  rw [not_and_or] at hreason
  exact hnone (hawake hreason)

/-- After `eaf_load` the worker waits for something to do. -/
theorem no_lost_wake_up_lazy :
    ∃ tr s, Trace lazyPair (serial lazyPair) tr s ∧
      (s.group 0).worker = .semPend .busy ∧ (s.group 0).sem = 0 ∧
      (s.group 0).busyList = [] ∧ s.ctx = .busy := by
  obtain ⟨tr, s, hrun, hcheck⟩ :=
    exists_trace lazyPair (serial lazyPair)
      (lazyPairLoad ++ workerSteps 0 5)
      (fun o => decide ((o.1.group 0).worker = .semPend .busy ∧
        (o.1.group 0).sem = 0 ∧
        ∀ t ∈ lazyPair.threads, (o.1.call t).free = true))
      (by decide +kernel)
  obtain ⟨hpc, hsem, hfree⟩ := of_decide_eq_true hcheck
  have hpost : ∀ t, (s.call t).willPost 0 = false := by
    intro t
    by_cases ht : t ∈ lazyPair.threads
    · have hcall := hfree t ht
      cases hc : s.call t <;> simp_all [Call.free, Call.willPost]
    · rw [hrun.guards.calls.outside t ht]
      rfl
  exact ⟨tr, s, hrun, hpc, hsem,
    no_lost_wake_up lazyPair hrun (by decide) hpc hsem hpost⟩

end Core
end Eaf
