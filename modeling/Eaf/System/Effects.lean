import Eaf.Core.Transitions
import Eaf.Group.Protocol

/-!
# What a step leaves alone

Frame facts about the effects a group has on the rest of the system, about
the calls in progress, and about the program points calls can be at: a thread
that has looked up a service has found a registered one, only the main thread
loads and cleans up, and cleanup empties groups whose worker has returned.
-/

namespace Eaf
namespace Core

variable {L : Layout} {s s' : Sys} {g : Nat} {t : Tid} {a : Act}
  {events : List Event} {gevents : List GroupEvent}

/-! ## Effects of group events -/

namespace Sys

/-- A field of the system that no group event changes. -/
theorem emitAll_frame {α : Type*} (f : Sys → α)
    (hf : ∀ s e, f (emit L g s e) = f s) (s : Sys) :
    f (s.emitAll L g gevents) = f s := by
  unfold emitAll
  induction gevents generalizing s with
  | nil => rfl
  | cons e rest ih => rw [List.foldl_cons, ih, hf]

@[simp] theorem emitAll_group : (s.emitAll L g gevents).group = s.group :=
  emitAll_frame Sys.group (fun _ e => by cases e <;> rfl) s

@[simp] theorem emitAll_ctx : (s.emitAll L g gevents).ctx = s.ctx :=
  emitAll_frame Sys.ctx (fun _ e => by cases e <;> rfl) s

@[simp] theorem emitAll_live : (s.emitAll L g gevents).live = s.live :=
  emitAll_frame Sys.live (fun _ e => by cases e <;> rfl) s

@[simp] theorem emitAll_owned : (s.emitAll L g gevents).owned = s.owned :=
  emitAll_frame Sys.owned (fun _ e => by cases e <;> rfl) s

@[simp] theorem emitAll_nextRec : (s.emitAll L g gevents).nextRec = s.nextRec :=
  emitAll_frame Sys.nextRec (fun _ e => by cases e <;> rfl) s

/-- A worker makes API calls on its own thread only. -/
theorem emitAll_call_of_ne (ht : t ≠ .worker g) :
    (s.emitAll L g gevents).call t = s.call t := by
  refine emitAll_frame (fun s => s.call t) (fun s e => ?_) s
  cases e <;> simp [emit, ht]

/-- During teardown the worker enters `eaf_send_rsp`, or is done with it. -/
theorem emitAll_call (s : Sys) :
    (s.emitAll L g gevents).call t = s.call t ∨
      (s.emitAll L g gevents).call t = .idle ∨
      ∃ a, (s.emitAll L g gevents).call t = .sendTest a := by
  unfold emitAll
  induction gevents generalizing s with
  | nil => exact .inl rfl
  | cons e rest ih =>
      rw [List.foldl_cons]
      rcases ih (emit L g s e) with h | h | h
      · rw [h]
        cases e
        case answer | answered =>
          simp only [emit, setCall_call, alloc_call, decRef_call,
            Function.update_apply]
          split <;> simp
        all_goals exact .inl rfl
      · exact .inr (.inl h)
      · exact .inr (.inr h)

/-- The semaphore `ready` counts the posts of the workers. -/
theorem emitAll_ready (s : Sys) : (s.emitAll L g gevents).ready =
    s.ready + gevents.count .ready := by
  unfold emitAll
  induction gevents generalizing s with
  | nil => rfl
  | cons e rest ih =>
      rw [List.foldl_cons, ih]
      cases e <;> simp [emit]
      omega

/-! ## Lending a reference to a send and marking a request -/

@[simp] theorem takeBack_group (b : SendArgs) :
    (s.takeBack b).group = s.group := by
  unfold takeBack
  split <;> rfl

@[simp] theorem takeBack_call (b : SendArgs) :
    (s.takeBack b).call = s.call := by
  unfold takeBack
  split <;> rfl

@[simp] theorem takeBack_ctx (b : SendArgs) : (s.takeBack b).ctx = s.ctx := by
  unfold takeBack
  split <;> rfl

@[simp] theorem takeBack_ready (b : SendArgs) :
    (s.takeBack b).ready = s.ready := by
  unfold takeBack
  split <;> rfl

@[simp] theorem takeBack_live (b : SendArgs) :
    (s.takeBack b).live = s.live := by
  unfold takeBack
  split <;> rfl

@[simp] theorem takeBack_nextRec (b : SendArgs) :
    (s.takeBack b).nextRec = s.nextRec := by
  unfold takeBack
  split <;> rfl

@[simp] theorem handOver_group (b : SendArgs) :
    (s.handOver b).group = s.group := by
  unfold handOver
  split <;> rfl

@[simp] theorem handOver_call (b : SendArgs) :
    (s.handOver b).call = s.call := by
  unfold handOver
  split <;> rfl

@[simp] theorem handOver_ctx (b : SendArgs) : (s.handOver b).ctx = s.ctx := by
  unfold handOver
  split <;> rfl

@[simp] theorem handOver_ready (b : SendArgs) :
    (s.handOver b).ready = s.ready := by
  unfold handOver
  split <;> rfl

@[simp] theorem handOver_live (b : SendArgs) :
    (s.handOver b).live = s.live := by
  unfold handOver
  split <;> rfl

@[simp] theorem handOver_nextRec (b : SendArgs) :
    (s.handOver b).nextRec = s.nextRec := by
  unfold handOver
  split <;> rfl

@[simp] theorem stampSender_group (b : SendArgs) :
    (s.stampSender b).group = s.group := by
  unfold stampSender
  split <;> rfl

@[simp] theorem stampSender_call (b : SendArgs) :
    (s.stampSender b).call = s.call := by
  unfold stampSender
  split <;> rfl

@[simp] theorem stampSender_ctx (b : SendArgs) :
    (s.stampSender b).ctx = s.ctx := by
  unfold stampSender
  split <;> rfl

@[simp] theorem stampSender_ready (b : SendArgs) :
    (s.stampSender b).ready = s.ready := by
  unfold stampSender
  split <;> rfl

@[simp] theorem stampSender_live (b : SendArgs) :
    (s.stampSender b).live = s.live := by
  unfold stampSender
  split <;> rfl

@[simp] theorem stampSender_nextRec (b : SendArgs) :
    (s.stampSender b).nextRec = s.nextRec := by
  unfold stampSender
  split <;> rfl

@[simp] theorem stampSender_owned (b : SendArgs) :
    (s.stampSender b).owned = s.owned := by
  unfold stampSender
  split <;> rfl

end Sys

/-! ## Program points of calls -/

namespace Call

/-- What a call has found stays in its arguments. -/
def Placed (L : Layout) : Call → Prop
  | .pushTest _ g i _ | .pushAlloc _ g i _ | .resumeLock g i =>
      g < L.size ∧ (L.conf g).Registered i
  | .pushLock b g i r => g < L.size ∧ (L.conf g).Registered i ∧ r.msg = b.msg
  | .pushPost _ g | .resumePost g => g < L.size
  | .cleanMsgq k _ => k < L.size
  | _ => True

end Call

/-- The facts about the calls in progress. -/
structure CallFacts (L : Layout) (s : Sys) : Prop where
  outside : ∀ t, t ∉ L.threads → s.call t = .idle
  placed : ∀ t, (s.call t).Placed L
  serial : ∀ t t', (s.call t).ofMain = true → (s.call t').ofMain = true →
    t' = t
  joined : ∀ t k i, s.call t = .cleanMsgq k i →
    ∃ site, (s.group k).worker = .returned site

/-- A step of a call is a step of its thread. -/
theorem CallTrans.call_of_ne {t' : Tid} (h : CallTrans L s t events s')
    (ht : t' ≠ t) : s'.call t' = s.call t' := by
  cases h <;> simp [ht]

theorem EnterTrans.call_of_ne {q : Request} {t' : Tid}
    (h : EnterTrans L s t q events s') (ht : t' ≠ t) :
    s'.call t' = s.call t' := by
  cases h <;> simp [ht]

theorem UserTrans.call_eq (h : UserTrans L s s') : s'.call = s.call := by
  cases h <;> rfl

theorem UserTrans.group_eq (h : UserTrans L s s') : s'.group = s.group := by
  cases h <;> rfl

theorem EnterTrans.group_eq {q : Request} (h : EnterTrans L s t q events s') :
    s'.group = s.group := by
  cases h <;> simp

/-- A thread enters the API at the first point of the function it calls. -/
theorem EnterTrans.call_self {q : Request} (h : EnterTrans L s t q events s') :
    s'.call t = q.start := by
  cases h <;> simp [Request.start]

/-- What a step does to the call of a thread: it leaves it as it is, is a step
of this call, or leaves the thread outside the API or where a call starts. -/
theorem SysTrans.call_cases {a : Act} (h : SysTrans L s a events s')
    (t : Tid) :
    s'.call t = s.call t ∨
      (∃ o, a = .call t o ∧ CallTrans L s t events s') ∨
      s'.call t = .idle ∨ ∃ q : Request, s'.call t = q.start := by
  cases h with
  | @worker g o G gevents hg hw =>
      rcases Sys.emitAll_call (s.setGroup g G) (t := t) with
        hc | hc | ⟨b, hc⟩
      · exact .inl hc
      · exact .inr (.inr (.inl hc))
      · exact .inr (.inr (.inr ⟨.send b, hc⟩))
  | @call t' o events s' hlive hc =>
      by_cases ht : t = t'
      · subst ht
        exact .inr (.inl ⟨o, rfl, hc⟩)
      · exact .inl (hc.call_of_ne ht)
  | @enter t' q events s' he =>
      by_cases ht : t = t'
      · subst ht
        exact .inr (.inr (.inr ⟨q, he.call_self⟩))
      · exact .inl (he.call_of_ne ht)
  | user hu => exact .inl (by rw [hu.call_eq])

/-- Only the threads of the process enter the API. -/
theorem EnterTrans.mem_threads {q : Request}
    (h : EnterTrans L s t q events s') : t ∈ L.threads := by
  have hmay : s.mayEnter L t = true := by cases h <;> assumption
  cases t <;> simp_all [Sys.mayEnter, Layout.threads]

/-- A worker thread enters the API from user code. -/
theorem EnterTrans.inCallback {q : Request}
    (h : EnterTrans L s (.worker g) q events s') :
    (s.group g).worker.inCallback = true := by
  have hmay : s.mayEnter L (.worker g) = true := by cases h <;> assumption
  simp_all [Sys.mayEnter]

/-- A thread that enters the API was outside of it. -/
theorem EnterTrans.free {q : Request} (h : EnterTrans L s t q events s') :
    (s.call t).free = true := by
  have hmay : s.mayEnter L t = true := by cases h <;> assumption
  cases t <;> simp_all [Sys.mayEnter]

/-- A call goes from one point to the next with what it has found. -/
theorem CallTrans.placed (h : CallTrans L s t events s')
    (hold : (s.call t).Placed L) : (s'.call t).Placed L := by
  cases h
  case sendFound h hfind | resumeFound h hfind =>
    obtain ⟨hg, hreg, -⟩ := findService_some hfind
    simpa [Call.Placed] using ⟨hg, hreg⟩
  all_goals simp_all [Call.Placed]

/-- A call stays in its function until it returns. -/
theorem CallTrans.ofMain (h : CallTrans L s t events s')
    (hmain : (s'.call t).ofMain = true) : (s.call t).ofMain = true := by
  cases h <;> simp_all [Call.ofMain]

/-- A thread that makes a step of a call is inside the API. -/
theorem CallTrans.not_free (h : CallTrans L s t events s') :
    (s.call t).free = false := by
  cases h <;> simp_all [Call.free]

/-- A send keeps its arguments until it returns. -/
theorem CallTrans.send {b : SendArgs} (h : CallTrans L s t events s')
    (hb : (s.call t).send? = some b) :
    (s'.call t).send? = some b ∨ ∃ code, s'.call t = .done code := by
  cases h <;> simp_all [Call.send?]

/-- Only `_eaf_exit` and `eaf_load` store the context state. -/
theorem CallTrans.ctx_cases (h : CallTrans L s t events s') :
    s'.ctx = s.ctx ∨
      (∃ td reason, s.call t = .exitWrite td reason ∧
        s'.ctx = Sys.exitState td ∧ s'.call t = .exitPost td 0) ∨
      (s.call t = .loadWrite ∧ s'.ctx = .busy ∧ s'.call t = .loadPost 0) := by
  cases h
  case exitWritten td reason h =>
    exact .inr (.inl ⟨td, reason, h, rfl, by simp⟩)
  case loadWritten h => exact .inr (.inr ⟨h, rfl, by simp⟩)
  all_goals exact .inl (by simp)

theorem EnterTrans.ctx_eq {q : Request} (h : EnterTrans L s t q events s') :
    s'.ctx = s.ctx := by
  cases h <;> simp

theorem EnterTrans.live_eq {q : Request}
    (h : EnterTrans L s t q events s') : s'.live = s.live := by
  cases h <;> simp

theorem UserTrans.live_eq (h : UserTrans L s s') : s'.live = s.live := by
  cases h <;> rfl

theorem EnterTrans.ready_eq {q : Request}
    (h : EnterTrans L s t q events s') : s'.ready = s.ready := by
  cases h <;> simp

theorem UserTrans.ready_eq (h : UserTrans L s s') : s'.ready = s.ready := by
  cases h <;> rfl

theorem UserTrans.ctx_eq (h : UserTrans L s s') : s'.ctx = s.ctx := by
  cases h <;> rfl

/-- No thread but its own moves a worker. -/
theorem CallTrans.worker_eq (h : CallTrans L s t events s') (k : Nat) :
    (s'.group k).worker = (s.group k).worker := by
  cases h
  case pushAccepted g i r G h hpush =>
    by_cases hk : k = g
    · subst hk
      simpa using (Group.pushMsg_some hpush).2.2.1
    · simp [hk]
  case resumeAccepted g i G h hresume =>
    obtain ⟨-, rfl⟩ := Group.resumeService_some hresume
    by_cases hk : k = g
    · subst hk
      simp
    · simp [hk]
  case pushPosted g _ | resumePosted g _ | exitPosted g _ _ | loadFixed g _ _
    | loadPosted g _ _ | cleanQueued g _ _ _ _ _ _ | cleanCurrent g _ _ _ _ _ _ =>
    by_cases hk : k = g
    · subst hk
      simp
    · simp [hk]
  all_goals simp

/-- A worker that has returned stays where it is. -/
theorem WorkerTrans.not_returned {c : GroupTable} {e : Env} {G G' : Group}
    {o : Outcome} (h : WorkerTrans c e G o G' gevents) (site : ReturnSite) :
    G.worker ≠ .returned site := by
  cases h <;> simp_all

/-- The threads outside the process stay outside the API. -/
theorem SysTrans.outside (h : SysTrans L s a events s')
    (hidle : ∀ t, t ∉ L.threads → s.call t = .idle) (t : Tid)
    (ht : t ∉ L.threads) : s'.call t = .idle := by
  cases h with
  | @worker g o G gevents hg h =>
      have hne : t ≠ .worker g := by
        rintro rfl
        simp [Layout.threads, hg] at ht
      rw [Sys.emitAll_call_of_ne hne]
      exact hidle t ht
  | @call t' o events s' hlive h =>
      have hne : t ≠ t' := by
        rintro rfl
        simpa [hidle t ht, Call.free] using h.not_free
      rw [h.call_of_ne hne]
      exact hidle t ht
  | @enter t' q events s' h =>
      have hne : t ≠ t' := by
        rintro rfl
        exact ht h.mem_threads
      rw [h.call_of_ne hne]
      exact hidle t ht
  | user h =>
      rw [h.call_eq]
      exact hidle t ht

namespace CallFacts

theorem initial (L : Layout) : CallFacts L (Sys.initial L) where
  outside _ _ := rfl
  placed _ := trivial
  serial _ _ h := by simp [Sys.initial, Call.ofMain] at h
  joined _ _ _ h := by simp [Sys.initial] at h

/-- When no call becomes one of `eaf_load` or `eaf_cleanup`, there still is at
most one. -/
theorem serial_of_imp (inv : CallFacts L s)
    (h : ∀ t, (s'.call t).ofMain = true → (s.call t).ofMain = true)
    (t t' : Tid) (ht : (s'.call t).ofMain = true)
    (ht' : (s'.call t').ofMain = true) : t' = t :=
  inv.serial t t' (h t ht) (h t' ht')

/-- Every step keeps the facts, as long as calls of `eaf_load` and
`eaf_cleanup` do not overlap. -/
theorem step (inv : CallFacts L s) (h : SysTrans L s a events s')
    (hserial : Core.serial L s a) : CallFacts L s' := by
  have houtside := h.outside inv.outside
  cases h with
  | @worker g o G gevents hg h =>
      have hcall : ∀ t, ((s.setGroup g G).emitAll L g gevents).call t =
          s.call t ∨ ((s.setGroup g G).emitAll L g gevents).call t = .idle ∨
          ∃ b, ((s.setGroup g G).emitAll L g gevents).call t = .sendTest b :=
        fun t => Sys.emitAll_call (s.setGroup g G)
      refine ⟨houtside, fun t => ?_, inv.serial_of_imp fun t hm => ?_,
        fun t k i hc => ?_⟩
      · rcases hcall t with hc | hc | ⟨b, hc⟩ <;> rw [hc]
        · exact inv.placed t
        · trivial
        · trivial
      · rcases hcall t with hc | hc | ⟨b, hc⟩ <;> rw [hc] at hm
        · exact hm
        · simp [Call.ofMain] at hm
        · simp [Call.ofMain] at hm
      · rcases hcall t with hc' | hc' | ⟨b, hc'⟩ <;> rw [hc'] at hc
        · obtain ⟨site, hsite⟩ := inv.joined t k i hc
          have hk : k ≠ g := by
            rintro rfl
            exact h.not_returned site hsite
          exact ⟨site, by simpa [hk] using hsite⟩
        · cases hc
        · cases hc
  | @call t o events s' hlive h =>
      refine ⟨houtside, fun t' => ?_,
        inv.serial_of_imp fun t' hm => ?_, fun t' k i hc => ?_⟩
      · by_cases ht : t' = t
        · subst ht
          exact h.placed (inv.placed t')
        · rw [h.call_of_ne ht]
          exact inv.placed t'
      · by_cases ht : t' = t
        · subst ht
          exact h.ofMain hm
        · rwa [h.call_of_ne ht] at hm
      · simp only [h.worker_eq]
        by_cases ht : t' = t
        · subst ht
          have hjoined := inv.joined t'
          cases h <;> simp_all
        · rw [h.call_of_ne ht] at hc
          exact inv.joined t' k i hc
  | @enter t q events s' h =>
      refine ⟨houtside, fun t' => ?_, ?_, fun t' k i hc => ?_⟩
      · by_cases ht : t' = t
        · subst ht
          rw [h.call_self]
          cases q <;> trivial
        · rw [h.call_of_ne ht]
          exact inv.placed t'
      · by_cases hq : q.start.ofMain = true
        · -- the other threads are outside of `eaf_load` and `eaf_cleanup`
          have hfree : ∀ t', t' ≠ t → (s'.call t').ofMain = false := by
            intro t' ht
            rw [h.call_of_ne ht]
            by_cases hmem : t' ∈ L.threads
            · cases q <;> simp_all [Request.start, Call.ofMain, Core.serial]
            · rw [inv.outside t' hmem]
              rfl
          have honly : ∀ t', (s'.call t').ofMain = true → t' = t := by
            intro t' hm
            by_contra ht
            simp [hfree t' ht] at hm
          exact fun t₁ t₂ h₁ h₂ => (honly t₂ h₂).trans (honly t₁ h₁).symm
        · refine inv.serial_of_imp fun t' hm => ?_
          by_cases ht : t' = t
          · subst ht
            exact absurd (h.call_self ▸ hm) hq
          · rwa [h.call_of_ne ht] at hm
      · rw [h.group_eq]
        by_cases ht : t' = t
        · subst ht
          rw [h.call_self] at hc
          cases q <;> simp [Request.start] at hc
        · rw [h.call_of_ne ht] at hc
          exact inv.joined t' k i hc
  | user h =>
      exact ⟨houtside, by rw [h.call_eq]; exact inv.placed,
        by rw [h.call_eq]; exact inv.serial,
        by rw [h.call_eq, h.group_eq]; exact inv.joined⟩

end CallFacts

end Core
end Eaf
