import Eaf.System.GroupView

/-!
# Calls on the thread of a worker

The thread of a worker is inside the API only while the worker runs user code,
or while it waits for `eaf_send_rsp` to take an answer during teardown.  This
holds under every schedule.
-/

namespace Eaf
namespace Core

variable {L : Layout} {ok : Sys → Act → Prop} {s s' : Sys} {g i : Nat}
  {t : Tid} {a : Act} {events tr : List Event} {gevents : List GroupEvent}
  {c : GroupTable} {e : Env} {G G' : Group} {o : Outcome} {r : MsgqRecord}
  {rsp : MsgRef} {cur : Bool}

/-- The arguments with which teardown sends the answer `rsp` for the request
of `r`. -/
def Layout.answerArgs (L : Layout) (g i : Nat) (r : MsgqRecord)
    (rsp : MsgRef) : SendArgs :=
  ⟨.rsp, ((L.conf g).row i).srvId, r.src, rsp, true⟩

/-- The worker waits for `eaf_send_rsp`. -/
def Pc.inAnswer : Pc → Bool
  | .tdSend _ _ _ _ => true
  | _ => false

/-- What the thread of the worker of group `g` is doing in the API. -/
def OwnCall (L : Layout) (g : Nat) (call : Call) : Pc → Prop
  | .tdSend i r rsp _ => call.send? = some (L.answerArgs g i r rsp) ∨
      ∃ code, call = .done code
  | pc => pc.inCallback = true ∨ call.free = true

theorem OwnCall.of_free {pc : Pc} {call : Call} (hfree : call.free = true)
    (hpc : pc.inAnswer = false) : OwnCall L g call pc := by
  cases pc <;> simp_all [OwnCall, Pc.inAnswer]

theorem OwnCall.of_callback {pc : Pc} {call : Call}
    (hpc : pc.inCallback = true) : OwnCall L g call pc := by
  cases pc <;> simp_all [OwnCall, Pc.inCallback]

theorem OwnCall.free {pc : Pc} {call : Call} (h : OwnCall L g call pc)
    (hpc : pc.inCallback = false) (hanswer : pc.inAnswer = false) :
    call.free = true := by
  cases pc <;> simp_all [OwnCall, Pc.inAnswer]

@[simp] theorem handlerPc_inAnswer (ph : Phase) (fn : Option Fn) :
    (handlerPc ph i fn).inAnswer = false := by
  cases fn <;> rfl

/-- Events with which the worker neither enters the API nor leaves it. -/
def GroupEvent.silent : GroupEvent → Bool
  | .answer _ _ _ | .answered _ _ _ _ => false
  | _ => true

/-- Such events leave the calls alone. -/
theorem Sys.emitAll_call_of_silent (s : Sys)
    (h : ∀ ev ∈ gevents, ev.silent = true) :
    (s.emitAll L g gevents).call = s.call := by
  unfold Sys.emitAll
  induction gevents generalizing s with
  | nil => rfl
  | cons ev rest ih =>
      rw [List.foldl_cons, ih _ fun ev' hev' => h ev' (by simp [hev'])]
      have hev := h ev (by simp)
      cases ev <;> simp_all [GroupEvent.silent, Sys.emit]

/-- The steps of a worker, by what they do on its own thread: it enters
`eaf_send_rsp`, it drops the answer when that has returned, or it stays where
it is. -/
theorem WorkerTrans.own_call (h : WorkerTrans c e G o G' gevents) :
    (∃ i r cur m, G.worker = .tdMsg i r cur ∧ e.msg r.msg = some m ∧
      gevents = [.answer i r e.nextMsg] ∧
      G' = G.goto (.tdSend i r e.nextMsg cur)) ∨
    (∃ i r rsp cur code, G.worker = .tdSend i r rsp cur ∧
      e.callRet = some code ∧ gevents = [.answered i r rsp code] ∧
      G' = G.goto (.tdFree i r cur)) ∨
    ((∀ ev ∈ gevents, ev.silent = true) ∧ G.worker.inAnswer = false ∧
      G'.worker.inAnswer = false ∧
      (G.worker.inCallback = true → e.inCall = false)) := by
  cases h
  case tdAnswer i r cur m h hmsg _ _ =>
    exact .inl ⟨i, r, cur, m, h, hmsg, rfl, rfl⟩
  case tdSent i r rsp cur code h hret =>
    exact .inr (.inl ⟨i, r, rsp, cur, code, h, hret, rfl, rfl⟩)
  case readyNone n h _ =>
    refine .inr (.inr ⟨?_, by simp [h, Pc.inAnswer], rfl,
      by simp [h, Pc.inCallback]⟩)
    split <;> simp [GroupEvent.silent]
  case initDone idx caller h hcall hyield =>
    refine .inr (.inr ⟨by simp [GroupEvent.silent], by simp [h, Pc.inAnswer],
      ?_, fun _ => hcall⟩)
    cases caller <;> rfl
  case dispatchReenter h _ _ _ | beforeStart h _ hcall _ _ =>
    refine .inr (.inr ⟨by simp [GroupEvent.silent], by simp [h, Pc.inAnswer],
      handlerPc_inAnswer _ _, ?_⟩)
    simp_all [Pc.inCallback]
  all_goals
    refine .inr (.inr ⟨by simp [GroupEvent.silent], ?_, ?_, ?_⟩) <;>
      simp_all [Pc.inAnswer, Pc.inCallback]

/-- **The calls of the workers.**  Outside user code and the answers of
teardown the thread of a worker is outside the API. -/
theorem Trace.ownCall (h : Trace L ok tr s) (g : Nat) :
    OwnCall L g (s.call (.worker g)) (s.group g).worker := by
  refine Trace.byTrans
    (P := fun _ s => OwnCall L g (s.call (.worker g)) (s.group g).worker) h
    (.inr rfl) ?_
  intro tr s a events s' hrun ih _ hstep
  cases hstep with
  | @worker k o G gevents hk hw =>
      by_cases hgk : k = g
      · subst hgk
        rcases hw.own_call with ⟨i, r, cur, m, hpc, -, rfl, rfl⟩ |
          ⟨i, r, rsp, cur, code, hpc, -, rfl, rfl⟩ |
          ⟨hsilent, hpc, hpc', hcall⟩
        · simp [Sys.emitAll, Sys.emit, OwnCall, Call.send?,
            Layout.answerArgs, Sys.env]
        · simp [Sys.emitAll, Sys.emit, OwnCall, Call.free]
        · rw [Sys.emitAll_call_of_silent _ hsilent, Sys.emitAll_group]
          simp only [Sys.setGroup_call, Sys.setGroup_group,
            Function.update_self]
          refine OwnCall.of_free ?_ hpc'
          cases hin : (s.group k).worker.inCallback with
          | true => simpa [Sys.env] using hcall hin
          | false => exact ih.free hin hpc
      · rw [Sys.emitAll_call_of_ne (by simpa using Ne.symm hgk),
          Sys.emitAll_group]
        simpa [Ne.symm hgk] using ih
  | @call t o events s' hlive hc =>
      rw [hc.worker_eq]
      by_cases ht : t = .worker g
      · subst ht
        -- a thread that makes a step in the API is inside a call
        have hfree := hc.not_free
        cases hpc : (s.group g).worker
        case tdSend i r rsp cur =>
          rw [hpc] at ih
          rcases ih with hsend | ⟨code, hdone⟩
          · exact hc.send hsend
          · simp [hdone, Call.free] at hfree
        all_goals
          rw [hpc] at ih
          exact ih.imp id fun hold => by simp [hfree] at hold
      · rw [hc.call_of_ne (Ne.symm ht)]
        exact ih
  | @enter t q events s' he =>
      rw [he.group_eq]
      by_cases ht : t = .worker g
      · subst ht
        exact OwnCall.of_callback (he.inCallback)
      · rw [he.call_of_ne (Ne.symm ht)]
        exact ih
  | user hu => rw [hu.call_eq, hu.group_eq]; exact ih

/-- A worker interferes with no call in progress. -/
theorem Trace.call_kept (h : Trace L ok tr s)
    (hw : WorkerTrans (L.conf g) (s.env g) (s.group g) o G gevents)
    (hfree : (s.call t).free = false) :
    ((s.setGroup g G).emitAll L g gevents).call t = s.call t := by
  by_cases ht : t = .worker g
  · subst ht
    have hown := h.ownCall g
    rcases hw.own_call with ⟨i, r, cur, m, hpc, -, -, -⟩ |
      ⟨i, r, rsp, cur, code, hpc, hret, -, -⟩ | ⟨hsilent, -⟩
    · have hidle := hown.free (by simp [hpc, Pc.inCallback])
        (by simp [hpc, Pc.inAnswer])
      rw [hidle] at hfree
      cases hfree
    · cases hcall : s.call (.worker g) <;>
        simp_all [Sys.env, Call.free]
    · rw [Sys.emitAll_call_of_silent _ hsilent]
      rfl
  · rw [Sys.emitAll_call_of_ne ht]
    rfl

end Core
end Eaf
