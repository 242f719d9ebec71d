import Eaf.System.Phases
import Eaf.System.Records
import Eaf.System.Handlings

/-!
# The answers of teardown

Teardown makes a response to each request that it finds in a service, and passes it to
`eaf_send_rsp` on the thread of the worker.  Nobody but the worker ever gets hold of
this response: the guard of `eaf_send_rsp` refuses it, because the context is not busy
while a worker is in teardown.
-/

namespace Eaf
namespace Core

open LabelledRun

variable {L : Layout} {s s' : Sys} {g i : Nat} {t : Tid} {a : Act} {o : Outcome}
  {events tr : List Event} {gevents : List GroupEvent} {b : SendArgs} {m rsp : MsgRef}
  {r : MsgqRecord} {G G' : Group} {c : GroupTable} {e : Env}

/-! ## Responses nobody else has -/

/-- Nobody but the worker that made the response has it, and the send that was given
it has not passed its guard. -/
structure Unshared (L : Layout) (s : Sys) (rsp : MsgRef) : Prop where
  old : rsp < s.nextMsg
  owned : s.owned rsp = 0
  records : ∀ g i, ∀ r ∈ ((s.group g).table i).records, r.msg ≠ rsp
  calls : ∀ t b, (s.call t).send? = some b → b.msg = rsp →
    s.call t = .sendTest b ∧ b.loan = true ∧
      ∃ g < L.size, t = .worker g ∧ (s.group g).worker.inAnswer = true

theorem Unshared.not_current (h : Unshared L s rsp) (g : Nat) :
    (s.group g).current? ≠ some rsp := by
  intro hcur
  obtain ⟨i, r, -, hr, hmsg⟩ := Group.current?_some hcur
  exact h.records g i r (by simp [Service.records, hr]) hmsg

theorem Unshared.not_hooked (h : Unshared L s rsp) (t : Tid) :
    (s.call t).hooked? ≠ some rsp := by
  intro hhooked
  have hsend : ∃ b, (s.call t).send? = some b ∧ b.msg = rsp := by
    cases hcall : s.call t <;> simp_all [Call.hooked?, Call.send?]
  obtain ⟨b, hb, hmsg⟩ := hsend
  obtain ⟨htest, -⟩ := h.calls t b hb hmsg
  rw [htest] at hhooked
  cases hhooked

/-- User code cannot use the response. -/
theorem Unshared.not_accessible (h : Unshared L s rsp) {via : Sys.Via}
    (hvia : s.accessible L m via = true) : m ≠ rsp := by
  rintro rfl
  cases via with
  | owner => simp [Sys.accessible, h.owned] at hvia
  | current g => exact h.not_current g (by simp_all [Sys.accessible])
  | hook t =>
      refine h.not_hooked t ?_
      cases t <;> simp_all [Sys.accessible]

theorem Unshared.not_sendable (h : Unshared L s rsp) (hsend : s.maySend t b = true) :
    b.msg ≠ rsp := by
  rintro rfl
  unfold Sys.maySend at hsend
  split at hsend
  · cases t with
    | worker g => exact h.not_current g (by simpa using hsend)
    | client k => cases hsend
  · simp [h.owned] at hsend

/-- What has to be shown of a step after which no call is new. -/
theorem Unshared.keep (h : Unshared L s rsp) (hnext : s.nextMsg ≤ s'.nextMsg)
    (howned : s'.owned rsp = 0) (hgroup : s'.group = s.group)
    (hcalls : ∀ t b, (s'.call t).send? = some b → b.msg = rsp →
      s'.call t = s.call t) : Unshared L s' rsp where
  old := Nat.lt_of_lt_of_le h.old hnext
  owned := howned
  records g i r hr := by
    rw [hgroup] at hr
    exact h.records g i r hr
  calls t b hb hmsg := by
    have hsame := hcalls t b hb hmsg
    rw [hsame] at hb ⊢
    rw [hgroup]
    exact h.calls t b hb hmsg

/-- The worker of another group has nothing to do with the response, and the one that
waits for `eaf_send_rsp` does not move. -/
theorem Unshared.worker (h : Unshared L s rsp)
    (hw : WorkerTrans (L.conf g) (s.env g) (s.group g) o G gevents) :
    Unshared L ((s.setGroup g G).emitAll L g gevents) rsp := by
  have hnext := (Keeps.emitAll (L := L) (g := g) (s.setGroup g G) gevents).next
  have hrecords : ∀ k i, ∀ r ∈ ((((s.setGroup g G).emitAll L g gevents).group k).table
      i).records, r.msg ≠ rsp := by
    intro k i r hr
    rw [Sys.emitAll_group, Sys.setGroup_group] at hr
    by_cases hkg : k = g
    · subst hkg
      rw [Function.update_self] at hr
      exact h.records k i r (hw.mem_records hr)
    · rw [Function.update_of_ne hkg] at hr
      exact h.records k i r hr
  refine ⟨Nat.lt_of_lt_of_le h.old hnext, by simpa using h.owned, hrecords,
    fun t b hb hmsg => ?_⟩
  by_cases ht : t = .worker g
  · subst ht
    -- a worker whose answer has not returned cannot go on
    exfalso
    rcases hw.own_call with ⟨i, r, cur, x, -, -, rfl, -⟩ |
      ⟨i, r, rsp', cur, code, -, -, rfl, -⟩ | ⟨hsilent, hpc, -⟩
    · obtain rfl : L.answerArgs g i r s.nextMsg = b := by
        simpa [Sys.emitAll, Sys.emit, Call.send?, Layout.answerArgs, Sys.env] using hb
      exact absurd h.old (by rw [← hmsg]; exact Nat.lt_irrefl _)
    · simp [Sys.emitAll, Sys.emit, Call.send?] at hb
    · rw [Sys.emitAll_call_of_silent _ hsilent, Sys.setGroup_call] at hb
      obtain ⟨-, -, k, -, hk, hanswer⟩ := h.calls _ b hb hmsg
      obtain rfl := Tid.worker.inj hk
      rw [hanswer] at hpc
      cases hpc
  · rw [Sys.emitAll_call_of_ne ht, Sys.setGroup_call] at hb ⊢
    obtain ⟨htest, hloan, k, hk, rfl, hanswer⟩ := h.calls t b hb hmsg
    have hkg : k ≠ g := by
      rintro rfl
      exact ht rfl
    refine ⟨htest, hloan, k, hk, rfl, ?_⟩
    rw [Sys.emitAll_group, Sys.setGroup_group, Function.update_of_ne hkg]
    exact hanswer

/-- A call takes back a reference only if it was lent one. -/
theorem CallTrans.owned_eq (h : CallTrans L s t events s') :
    s'.owned = s.owned ∨ ∃ b, (s.call t).send? = some b ∧
      s'.owned = (s.takeBack b).owned := by
  cases h
  case sendRefused b h _ | sendVeto b _ h _ | sendDone b _ h =>
    exact .inr ⟨b, by rw [h]; rfl, rfl⟩
  all_goals exact .inl (by simp)

/-- The guard of `eaf_send_rsp` refuses the response. -/
theorem Unshared.call (h : Unshared L s rsp) (hrun : Trace L (serial L) tr s)
    (hlive : s.live = true ∨ (s.call t).atGuard = true)
    (hc : CallTrans L s t events s') : Unshared L s' rsp := by
  have hguard : ∀ b, (s.call t).send? = some b → b.msg = rsp →
      b.loan = true ∧ ∃ code, s'.call t = .done code := by
    intro b hb hmsg
    obtain ⟨htest, hloan, g, hg, rfl, hanswer⟩ := h.calls t b hb hmsg
    have hlate : (s.group g).worker.late = true := by
      cases hpc : (s.group g).worker <;> simp_all [Pc.inAnswer, Pc.late]
    have hclosing := hrun.late hg hlate
    refine ⟨hloan, ?_⟩
    cases hc
    case sendAccepted hctx =>
      rw [hctx] at hclosing
      cases hclosing
    case sendRefused => exact ⟨Errno.state, by simp⟩
    all_goals simp_all
  have hnext := (SysTrans.call (o := .plain) hlive hc).keeps.next
  refine ⟨Nat.lt_of_lt_of_le h.old hnext, ?_, fun k i r hr => ?_,
    fun t' b hb hmsg => ?_⟩
  · rcases hc.owned_eq with hsame | ⟨b, hb, hback⟩
    · rw [hsame, h.owned]
    · rw [hback, Sys.takeBack_owned, h.owned]
      by_cases hmsg : b.msg = rsp
      · simp [SendArgs.lent, (hguard b hb hmsg).1]
      · simp [SendArgs.lent, here, hmsg]
  · rcases hc.mem_records hr with hold | ⟨b, hcall, -⟩
    · exact h.records k i r hold
    · have hplaced := hrun.guards.calls.placed t
      rw [hcall] at hplaced
      rw [hplaced.2.2]
      intro hmsg
      obtain ⟨htest, -⟩ := h.calls t b (by rw [hcall]; rfl) hmsg
      rw [hcall] at htest
      cases htest
  · simp only [hc.worker_eq]
    by_cases ht : t' = t
    · subst ht
      obtain ⟨-, code, hdone⟩ := hguard b (hc.send_back hb) hmsg
      rw [hdone] at hb
      cases hb
    · rw [hc.call_of_ne ht] at hb ⊢
      exact h.calls t' b hb hmsg

theorem Unshared.enter {q : Request} (h : Unshared L s rsp)
    (he : EnterTrans L s t q events s') : Unshared L s' rsp := by
  have howned : s'.owned rsp = 0 := by
    cases he with
    | send hmay hsend =>
        have hlent := Sys.handOver_owned hsend rsp
        rw [h.owned] at hlent
        simp only [Sys.setCall_owned]
        omega
    | other => exact h.owned
  refine h.keep (by cases he <;> simp) howned he.group_eq fun t' b hb hmsg => ?_
  by_cases ht : t' = t
  · subst ht
    rw [he.call_self] at hb
    cases he with
    | send hmay hsend =>
        obtain rfl := Option.some.inj hb
        exact absurd hmsg (h.not_sendable hsend)
    | @other q hmay hq => cases q <;> simp_all [Request.start, Call.send?]
  · exact he.call_of_ne ht

theorem Unshared.user (h : Unshared L s rsp) (hu : UserTrans L s s') :
    Unshared L s' rsp := by
  have hold := Nat.ne_of_lt h.old
  have hstep : SysTrans L s (.user (.decRef 0)) [] s' := .user hu
  refine h.keep hstep.keeps.next ?_ hu.group_eq fun t b _ _ => by rw [hu.call_eq]
  have howned := h.owned
  cases hu with
  | createReq | createRsp => simpa [hold] using howned
  | addRef hvia => simpa [(h.not_accessible hvia).symm] using howned
  | decRef =>
      simp only [Sys.disown_owned, Sys.decRef_owned, Function.update_apply]
      split
      · subst_vars
        rw [howned]
      · exact howned
  | setReceipt | setToken | setRspFn => exact howned

/-- A response stays with the worker that made it. -/
theorem Unshared.step (h : Unshared L s rsp) (hrun : Trace L (serial L) tr s)
    (hstep : SysTrans L s a events s') : Unshared L s' rsp := by
  cases hstep with
  | worker hg hw => exact h.worker hw
  | call hlive hc => exact h.call hrun hlive hc
  | enter he => exact h.enter he
  | user hu => exact h.user hu

/-! ## The step that makes a response -/

/-- Only teardown answers. -/
theorem SysTrans.answer (h : SysTrans L s a events s')
    (hanswer : .group g (.answer i r rsp) ∈ events) :
    ∃ o cur x, a = .worker g o ∧ g < L.size ∧ (s.group g).worker = .tdMsg i r cur ∧
      s.msg r.msg = some x ∧ rsp = s.nextMsg ∧ events = [.group g (.answer i r rsp)] ∧
      s' = ((s.setGroup g ((s.group g).goto (.tdSend i r rsp cur))).alloc
        (s.answerTo r.msg)).setCall (.worker g) (.sendTest (L.answerArgs g i r rsp)) := by
  cases h with
  | @worker k o G gevents hk hw =>
      obtain ⟨ev, hev, heq⟩ := List.mem_map.mp hanswer
      obtain ⟨rfl, rfl⟩ := Event.group.inj heq
      rcases hw.own_call with ⟨j, r', cur, x, hpc, hx, rfl, rfl⟩ |
        ⟨j, r', rsp', cur, code, -, -, rfl, -⟩ | ⟨hsilent, -⟩
      · obtain ⟨rfl, rfl, rfl⟩ := GroupEvent.answer.inj (List.mem_singleton.mp hev)
        exact ⟨o, cur, x, rfl, hk, hpc, hx, rfl, rfl, rfl⟩
      · cases List.mem_singleton.mp hev
      · have hquiet := hsilent _ hev
        cases hquiet
  | call hlive hc => cases hc <;> simp at hanswer
  | enter he => cases he <;> simp at hanswer
  | user hu => cases hanswer

/-- The answer to a request is a response with the receipt `eaf_errno_state`. -/
theorem SysTrans.answer_msg (h : SysTrans L s a events s')
    (hanswer : .group g (.answer i r rsp) ∈ events) :
    ∃ x, s.msg r.msg = some x ∧
      s'.msg rsp = some (msgSetReceipt (msgCreateRsp x 0) Errno.state) := by
  obtain ⟨o, cur, x, -, -, -, hx, rfl, -, rfl⟩ := h.answer hanswer
  exact ⟨x, hx, by simp [Sys.answerTo, hx]⟩

/-- At a new address there is nothing that anybody could have. -/
theorem Balanced.owned_fresh (h : Balanced L s) : s.owned s.nextMsg = 0 := by
  have hcount := h.count s.nextMsg
  rw [Sys.count, h.fresh _ (Nat.le_refl _)] at hcount
  simp only [Sys.refs] at hcount
  omega

/-- When the response is made nobody else has it. -/
theorem Unshared.of_answer (hrun : Trace L (serial L) tr s)
    (h : SysTrans L s a events s') (hanswer : .group g (.answer i r rsp) ∈ events) :
    Unshared L s' rsp := by
  have bal := hrun.balanced
  have hfresh : ¬(s.msg s.nextMsg).isSome := by
    rw [bal.fresh _ (Nat.le_refl _)]
    exact Bool.false_ne_true
  obtain ⟨o, cur, x, -, hg, hpc, hx, rfl, -, rfl⟩ := h.answer hanswer
  refine ⟨Nat.lt_succ_self _, bal.owned_fresh, fun k j r' hr' hmsg => ?_,
    fun t b hb hmsg => ?_⟩
  · have hr : r' ∈ ((s.group k).table j).records := by
      by_cases hkg : k = g
      · subst hkg
        simpa using hr'
      · simpa [hkg] using hr'
    obtain ⟨hk, hreg, -⟩ := findService_some (hrun.record_target hr)
    rw [← hmsg] at hfresh
    exact hfresh (bal.live_of_group hk (Group.refs_pos hreg.1 hr))
  · by_cases ht : t = .worker g
    · subst ht
      obtain rfl : L.answerArgs g i r s.nextMsg = b := by
        simpa [Call.send?] using hb
      exact ⟨by simp, rfl, g, hg, rfl, by simp [Pc.inAnswer]⟩
    · have hb' : (s.call t).send? = some b := by simpa [ht] using hb
      rw [← hmsg] at hfresh
      exact absurd (hrun.live_of_send bal hb') hfresh

/-! ## No answer is enqueued -/

/-- Only a send pushes a record. -/
theorem SysTrans.pushed (h : SysTrans L s a events s') (hr : r ∈ pushed events) :
    ∃ t b g i, s.call t = .pushLock b g i r := by
  cases h with
  | worker hg hw =>
      rw [hw.pushed_eq_nil] at hr
      cases hr
  | @call t o events s' hlive hc =>
      cases hc
      case pushAccepted b k j r' G hcall hpush =>
        obtain rfl : r = r' := by simpa [Core.pushed, pushedRecord] using hr
        exact ⟨t, b, k, j, hcall⟩
      all_goals simp [Core.pushed, pushedRecord] at hr
  | enter he => cases he <;> simp [Core.pushed, pushedRecord] at hr
  | user hu => cases hr

/-- A record that is pushed has a message that exists. -/
theorem Trace.pushing (h : Trace L (serial L) tr s)
    (hcall : s.call t = .pushLock b g i r) :
    (s.call t).send? = some b ∧ r.msg = b.msg ∧ r.msg < s.nextMsg := by
  have hsend : (s.call t).send? = some b := by
    rw [hcall]
    rfl
  have hplaced := h.guards.calls.placed t
  rw [hcall] at hplaced
  refine ⟨hsend, hplaced.2.2, ?_⟩
  rw [hplaced.2.2]
  exact h.balanced.lt_nextMsg (h.live_of_send h.balanced hsend)

theorem Trace.pushed_old (h : Trace L (serial L) tr s) (hr : r ∈ pushed tr) :
    r.msg < s.nextMsg := by
  refine Trace.byTrans (P := fun tr s => ∀ r ∈ pushed tr, r.msg < s.nextMsg) h ?_ ?_ r hr
  · intro r hr
    cases hr
  · intro tr s a events s' hrun ih _ hstep r hr
    have hnext := hstep.keeps.next
    rw [pushed_append, List.mem_append] at hr
    rcases hr with hold | hnew
    · exact Nat.lt_of_lt_of_le (ih r hold) hnext
    · obtain ⟨t, b, g, i, hcall⟩ := hstep.pushed hnew
      exact Nat.lt_of_lt_of_le (hrun.pushing hcall).2.2 hnext

/-- **The answers of teardown.**  Nobody else gets hold of the response that teardown
makes, and no record of it is ever enqueued. -/
theorem Trace.unshared (h : Trace L (serial L) tr s)
    (hanswer : .group g (.answer i r rsp) ∈ tr) :
    Unshared L s rsp ∧ ∀ r' ∈ pushed tr, r'.msg ≠ rsp := by
  refine Trace.byTrans (P := fun tr s => .group g (.answer i r rsp) ∈ tr →
    Unshared L s rsp ∧ ∀ r' ∈ pushed tr, r'.msg ≠ rsp) h ?_ ?_ hanswer
  · intro hanswer
    cases hanswer
  · intro tr s a events s' hrun ih _ hstep hanswer
    rcases List.mem_append.mp hanswer with hold | hnew
    · obtain ⟨hunshared, hnone⟩ := ih hold
      refine ⟨hunshared.step hrun hstep, fun r' hr' hmsg => ?_⟩
      rw [pushed_append, List.mem_append] at hr'
      rcases hr' with hr' | hr'
      · exact hnone r' hr' hmsg
      · obtain ⟨t, b, k, j, hcall⟩ := hstep.pushed hr'
        obtain ⟨hsend, hrb, -⟩ := hrun.pushing hcall
        obtain ⟨htest, -⟩ := hunshared.calls t b hsend (hrb ▸ hmsg)
        rw [hcall] at htest
        cases htest
    · refine ⟨.of_answer hrun hstep hnew, fun r' hr' hmsg => ?_⟩
      obtain ⟨o, cur, x, -, -, -, -, hnext, hevents, -⟩ := hstep.answer hnew
      have hquiet : pushed events = [] := by
        rw [hevents]
        rfl
      rw [pushed_append, hquiet, List.append_nil] at hr'
      have hlt := hrun.pushed_old hr'
      rw [hmsg, hnext] at hlt
      exact Nat.lt_irrefl _ hlt

end Core
end Eaf
