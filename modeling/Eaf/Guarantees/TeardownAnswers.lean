import Eaf.System.TeardownAnswers
import Eaf.Guarantees.AcceptedMessages

/-!
# Requests in teardown

Teardown makes a response to each request that it finds in a service it exits, before
it destroys the request, and gives the response to `eaf_send_rsp`.  But that function
refuses to send anything during teardown, so the service the request came from never
gets the response.
-/

namespace Eaf
namespace Core

open LabelledRun SequentialMailbox

variable {L : Layout} {s s' : Sys} {g i : Nat} {t : Tid} {a : Act} {o : Outcome}
  {events tr tr' : List Event} {gevents : List GroupEvent} {rsp : MsgRef}
  {r : MsgqRecord} {G G' : Group} {c : GroupTable} {e : Env}

/-! ## How often a request is answered -/

/-- The response that an event shows being made for the request of `r`. -/
def answerTo (i : Nat) (r : MsgqRecord) : GroupEvent → Option MsgRef
  | .answer j r' rsp => if j = i ∧ r' = r then some rsp else none
  | _ => none

/-- One if the worker is about to answer the request of `r`. -/
def Pc.answering (i : Nat) (r : MsgqRecord) : Pc → Nat
  | .tdMsg j r' _ => if j = i ∧ r' = r then 1 else 0
  | _ => 0

/-- What the mailbox shows of teardown taking up the record. -/
def takenUp (i : Nat) (r : MsgqRecord) (gtr : List GroupEvent) : Nat :=
  (gtr.filterMap (mailboxEvent i)).count (.cancel r) +
    (gtr.filterMap (mailboxEvent i)).count (.flush r)

@[simp] theorem takenUp_append (gtr gtr' : List GroupEvent) :
    takenUp i r (gtr ++ gtr') = takenUp i r gtr + takenUp i r gtr' := by
  simp only [takenUp, List.filterMap_append, List.count_append]
  omega

@[simp] theorem handlerPc_answering (ph : Phase) (j : Nat) (fn : Option Fn) :
    (handlerPc ph j fn).answering i r = 0 := by
  cases fn <;> rfl

/-- A record is taken up before its request is answered. -/
theorem WorkerTrans.answering (h : WorkerTrans c e G o G' gevents) :
    (gevents.filterMap (answerTo i r)).length + G'.worker.answering i r ≤
      G.worker.answering i r + takenUp i r gevents := by
  cases h
  case readyNone n h _ =>
    split <;> simp [Pc.answering, answerTo, List.filterMap_cons]
  case initDone idx caller h _ _ =>
    cases caller <;> simp [afterInit, Pc.answering, answerTo, List.filterMap_cons]
  case dispatchReenter | beforeStart => simp [answerTo, List.filterMap_cons]
  case tdAnswer j r' cur x h _ _ _ =>
    by_cases hr : j = i ∧ r' = r
    · simp [h, Pc.answering, answerTo, hr]
    · simp [h, Pc.answering, answerTo, hr]
  case tdExitedCur j r' h _ _ =>
    by_cases hj : j = i
    · by_cases hr : r' = r
      · simp [h, Pc.answering, answerTo, takenUp, mailboxEvent, List.filterMap_cons,
          hj, hr]
      · simp [h, Pc.answering, answerTo, List.filterMap_cons, hr]
    · simp [h, Pc.answering, answerTo, List.filterMap_cons, hj]
  case tdPopSome j r' rest h _ =>
    by_cases hj : j = i
    · by_cases hr : r' = r
      · simp [h, Pc.answering, answerTo, takenUp, mailboxEvent, List.filterMap_cons,
          hj, hr]
      · simp [h, Pc.answering, answerTo, List.filterMap_cons, hr]
    · simp [h, Pc.answering, answerTo, List.filterMap_cons, hj]
  all_goals simp [Pc.answering, answerTo, List.filterMap_cons]

theorem GroupStep.answering (h : GroupStep c G gevents G') :
    (gevents.filterMap (answerTo i r)).length + G'.worker.answering i r ≤
      G.worker.answering i r + takenUp i r gevents := by
  cases h with
  | work _ h => exact h.answering
  | fix => simp
  | push _ _ h =>
      rw [(Group.pushMsg_some h).2.2.1]
      simp [answerTo, List.filterMap_cons]
  | resume _ h =>
      obtain ⟨-, rfl⟩ := Group.resumeService_some h
      simp [answerTo, List.filterMap_cons]
  | post => simp
  | purgeQueued | purgeCurrent => simp [answerTo, List.filterMap_cons]

theorem GroupRun.answering {gtr : List GroupEvent} (h : GroupRun c gtr G) :
    (gtr.filterMap (answerTo i r)).length + G.worker.answering i r ≤ takenUp i r gtr := by
  refine h.invariant (P := fun gtr G => (gtr.filterMap (answerTo i r)).length +
    G.worker.answering i r ≤ takenUp i r gtr) (Nat.le_refl _) ?_
  intro gtr G gevents G' _ ih hstep
  have hmore := hstep.answering (i := i) (r := r)
  simp only [List.filterMap_append, List.length_append, takenUp_append]
  omega

/-- The responses that teardown has made for the request of `r`. -/
def answersTo (g i : Nat) (r : MsgqRecord) (tr : List Event) : List MsgRef :=
  (tr.filterMap (groupEvent g)).filterMap (answerTo i r)

theorem mem_answersTo : rsp ∈ answersTo g i r tr ↔ .group g (.answer i r rsp) ∈ tr := by
  constructor
  · intro hmem
    obtain ⟨ev, hev, hview⟩ := List.mem_filterMap.mp hmem
    cases ev <;> simp [answerTo] at hview
    obtain ⟨⟨rfl, rfl⟩, rfl⟩ := hview
    exact of_mem_groupEvents hev
  · intro hmem
    exact List.mem_filterMap.mpr ⟨_, mem_groupEvents hmem, by simp [answerTo]⟩

/-- A request is answered at most once. -/
theorem Trace.answersTo_le_one (h : Trace L (serial L) tr s) (hi : i < (L.conf g).size) :
    (answersTo g i r tr).length ≤ 1 := by
  have hgroup : GroupRun (L.conf g) (tr.filterMap (groupEvent g)) (s.group g) := h.groupRun
  have hanswers := hgroup.answering (i := i) (r := r)
  obtain ⟨m, hist, -⟩ := hgroup.mailbox hi
  have hnodup := h.nodup_pushed.sublist (puts_sublist_pushed tr g i)
  have honce := count_done_le_one hist hnodup r
  simp only [answersTo, takenUp] at hanswers ⊢
  omega

/-! ## Requests that wait for their answer -/

/-- The worker is in `_eaf_service_teardown` with service `i`. -/
def Pc.tearsDown (i : Nat) : Pc → Bool
  | .tdInExit j | .tdMsg j _ _ | .tdSend j _ _ _ | .tdFree j _ _ | .tdPop j
  | .tdExit1 j => decide (j = i)
  | _ => false

/-- The worker is about to answer the request of `r`. -/
def Pc.atRequest (i : Nat) (r : MsgqRecord) : Pc → Prop
  | .tdMsg j r' _ => j = i ∧ r' = r
  | _ => False

/-- The worker has answered the request of `r`, or has no answer to make. -/
def Pc.pastRequest (i : Nat) (r : MsgqRecord) : Pc → Prop
  | .tdSend j r' _ _ | .tdFree j r' _ => j = i ∧ r' = r
  | _ => False

/-- Service `i` is in teardown, and has the record. -/
structure Waits (G : Group) (i : Nat) (r : MsgqRecord) : Prop where
  worker : G.worker.tearsDown i = true
  record : r ∈ (G.table i).records ∨ G.worker.atRequest i r
  before : ¬G.worker.pastRequest i r

/-- Teardown does not let go of a record before it has answered it. -/
theorem WorkerTrans.waits (h : WorkerTrans c e G o G' gevents) (inv : GroupInv c G)
    (hw : Waits G i r) (hreq : ∀ x, e.msg r.msg = some x → msgGetType x = .req) :
    (Waits G' i r ∧ .release i r ∉ gevents) ∨ ∃ rsp, gevents = [.answer i r rsp] := by
  obtain ⟨hworker, hrecord, hbefore⟩ := hw
  have hfocus := inv.focus
  cases h
  case tdExitedIdle j h hcall hcur =>
    obtain rfl : j = i := by simpa [h, Pc.tearsDown] using hworker
    refine .inl ⟨⟨by simp [Pc.tearsDown], .inl ?_, id⟩, by simp⟩
    simpa [h, Pc.atRequest] using hrecord
  case tdExitedCur j r' h hcall hcur =>
    obtain rfl : j = i := by simpa [h, Pc.tearsDown] using hworker
    refine .inl ⟨⟨by simp [Pc.tearsDown], .inl ?_, id⟩, by simp⟩
    simpa [h, Pc.atRequest] using hrecord
  case tdAnswer j r' cur x h hmsg htype hok =>
    obtain rfl : j = i := by simpa [h, Pc.tearsDown] using hworker
    by_cases hr : r' = r
    · exact .inr ⟨e.nextMsg, by rw [hr]⟩
    · refine .inl ⟨⟨by simp [Pc.tearsDown], .inl ?_, by simp [Pc.pastRequest, hr]⟩,
        by simp⟩
      simpa [h, Pc.atRequest, hr] using hrecord
  case tdNoAnswer j r' cur x h hmsg htype =>
    obtain rfl : j = i := by simpa [h, Pc.tearsDown] using hworker
    have hr : r' ≠ r := by
      rintro rfl
      rw [hreq x hmsg] at htype
      cases htype
    refine .inl ⟨⟨by simp [Pc.tearsDown], .inl ?_, by simp [Pc.pastRequest, hr]⟩,
      by simp⟩
    simpa [h, Pc.atRequest, hr] using hrecord
  case tdSent j r' rsp cur code h hret =>
    obtain rfl : j = i := by simpa [h, Pc.tearsDown] using hworker
    have hr : r' ≠ r := by simpa [h, Pc.pastRequest] using hbefore
    refine .inl ⟨⟨by simp [Pc.tearsDown], .inl ?_, by simp [Pc.pastRequest, hr]⟩,
      by simp⟩
    simpa [h, Pc.atRequest] using hrecord
  case tdFreeCur j r' h =>
    obtain rfl : j = i := by simpa [h, Pc.tearsDown] using hworker
    have hr : r' ≠ r := by simpa [h, Pc.pastRequest] using hbefore
    have hholds := (inv.sound j (hfocus j (by rw [h]; rfl))).holds
    rw [h] at hholds
    have hcur : (G.table j).curMsg = some r' := (hholds rfl).2
    refine .inl ⟨⟨by simp [Pc.tearsDown], .inl ?_, id⟩, by simp [hr.symm]⟩
    simpa [h, Pc.atRequest, Service.records, hcur, hr, hr.symm] using hrecord
  case tdFreeQueued j r' h =>
    obtain rfl : j = i := by simpa [h, Pc.tearsDown] using hworker
    have hr : r' ≠ r := by simpa [h, Pc.pastRequest] using hbefore
    refine .inl ⟨⟨by simp [Pc.tearsDown], .inl ?_, id⟩, by simp [hr.symm]⟩
    simpa [h, Pc.atRequest] using hrecord
  case tdPopNone j h hq =>
    obtain rfl : j = i := by simpa [h, Pc.tearsDown] using hworker
    refine .inl ⟨⟨by simp [Pc.tearsDown], .inl ?_, id⟩, by simp⟩
    simpa [h, Pc.atRequest] using hrecord
  case tdPopSome j r' rest h hq =>
    obtain rfl : j = i := by simpa [h, Pc.tearsDown] using hworker
    refine .inl ⟨⟨by simp [Pc.tearsDown], ?_, id⟩, by simp⟩
    by_cases hr : r' = r
    · exact .inr ⟨rfl, hr⟩
    · left
      simpa [h, Pc.atRequest, Service.records, hq, Ne.symm hr] using hrecord
  case tdSetExit1 j h =>
    obtain rfl : j = i := by simpa [h, Pc.tearsDown] using hworker
    have hholds := (inv.sound j (hfocus j (by rw [h]; rfl))).holds
    rw [h] at hholds
    obtain ⟨-, hcur, hq⟩ := hholds rfl
    simp [h, Pc.atRequest, Service.records, hcur, hq] at hrecord
  all_goals simp_all [Pc.tearsDown]

/-- Calls take no record from a group whose worker has not returned. -/
theorem CallTrans.leaves (h : CallTrans L s t events s') (calls : CallFacts L s)
    (hgoing : ∀ site, (s.group g).worker ≠ .returned site)
    (hr : r ∈ ((s.group g).table i).records) :
    r ∈ ((s'.group g).table i).records := by
  -- most calls change one group, if they change a group at all
  have hgroup : ∀ {k : Nat} {H : Group},
      (k = g → r ∈ (H.table i).records) →
      r ∈ ((Function.update s.group k H g).table i).records := by
    intro k H hkeeps
    by_cases hgk : g = k
    · subst hgk
      rw [Function.update_self]
      exact hkeeps rfl
    · rwa [Function.update_of_ne hgk]
  cases h
  case pushAccepted b k j r' G hcall hpush =>
    refine hgroup fun hk => ?_
    subst hk
    rw [(Group.pushMsg_some hpush).2.1]
    by_cases hij : i = j
    · subst hij
      rw [Function.update_self]
      rcases List.mem_append.mp hr with hcur | hq
      · exact List.mem_append_left _ hcur
      · exact List.mem_append_right _ (List.mem_append_left _ hq)
    · rwa [Function.update_of_ne hij]
  case resumeAccepted k j G hcall hresume =>
    refine hgroup fun hk => ?_
    subst hk
    obtain ⟨-, rfl⟩ := Group.resumeService_some hresume
    by_cases hij : i = j
    · subst hij
      simpa [Service.records] using hr
    · simpa [hij] using hr
  case loadFixed k _ _ =>
    refine hgroup fun hk => ?_
    subst hk
    rw [loadFixState_records]
    exact hr
  case cleanQueued k j _ _ hcall _ _ | cleanCurrent k j _ hcall _ _ _ =>
    refine hgroup fun hk => ?_
    subst hk
    obtain ⟨site, hsite⟩ := calls.joined t k j hcall
    exact absurd hsite (hgoing site)
  case pushPosted k _ | resumePosted k _ | exitPosted k _ _ | loadPosted k _ _ =>
    refine hgroup fun hk => ?_
    subst hk
    exact hr
  all_goals simpa using hr

theorem Pc.tearsDown_not_returned {pc : Pc} (h : pc.tearsDown i = true)
    (site : ReturnSite) : pc ≠ .returned site := by
  rintro rfl
  cases h

/-- Calls show no release of a record in such a group. -/
theorem CallTrans.no_release (h : CallTrans L s t events s') (calls : CallFacts L s)
    (hgoing : ∀ site, (s.group g).worker ≠ .returned site) :
    .group g (.release i r) ∉ events := by
  intro hrelease
  cases h
  case cleanCurrent k j r' hcall _ _ _ =>
    obtain ⟨site, hsite⟩ := calls.joined t k j hcall
    obtain ⟨rfl, -⟩ : g = k ∧ i = j ∧ r = r' := by simpa using hrelease
    exact hgoing site hsite
  all_goals simp at hrelease

/-- A request waits until it is answered, whatever other threads do. -/
theorem SysTrans.waits (h : SysTrans L s a events s') (hrun : Trace L (serial L) tr s)
    (hw : Waits (s.group g) i r) (hreq : ∀ x, s.msg r.msg = some x → msgGetType x = .req) :
    (Waits (s'.group g) i r ∧ .group g (.release i r) ∉ events) ∨
      ∃ rsp, events = [.group g (.answer i r rsp)] := by
  cases h with
  | @worker k o G gevents hk hwork =>
      rw [Sys.emitAll_group, Sys.setGroup_group]
      by_cases hgk : g = k
      · subst hgk
        rw [Function.update_self]
        rcases hwork.waits (GroupInv.ofRun hrun.groupRun) hw hreq with
          ⟨hnext, hnone⟩ | ⟨rsp, rfl⟩
        · exact .inl ⟨hnext, by simpa using hnone⟩
        · exact .inr ⟨rsp, rfl⟩
      · rw [Function.update_of_ne hgk]
        exact .inl ⟨hw, by simp [Ne.symm hgk]⟩
  | @call t o _ _ hlive hc =>
      have hgoing := Pc.tearsDown_not_returned hw.worker
      have calls := hrun.guards.calls
      refine .inl ⟨⟨?_, ?_, ?_⟩, hc.no_release calls hgoing⟩
      · rw [hc.worker_eq]
        exact hw.worker
      · rw [hc.worker_eq]
        exact hw.record.imp (hc.leaves calls hgoing) id
      · rw [hc.worker_eq]
        exact hw.before
  | enter he =>
      rw [he.group_eq]
      exact .inl ⟨hw, by cases he <;> simp⟩
  | user hu =>
      rw [hu.group_eq]
      exact .inl ⟨hw, List.not_mem_nil⟩

/-- A request that waits in a service in teardown stays there until it is answered. -/
theorem Trace.waits {x : Msg} (hrun : Trace L (serial L) tr s)
    (hw : Waits (s.group g) i r) (hx : s.msg r.msg = some x) (htype : msgGetType x = .req)
    (h : Run (Guarded (step L) (serial L)) s tr' s') :
    (Waits (s'.group g) i r ∧ .group g (.release i r) ∉ tr') ∨
      ∃ front rsp back, tr' = front ++ .group g (.answer i r rsp) :: back ∧
        .group g (.release i r) ∉ front := by
  have hlt := hrun.balanced.lt_nextMsg (Option.isSome_iff_exists.mpr ⟨x, hx⟩)
  suffices Keeps s s' ∧ ((Waits (s'.group g) i r ∧ .group g (.release i r) ∉ tr') ∨
      ∃ front rsp back, tr' = front ++ .group g (.answer i r rsp) :: back ∧
        .group g (.release i r) ∉ front) from this.2
  refine h.invariant (P := fun tr' s' => Keeps s s' ∧
    ((Waits (s'.group g) i r ∧ .group g (.release i r) ∉ tr') ∨
      ∃ front rsp back, tr' = front ++ .group g (.answer i r rsp) :: back ∧
        .group g (.release i r) ∉ front))
    ⟨.of_eq rfl rfl, .inl ⟨hw, List.not_mem_nil⟩⟩ ?_
  rintro tr' u events u' hrun' ⟨hkeeps, ih⟩ ⟨a, hserial, hstep⟩
  have htrans := step_trans hstep
  refine ⟨hkeeps.trans htrans.keeps, ?_⟩
  rcases ih with ⟨hwaits, hnone⟩ | ⟨front, rsp, back, rfl, hnone⟩
  · have hreq : ∀ y, u.msg r.msg = some y → msgGetType y = .req := by
      intro y hy
      obtain ⟨x', hx', halike⟩ := hkeeps.alike r.msg hlt y hy
      obtain rfl := Option.some.inj (hx.symm.trans hx')
      exact halike.type.trans htype
    rcases htrans.waits (hrun.trans hrun') hwaits hreq with ⟨hnext, hnone'⟩ | ⟨rsp, rfl⟩
    · exact .inl ⟨hnext, fun hmem => (List.mem_append.mp hmem).elim hnone hnone'⟩
    · exact .inr ⟨tr', rsp, [], rfl, hnone⟩
  · exact .inr ⟨front, rsp, back ++ events, by simp, hnone⟩

/-! ## Teardown -/

/-- The service that the request of `r` came from is registered and not exited. -/
def CanAnswer (L : Layout) (s : Sys) (r : MsgqRecord) : Prop :=
  ∃ g i, findService L r.src = some (g, i) ∧
    ((s.group g).table i).state ≠ .exit0 ∧ ((s.group g).table i).state ≠ .exit1

/-- In the run from `s` to `s'` the request of `r` is answered exactly once, as the trace
`tr` before it shows too: teardown has made a response with the receipt
`eaf_errno_state`, it was enqueued on the service the request came from if that one can
be answered, and the request was not destroyed before. -/
def AnsweredOnce (L : Layout) (g i : Nat) (r : MsgqRecord) (tr : List Event) (s : Sys)
    (tr' : List Event) (s' : Sys) : Prop :=
  ∃ rsp, answersTo g i r (tr ++ tr') = [rsp] ∧
    (∃ front u events u' back x, Run (Guarded (step L) (serial L)) s front u ∧
      Guarded (step L) (serial L) u events u' ∧
      Run (Guarded (step L) (serial L)) u' back s' ∧ tr' = front ++ events ++ back ∧
      .group g (.answer i r rsp) ∈ events ∧ u.msg r.msg = some x ∧
      u'.msg rsp = some (msgSetReceipt (msgCreateRsp x 0) Errno.state)) ∧
    (CanAnswer L s r → Accepted L (tr ++ tr') (L.answerArgs g i r rsp)) ∧
    ∀ front back, tr' = front ++ .group g (.release i r) :: back →
      .group g (.answer i r rsp) ∈ front

/-- No answer of teardown is enqueued. -/
theorem Trace.not_accepted (h : Trace L (serial L) tr s)
    (hanswer : .group g (.answer i r rsp) ∈ tr) :
    ¬Accepted L tr (L.answerArgs g i r rsp) := by
  rintro ⟨k, j, r', st, -, hpush, -, -, hmsg⟩
  have hpushed : r' ∈ pushed tr := List.mem_filterMap.mpr ⟨_, hpush, rfl⟩
  exact (h.unshared hanswer).2 r' hpushed hmsg

/-- A request whose sender can be answered is not. -/
theorem not_answered (h : Trace L (serial L) (tr ++ tr') s') (hcan : CanAnswer L s r) :
    ¬AnsweredOnce L g i r tr s tr' s' := by
  rintro ⟨rsp, honce, -, hsent, -⟩
  have hanswer : .group g (.answer i r rsp) ∈ tr ++ tr' := by
    rw [← mem_answersTo, honce]
    exact List.mem_singleton_self rsp
  exact h.not_accepted hanswer (hsent hcan)

/-- What comes after an event that is not in the front. -/
theorem mem_front {α : Type*} {x y : α} {front back front' back' : List α}
    (hsplit : front ++ x :: back = front' ++ y :: back') (hy : y ∉ front) (hxy : x ≠ y) :
    x ∈ front' := by
  rcases List.append_eq_append_iff.mp hsplit with ⟨rest, rfl, hrest⟩ | ⟨rest, rfl, hrest⟩
  · cases rest with
    | nil => exact absurd (List.cons_eq_cons.mp hrest).1 hxy
    | cons z rest =>
        obtain ⟨rfl, -⟩ := List.cons_eq_cons.mp hrest
        exact List.mem_append_right _ List.mem_cons_self
  · cases rest with
    | nil => exact absurd (List.cons_eq_cons.mp hrest).1.symm hxy
    | cons z rest =>
        obtain ⟨rfl, -⟩ := List.cons_eq_cons.mp hrest
        exact absurd (List.mem_append_right _ List.mem_cons_self) hy

/-- A service about to become `exit1` has no record left. -/
theorem Trace.not_waiting (h : Trace L (serial L) tr s)
    (hpc : (s.group g).worker = .tdExit1 i) : ¬Waits (s.group g) i r := by
  intro hw
  have inv : GroupInv (L.conf g) (s.group g) := GroupInv.ofRun h.groupRun
  have hholds := (inv.sound i (inv.focus i (by rw [hpc]; rfl))).holds
  rw [hpc] at hholds
  obtain ⟨-, hcur, hq⟩ := hholds rfl
  have hrecord := hw.record
  simp [hpc, Pc.atRequest, Service.records, hcur, hq] at hrecord

/-- **Requests in teardown.**  Let `r` be the record of a request that is the current
message of a service or waits in its queue when teardown calls `on_exit` of the service.
When teardown is about to set the service to `exit1`, the request has been answered
exactly once if and only if the service it came from cannot be answered. -/
theorem teardown_answers_iff {x : Msg} (h : Trace L (serial L) tr s)
    (hpc : (s.group g).worker = .tdInExit i) (hr : r ∈ ((s.group g).table i).records)
    (hx : s.msg r.msg = some x) (htype : msgGetType x = .req)
    (h' : Run (Guarded (step L) (serial L)) s tr' s')
    (hpc' : (s'.group g).worker = .tdExit1 i) :
    AnsweredOnce L g i r tr s tr' s' ↔ ¬CanAnswer L s r := by
  have hwhole : Trace L (serial L) (tr ++ tr') s' := h.trans h'
  have hwaits : Waits (s.group g) i r := by
    refine ⟨by simp [hpc, Pc.tearsDown], .inl hr, ?_⟩
    rw [hpc]
    exact id
  constructor
  · exact fun hanswered hcan => not_answered hwhole hcan hanswered
  · intro hcannot
    rcases h.waits hwaits hx htype h' with ⟨hstill, -⟩ | ⟨front, rsp, back, rfl, hnone⟩
    · exact absurd hstill (hwhole.not_waiting hpc')
    · have hanswer : .group g (.answer i r rsp) ∈
          front ++ .group g (.answer i r rsp) :: back :=
        List.mem_append_right _ List.mem_cons_self
      have inv : GroupInv (L.conf g) (s.group g) := GroupInv.ofRun h.groupRun
      have hle := hwhole.answersTo_le_one (r := r) (inv.focus i (by rw [hpc]; rfl))
      have hmem : rsp ∈ answersTo g i r (tr ++ (front ++ .group g (.answer i r rsp) :: back)) :=
        mem_answersTo.mpr (List.mem_append_right _ hanswer)
      have honce : answersTo g i r (tr ++ (front ++ .group g (.answer i r rsp) :: back)) =
          [rsp] := by
        obtain ⟨rsp', hrsp'⟩ : ∃ rsp', answersTo g i r
            (tr ++ (front ++ .group g (.answer i r rsp) :: back)) = [rsp'] :=
          List.length_eq_one_iff.mp (Nat.le_antisymm hle (List.length_pos_of_mem hmem))
        rw [hrsp'] at hmem ⊢
        rw [List.mem_singleton.mp hmem]
      obtain ⟨before, u, events, u', after, hbefore, hstep, hafter, hsplit, hshown⟩ :=
        h'.step_of_mem hanswer
      obtain ⟨a, -, hnext⟩ := id hstep
      obtain ⟨y, hy, hrsp⟩ := (step_trans hnext).answer_msg hshown
      refine ⟨rsp, honce, ⟨before, u, events, u', after, y, hbefore, hstep, hafter, hsplit,
        hshown, hy, hrsp⟩, fun hcan => absurd hcan hcannot, fun front' back' hrelease => ?_⟩
      exact mem_front hrelease hnone (by simp)

/-- A request of service `src` waits in the lazily loaded service when `eaf_teardown`
takes effect, and the worker calls `on_exit` of that service. -/
def lazyPairWaiting (src : UInt32) : List Act :=
  lazyPairLoad ++
    [.user (.createReq 5 0 0),
      .enter (.client 1) (.send ⟨.req, src, 1, 0, false⟩)] ++
    clientSteps 1 8 ++ [.enter (.client 1) .teardown] ++ clientSteps 1 5 ++
    workerSteps 0 3

/-- The rest of the teardown of that service. -/
def lazyPairAnswer : List Act :=
  workerSteps 0 3 ++ [.call (.worker 0) .plain] ++ workerSteps 0 3

/-- The state before and after, in which the request of `src` waits and is gone. -/
theorem exists_teardown (src : UInt32) (code : Int)
    (h : (replay (step lazyPair) (serial lazyPair) (Sys.initial lazyPair)
      (lazyPairWaiting src)).any (fun o => decide ((o.1.group 0).worker = .tdInExit 0 ∧
        ((o.1.group 0).table 0).queue = [⟨0, some 7, src, 1, 0⟩] ∧
        (o.1.msg 0).map msgGetType = some .req ∧
        ((o.1.group 0).table 1).state = .idle) &&
        (replay (step lazyPair) (serial lazyPair) o.1 lazyPairAnswer).any
          fun (p : Sys × List Event) => decide ((p.1.group 0).worker = .tdExit1 0 ∧
            .group 0 (.answered 0 ⟨0, some 7, src, 1, 0⟩ 1 code) ∈ p.2)) = true) :
    ∃ tr s x tr' s', Trace lazyPair (serial lazyPair) tr s ∧
      (s.group 0).worker = .tdInExit 0 ∧
      ⟨0, some 7, src, 1, 0⟩ ∈ ((s.group 0).table 0).records ∧
      s.msg 0 = some x ∧ msgGetType x = .req ∧
      ((s.group 0).table 1).state = .idle ∧
      Run (Guarded (step lazyPair) (serial lazyPair)) s tr' s' ∧
      (s'.group 0).worker = .tdExit1 0 ∧
      .group 0 (.answered 0 ⟨0, some 7, src, 1, 0⟩ 1 code) ∈ tr' := by
  obtain ⟨s, tr, hrun, hcheck⟩ := exists_run_of_replay h
  obtain ⟨hfirst, hsecond⟩ := (Bool.and_eq_true _ _).mp hcheck
  obtain ⟨hpc, hq, htype, hidle⟩ := of_decide_eq_true hfirst
  obtain ⟨s', tr', hrun', hcheck'⟩ := exists_run_of_replay hsecond
  obtain ⟨hpc', hcode⟩ := of_decide_eq_true hcheck'
  obtain ⟨x, hx, hreq⟩ := Option.map_eq_some_iff.mp htype
  refine ⟨tr, s, x, tr', s', hrun, hpc, ?_, hx, hreq, hidle, hrun', hpc', hcode⟩
  have hqueue : ((s.group 0).table 0).queue = [⟨0, some 7, src, 1, 0⟩] := hq
  simp [Service.records, hqueue]

/-- Nobody is registered under the id that the request came from. -/
theorem teardown_answers_unknown :
    ∃ tr s tr' s', Trace lazyPair (serial lazyPair) (tr ++ tr') s' ∧
      AnsweredOnce lazyPair 0 0 ⟨0, some 7, 9, 1, 0⟩ tr s tr' s' := by
  obtain ⟨tr, s, x, tr', s', hrun, hpc, hr, hx, htype, -, hrun', hpc', -⟩ :=
    exists_teardown 9 Errno.state (by decide +kernel)
  refine ⟨tr, s, tr', s', hrun.trans hrun',
    (teardown_answers_iff hrun hpc hr hx htype hrun' hpc').mpr ?_⟩
  rintro ⟨g, i, hfind, -⟩
  have hnone : findService lazyPair 9 = none := by decide
  rw [hnone] at hfind
  cases hfind

/-- The request came from the ordinary service, which is idle and gets no answer. -/
theorem teardown_unanswered :
    ∃ tr s tr' s', Trace lazyPair (serial lazyPair) tr s ∧
      (s.group 0).worker = .tdInExit 0 ∧
      ⟨0, some 7, 2, 1, 0⟩ ∈ ((s.group 0).table 0).records ∧
      CanAnswer lazyPair s ⟨0, some 7, 2, 1, 0⟩ ∧
      Run (Guarded (step lazyPair) (serial lazyPair)) s tr' s' ∧
      (s'.group 0).worker = .tdExit1 0 ∧
      .group 0 (.answered 0 ⟨0, some 7, 2, 1, 0⟩ 1 Errno.state) ∈ tr' ∧
      ¬AnsweredOnce lazyPair 0 0 ⟨0, some 7, 2, 1, 0⟩ tr s tr' s' := by
  obtain ⟨tr, s, x, tr', s', hrun, hpc, hr, hx, htype, hidle, hrun', hpc', hcode⟩ :=
    exists_teardown 2 Errno.state (by decide +kernel)
  have hcan : CanAnswer lazyPair s ⟨0, some 7, 2, 1, 0⟩ := by
    refine ⟨0, 1, by decide, ?_, ?_⟩
    · rw [hidle]
      decide
    · rw [hidle]
      decide
  exact ⟨tr, s, tr', s', hrun, hpc, hr, hcan, hrun', hpc', hcode,
    not_answered (hrun.trans hrun') hcan⟩

end Core
end Eaf
