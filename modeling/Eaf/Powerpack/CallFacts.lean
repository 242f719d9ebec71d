import Eaf.Powerpack.CallHistory
import Eaf.Powerpack.CallTables

/-!
# What is known about a call

For every point in the code of the caller, what its call has seen so far, where
its record is, and, while it is calm, who is to resume it.
-/

namespace Eaf
namespace Powerpack

open Core KeyedTable

namespace CallHistory

/-- The call has not been finalized. -/
structure Open (h : CallHistory) : Prop where
  finalized : h.finalized = .none
  releasedReqs : h.releasedReqs = []
  freedRecords : h.freedRecords = 0

/-- The request has been made, and nothing else has happened. -/
structure Begun (calm : Prop) (h : CallHistory) (req : MsgRef) : Prop where
  req : h.req = some req
  opened : h.Open
  sendCode : h.sendCode = .none
  stored : h.stored = .none
  resumes : calm → h.resumes = 0

/-- The send has failed. -/
def Failed (h : CallHistory) : Prop :=
  h.stored = .none ∧ ∃ e, h.sendCode = some e ∧ e < 0

/-- The send has succeeded, and there is no response. -/
def Unanswered (h : CallHistory) : Prop :=
  h.stored = .none ∧ ∃ e, h.sendCode = some e ∧ 0 ≤ e

/-- The send has succeeded, and there is a response. -/
def Answered (h : CallHistory) : Prop :=
  (∃ rsp, h.stored = some rsp) ∧ ∃ e, h.sendCode = some e ∧ 0 ≤ e

/-- What `eaf_message_internal_finalize` finds in the table. -/
def Found (calm : Prop) (h : CallHistory) : Prop :=
  (¬calm ∧ h.Failed) ∨ h.Answered ∧ (calm → h.resumes = 1)

/-- The record is gone, and the request is given up. -/
structure Settled (calm : Prop) (h : CallHistory) : Prop where
  req : ∃ req, h.req = some req ∧ h.releasedReqs = [req]
  freedRecords : h.freedRecords = 1
  finalized : h.finalized = some (Errno.success, h.stored)
  found : h.Found calm

/-- The service is in no call, and how the last one has ended. -/
inductive Over (calm : Prop) (h : CallHistory) : Prop
  | noCall (hreq : h.req = .none) (hopen : h.Open)
      (hsend : h.sendCode = .none) (hstored : h.stored = .none)
      (hcalm : calm → h.resumes = 0)
  | notFound (hcalm : ¬calm)
      (hfinalized : h.finalized = some (Errno.notfound, .none))
      (hanswer : h.Unanswered)
  | settled (hsettled : h.Settled calm)

end CallHistory

namespace Calls

/-- The call has a record. -/
structure Flying (s : Calls) (h : CallHistory) (c : UInt32) (r : RecordRef) :
    Prop where
  req : h.req = some (s.unsafe0 c)
  opened : h.Open
  own : s.Own c r h.stored

/-- The record is on the way into or out of the tables. -/
def Outside (s : Calls) (u : MsgRef) : Prop :=
  s.pendTable u = none ∧ s.readyTable u = none

/-- The record waits for the send; a late answer to an earlier request can
have been stored in it. -/
def Unsent (calm : Prop) (s : Calls) (h : CallHistory) (u : MsgRef)
    (r : RecordRef) : Prop :=
  (s.pendTable u = some r ∧ h.stored = none ∧ (calm → u ∉ s.outstanding)) ∨
    (¬calm ∧ s.readyTable u = some r ∧ ∃ rsp, h.stored = some rsp)

/-- Where the record is after the send. -/
inductive Sent (calm : Prop) (s : Calls) (h : CallHistory) (c : UInt32)
    (r : RecordRef) : Prop
  | failed (hcalm : ¬calm) (hsend : h.Failed)
      (hready : s.readyTable (s.unsafe0 c) = some r)
  | unanswered (hsend : h.Unanswered)
      (hpend : s.pendTable (s.unsafe0 c) = some r)
      (hcalm : calm → s.state c = .yield ∧ h.resumes = 0)
  | answered (hsend : h.Answered)
      (hready : s.readyTable (s.unsafe0 c) = some r)
      (hcalm : calm →
        (s.state c = .yield ∧ h.resumes = 0 ∧
          ∃ rsp, h.stored = some rsp ∧ s.handler = .resume rsp c) ∨
        (s.state c = .busy ∧ h.resumes = 1))

/-- What is known about the call of a service. -/
def Facts (calm : Prop) (s : Calls) (h : CallHistory) (c : UInt32) : Prop :=
  match s.pc c with
  | .idle => h.Over calm
  | .yielding req => h.Begun calm req
  | .proxy req => h.Begun calm req ∧ (calm → s.state c = .yield)
  | .insert _ r =>
      s.Flying h c r ∧ h.Begun calm (s.unsafe0 c) ∧
        (calm → s.state c = .yield) ∧ s.Outside (s.unsafe0 c)
  | .send _ r =>
      s.Flying h c r ∧ h.sendCode = none ∧
        (calm → s.state c = .yield ∧ h.resumes = 0) ∧
          s.Unsent calm h (s.unsafe0 c) r
  | .errSendReq r code =>
      s.Flying h c r ∧ ¬calm ∧ (h.sendCode = some code ∧ code < 0) ∧
        s.Unsent calm h (s.unsafe0 c) r
  | .wakeUp => ¬calm ∧ ∃ r, s.Flying h c r ∧ s.Sent calm h c r
  | .sent | .waiting => ∃ r, s.Flying h c r ∧ s.Sent calm h c r
  | .finalize =>
      ∃ r, s.Flying h c r ∧ s.Sent calm h c r ∧ (calm → h.resumes = 1)
  | .found r => s.Flying h c r ∧ h.Found calm ∧ s.Outside (s.unsafe0 c)
  | .deserialize rsp | .release rsp => h.Settled calm ∧ h.stored = rsp

end Calls

variable {calm : Prop} {s s' : Calls} {h h' : CallHistory} {c : UInt32}
  {r : RecordRef} {u : MsgRef}

/-! ## Histories that say the same -/

/-- Two histories say the same about what matters here. -/
structure Alike (calm : Prop) (h h' : CallHistory) : Prop where
  req : h'.req = h.req
  sendCode : h'.sendCode = h.sendCode
  stored : h'.stored = h.stored
  releasedReqs : h'.releasedReqs = h.releasedReqs
  freedRecords : h'.freedRecords = h.freedRecords
  finalized : h'.finalized = h.finalized
  resumes : calm → h'.resumes = h.resumes

theorem Alike.refl (calm : Prop) (h : CallHistory) : Alike calm h h :=
  ⟨rfl, rfl, rfl, rfl, rfl, rfl, fun _ => rfl⟩

namespace CallHistory

theorem Open.alike (ho : h.Open) (ha : Alike calm h h') : h'.Open :=
  ⟨ha.finalized.trans ho.finalized, ha.releasedReqs.trans ho.releasedReqs,
    ha.freedRecords.trans ho.freedRecords⟩

theorem Begun.alike {req : MsgRef} (hb : h.Begun calm req)
    (ha : Alike calm h h') : h'.Begun calm req :=
  ⟨ha.req.trans hb.req, hb.opened.alike ha, ha.sendCode.trans hb.sendCode,
    ha.stored.trans hb.stored, fun hc => (ha.resumes hc).trans (hb.resumes hc)⟩

theorem Failed.alike (hf : h.Failed) (ha : Alike calm h h') : h'.Failed :=
  ⟨ha.stored.trans hf.1, by rw [ha.sendCode]; exact hf.2⟩

theorem Unanswered.alike (hf : h.Unanswered) (ha : Alike calm h h') :
    h'.Unanswered :=
  ⟨ha.stored.trans hf.1, by rw [ha.sendCode]; exact hf.2⟩

theorem Answered.alike (hf : h.Answered) (ha : Alike calm h h') :
    h'.Answered :=
  ⟨by rw [ha.stored]; exact hf.1, by rw [ha.sendCode]; exact hf.2⟩

theorem Found.alike (hf : h.Found calm) (ha : Alike calm h h') :
    h'.Found calm := by
  rcases hf with ⟨hcalm, hfailed⟩ | ⟨hanswer, hresumes⟩
  · exact .inl ⟨hcalm, hfailed.alike ha⟩
  · exact .inr ⟨hanswer.alike ha, fun hc => (ha.resumes hc).trans (hresumes hc)⟩

theorem Settled.alike (hs : h.Settled calm) (ha : Alike calm h h') :
    h'.Settled calm :=
  ⟨by rw [ha.req, ha.releasedReqs]; exact hs.req,
    ha.freedRecords.trans hs.freedRecords,
    by rw [ha.finalized, ha.stored]; exact hs.finalized, hs.found.alike ha⟩

theorem Over.alike (ho : h.Over calm) (ha : Alike calm h h') :
    h'.Over calm := by
  cases ho with
  | noCall hreq hopen hsend hstored hcalm =>
      exact .noCall (ha.req.trans hreq) (hopen.alike ha)
        (ha.sendCode.trans hsend) (ha.stored.trans hstored)
        fun hc => (ha.resumes hc).trans (hcalm hc)
  | notFound hcalm hfinalized hanswer =>
      exact .notFound hcalm (ha.finalized.trans hfinalized) (hanswer.alike ha)
  | settled hs => exact .settled (hs.alike ha)

end CallHistory

/-! ## Calls that a step does not touch -/

/-- A call that a step does not touch. -/
structure Untouched (calm : Prop) (s s' : Calls) (h : CallHistory) (c : UInt32) :
    Prop where
  pc : s'.pc c = s.pc c
  word : s'.unsafe0 c = s.unsafe0 c
  state : calm → s'.state c = s.state c
  handler : calm → ∀ rsp, s.handler = .resume rsp c → s'.handler = .resume rsp c
  record : ∀ r, s.Flying h c r → s'.record r = s.record r ∧
    s'.pendTable (s.unsafe0 c) = s.pendTable (s.unsafe0 c) ∧
    s'.readyTable (s.unsafe0 c) = s.readyTable (s.unsafe0 c) ∧
    (calm → s.unsafe0 c ∉ s.outstanding → s.unsafe0 c ∉ s'.outstanding)

theorem Calls.Flying.untouched (hfly : s.Flying h c r)
    (hu : Untouched calm s s' h c) (ha : Alike calm h h') :
    s'.Flying h' c r where
  req := by rw [ha.req, hu.word]; exact hfly.req
  opened := hfly.opened.alike ha
  own := by
    have hown := hfly.own
    unfold Calls.Own at hown ⊢
    rw [(hu.record r hfly).1, hu.word, ha.stored]
    exact hown

theorem Calls.Sent.untouched (hs : s.Sent calm h c r) (hfly : s.Flying h c r)
    (hu : Untouched calm s s' h c) (ha : Alike calm h h') :
    s'.Sent calm h' c r := by
  obtain ⟨-, hp, hr, -⟩ := hu.record r hfly
  cases hs with
  | failed hcalm hsend hready =>
      exact .failed hcalm (hsend.alike ha) (by rw [hu.word, hr]; exact hready)
  | unanswered hsend hpend hcalm =>
      refine .unanswered (hsend.alike ha) (by rw [hu.word, hp]; exact hpend)
        fun hc => ?_
      rw [hu.state hc, ha.resumes hc]
      exact hcalm hc
  | answered hsend hready hcalm =>
      refine .answered (hsend.alike ha) (by rw [hu.word, hr]; exact hready)
        fun hc => ?_
      rw [hu.state hc, ha.resumes hc, ha.stored]
      refine (hcalm hc).imp_left ?_
      rintro ⟨hstate, hresumes, rsp, hstored, hhandler⟩
      exact ⟨hstate, hresumes, rsp, hstored, hu.handler hc rsp hhandler⟩

/-- What is known about a call that is not touched stays true. -/
theorem Calls.Facts.untouched (hf : s.Facts calm h c)
    (hu : Untouched calm s s' h c) (ha : Alike calm h h') :
    s'.Facts calm h' c := by
  have hout : ∀ r, s.Flying h c r → s.Outside (s.unsafe0 c) →
      s'.Outside (s.unsafe0 c) := by
    intro r hfly ho
    obtain ⟨-, hp, hr, -⟩ := hu.record r hfly
    exact ⟨hp.trans ho.1, hr.trans ho.2⟩
  have hunsent : ∀ r, s.Flying h c r → s.Unsent calm h (s.unsafe0 c) r →
      s'.Unsent calm h' (s.unsafe0 c) r := by
    intro r hfly ho
    obtain ⟨-, hp, hr, hn⟩ := hu.record r hfly
    rcases ho with ⟨hpend, hnone, hout⟩ | ⟨hcalm, hready, hstored⟩
    · exact .inl ⟨hp.trans hpend, ha.stored.trans hnone,
        fun hc => hn hc (hout hc)⟩
    · exact .inr ⟨hcalm, hr.trans hready, by rw [ha.stored]; exact hstored⟩
  unfold Calls.Facts at hf ⊢
  rw [hu.pc, hu.word]
  cases hpc : s.pc c with
  | idle =>
      simp only [hpc] at hf
      exact hf.alike ha
  | deserialize rsp | release rsp =>
      simp only [hpc] at hf
      exact ⟨hf.1.alike ha, ha.stored.trans hf.2⟩
  | yielding req =>
      simp only [hpc] at hf
      exact hf.alike ha
  | proxy req =>
      simp only [hpc] at hf
      exact ⟨hf.1.alike ha, fun hc => (hu.state hc).trans (hf.2 hc)⟩
  | insert idTo r =>
      simp only [hpc] at hf
      obtain ⟨hfly, hb, hstate, ho⟩ := hf
      exact ⟨hfly.untouched hu ha, hb.alike ha,
        fun hc => (hu.state hc).trans (hstate hc), hout r hfly ho⟩
  | send idTo r =>
      simp only [hpc] at hf
      obtain ⟨hfly, hcode, hstate, ho⟩ := hf
      refine ⟨hfly.untouched hu ha, ha.sendCode.trans hcode, fun hc => ?_,
        hunsent r hfly ho⟩
      rw [hu.state hc, ha.resumes hc]
      exact hstate hc
  | errSendReq r code =>
      simp only [hpc] at hf
      obtain ⟨hfly, hcalm, ⟨hcode, hneg⟩, ho⟩ := hf
      exact ⟨hfly.untouched hu ha, hcalm, ⟨ha.sendCode.trans hcode, hneg⟩,
        hunsent r hfly ho⟩
  | wakeUp =>
      simp only [hpc] at hf
      obtain ⟨hcalm, r, hfly, hs⟩ := hf
      exact ⟨hcalm, r, hfly.untouched hu ha, hs.untouched hfly hu ha⟩
  | sent | waiting =>
      simp only [hpc] at hf
      obtain ⟨r, hfly, hs⟩ := hf
      exact ⟨r, hfly.untouched hu ha, hs.untouched hfly hu ha⟩
  | finalize =>
      simp only [hpc] at hf
      obtain ⟨r, hfly, hs, hcalm⟩ := hf
      exact ⟨r, hfly.untouched hu ha, hs.untouched hfly hu ha,
        fun hc => (ha.resumes hc).trans (hcalm hc)⟩
  | found r =>
      simp only [hpc] at hf
      obtain ⟨hfly, hfound, ho⟩ := hf
      exact ⟨hfly.untouched hu ha, hfound.alike ha, hout r hfly ho⟩

/-- A step that leaves the records and the tables alone. -/
theorem Untouched.of_same (hpc : s'.pc c = s.pc c)
    (hword : s'.unsafe0 c = s.unsafe0 c)
    (hstate : calm → s'.state c = s.state c)
    (hhandler : calm → ∀ rsp, s.handler = .resume rsp c →
      s'.handler = .resume rsp c)
    (hrecord : s'.record = s.record) (hpend : s'.pendTable = s.pendTable)
    (hready : s'.readyTable = s.readyTable)
    (hout : calm → s'.outstanding ≤ s.outstanding) :
    Untouched calm s s' h c where
  pc := hpc
  word := hword
  state := hstate
  handler := hhandler
  record r hfly := by
    refine ⟨by rw [hrecord], by rw [hpend], by rw [hready],
      fun hc hnot hin => ?_⟩
    exact hnot (Multiset.mem_of_le (hout hc) hin)

/-- A step that changes the record of another call, and the entries of its
request. -/
theorem Untouched.of_other (hpc : s'.pc c = s.pc c)
    (hword : s'.unsafe0 c = s.unsafe0 c)
    (hstate : calm → s'.state c = s.state c)
    (hhandler : calm → ∀ rsp, s.handler = .resume rsp c →
      s'.handler = .resume rsp c)
    (hown : ∀ r', s.Flying h c r' → s.unsafe0 c ≠ u ∧ r' ≠ r)
    (hrecord : ∀ r', r' ≠ r → s'.record r' = s.record r')
    (hpend : ∀ u', u' ≠ u → s'.pendTable u' = s.pendTable u')
    (hready : ∀ u', u' ≠ u → s'.readyTable u' = s.readyTable u')
    (hout : ∀ u', u' ≠ u → u' ∉ s.outstanding → u' ∉ s'.outstanding) :
    Untouched calm s s' h c where
  pc := hpc
  word := hword
  state := hstate
  handler := hhandler
  record r' hfly := by
    obtain ⟨hu, hr⟩ := hown r' hfly
    exact ⟨hrecord r' hr, hpend _ hu, hready _ hu, fun _ => hout _ hu⟩

end Powerpack
end Eaf
