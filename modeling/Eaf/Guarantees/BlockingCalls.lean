import Eaf.Powerpack.CallRuns

/-!
# Blocking calls

What `EAF_MESSAGE_CALL_FILBER` promises to its users.  Without disturbances
every caller gets the response to its own request, once.  But the code of a
failed send is stored in the record only, where nobody reads it, so such a call
ends as a success without a response.
-/

namespace Eaf
namespace Powerpack

open Core KeyedTable

namespace CallHistory

/-- A call gets its own response, and gives up what it holds once. -/
structure InOrder (h : CallHistory) : Prop where
  resumed_once : h.resumes ≤ 1
  /-- The response to the request of the call is stored first. -/
  resumed_after : h.resumes = 1 → ∃ rsp, h.stored = some rsp
  finalized : ∀ p, h.finalized = some p →
    ∃ rsp, h.stored = some rsp ∧ p = (Errno.success, some rsp)
  released : h.finalized ≠ .none →
    h.freedRecords = 1 ∧ ∃ req, h.req = some req ∧ h.releasedReqs = [req]
  kept : h.finalized = .none → h.freedRecords = 0 ∧ h.releasedReqs = []

/-- What the caller learns about a send that has returned `code`. -/
def Reports (h : CallHistory) (code : Int) : Prop :=
  if code < 0 then
    0 < h.resumes ∧ h.finalized = some (code, .none) ∧ h.ret = some code ∧
      h.deserialized = 0 ∧ h.releasedRsps = [] ∧ h.freedRecords = 1 ∧
        ∃ req, h.req = some req ∧ h.releasedReqs = [req]
  else ∃ rsp, h.finalized = some (Errno.success, some rsp)

end CallHistory

/-- The two tables have no key in common, and every key is the `uuid` of a
request that its record holds. -/
def Calls.TablesFit (s : Calls) : Prop :=
  ∀ u r, s.pendTable u = some r ∨ s.readyTable u = some r →
    (s.pendTable u = none ∨ s.readyTable u = none) ∧
      ∃ rec x, s.record r = some rec ∧ rec.uuid = u ∧
        s.msg rec.origReq = some x ∧ x.uuid = u ∧ 0 < x.refcnt

variable {calm : Prop} {s : Calls} {tr : List CallEvent} {c : UInt32}
  {h : CallHistory} {code : Int}

theorem Calls.Inv.tables_fit (inv : s.Inv calm tr) : s.TablesFit := by
  have k := inv.keyed
  have hlive : ∀ {u r rec}, s.record r = some rec → rec.uuid = u →
      ∃ rec x, s.record r = some rec ∧ rec.uuid = u ∧
        s.msg rec.origReq = some x ∧ x.uuid = u ∧ 0 < x.refcnt := by
    rintro u r rec hrec rfl
    obtain ⟨x, hx⟩ := inv.balanced.live_record hrec
    have huuid := k.self (.inr (.inl ⟨r, rec, hrec, rfl⟩)) hx
    exact ⟨rec, x, hrec, rfl, hx, huuid.trans (k.rec_uuid hrec).symm,
      inv.balanced.pos _ x hx⟩
  rintro u r (hu | hu)
  · obtain ⟨rec, hrec, huuid, -⟩ := k.pend hu
    exact ⟨.inr (k.disjoint hu), hlive hrec huuid⟩
  · obtain ⟨rec, hrec, huuid⟩ := k.ready hu
    exact ⟨.inl (k.pend_none hu), hlive hrec huuid⟩

theorem CallHistory.Woken.once (hw : h.Woken) : h.resumes ≤ 1 := by
  rcases hw with hzero | ⟨hone, -⟩ <;> omega

theorem CallHistory.Woken.after (hw : h.Woken) (hone : h.resumes = 1) :
    ∃ rsp, h.stored = some rsp := by
  rcases hw with hzero | ⟨-, hstored⟩
  · omega
  · exact hstored

/-- While it is calm, calls are in order. -/
theorem Calls.Facts.in_order (hf : s.Facts calm h c) (hcalm : calm) :
    h.InOrder := by
  rcases hf.outcome with ⟨hopen, hwoken⟩ | hs | ⟨hrough, -⟩
  · refine ⟨(hwoken hcalm).once, (hwoken hcalm).after, fun p hp => ?_,
      fun hfin => absurd hopen.finalized hfin,
      fun _ => ⟨hopen.freedRecords, hopen.releasedReqs⟩⟩
    rw [hopen.finalized] at hp
    cases hp
  · have hwoken := hs.found.woken hcalm
    refine ⟨hwoken.once, hwoken.after, fun p hp => ?_,
      fun _ => ⟨hs.freedRecords, hs.req⟩, fun hfin => ?_⟩
    · rcases hs.found with ⟨hrough, -⟩ | ⟨⟨⟨rsp, hrsp⟩, -⟩, -⟩
      · exact absurd hcalm hrough
      · rw [hs.finalized, hrsp] at hp
        exact ⟨rsp, hrsp, (Option.some.inj hp).symm⟩
    · rw [hs.finalized] at hfin
      cases hfin
  · exact absurd hcalm hrough

/-- **Without disturbances every call gets its own response, once.** -/
theorem calls_in_order (h : UndisturbedRun tr s) :
    s.TablesFit ∧
      (s.aborted = false ∧ .abort ∉ tr ∧
        ∀ c code, .resume c code ∈ tr → code = Errno.success) ∧
      ∀ c, (history c tr).InOrder :=
  ⟨h.inv.tables_fit, h.safe, fun c => (h.inv.facts c).in_order trivial⟩

/-- What a finalized call reports. -/
theorem Calls.Facts.reports_iff (hf : s.Facts calm h c)
    (hsend : h.sendCode = some code) (hfin : h.finalized ≠ none) :
    h.Reports code ↔ 0 ≤ code ∧ h.stored ≠ none := by
  unfold CallHistory.Reports
  rcases hf.outcome with ⟨hopen, -⟩ | hs | ⟨-, hnotfound, hanswer⟩
  · exact absurd hopen.finalized hfin
  · -- the record was there, and its code is not looked at
    by_cases hcode : code < 0
    · rw [if_pos hcode, hs.finalized]
      constructor
      · rintro ⟨-, hfin, -⟩
        have hzero : Errno.success = code := congrArg Prod.fst (Option.some.inj hfin)
        rw [← hzero] at hcode
        exact absurd hcode (by decide)
      · rintro ⟨hpos, -⟩
        omega
    · rw [if_neg hcode, hs.finalized]
      constructor
      · rintro ⟨rsp, hfin⟩
        have hrsp : h.stored = some rsp := congrArg Prod.snd (Option.some.inj hfin)
        exact ⟨by omega, by rw [hrsp]; simp⟩
      · rintro ⟨-, hstored⟩
        obtain ⟨rsp, hrsp⟩ := Option.ne_none_iff_exists'.mp hstored
        exact ⟨rsp, by rw [hrsp]⟩
  · -- the caller has been resumed before its response was there
    obtain ⟨hnone, e, hsend', hpos⟩ := hanswer
    obtain rfl : code = e := Option.some.inj (hsend.symm.trans hsend')
    rw [if_neg (by omega), hnotfound, hnone]
    simp

/-- **A call reports its send if and only if the send has succeeded and the
response was stored before the caller went on.** -/
theorem send_code_reported (h : CallsRun tr s) (c : UInt32) (code : Int)
    (hsend : (history c tr).sendCode = some code)
    (hfin : (history c tr).finalized ≠ none) :
    (history c tr).Reports code ↔ 0 ≤ code ∧ (history c tr).stored ≠ none :=
  (h.inv.facts c).reports_iff hsend hfin

/-! ## Runs -/

/-- The service 1 calls the service 2, which answers. -/
def answeredCall : List CallAct :=
  [.begin 1 1 2 7 0, .caller 1, .proxy 1 1, .caller 1, .send 1 0,
    .respond 0 2 0, .handler, .handler, .handler, .handler, .handler,
    .forget 0, .caller 1, .caller 1, .caller 1, .caller 1, .caller 1,
    .caller 1]

theorem calls_in_order_answered : ∃ tr s, UndisturbedRun tr s ∧
    (history 1 tr).finalized = some (Errno.success, some 2) ∧
      s.TablesFit ∧ s.aborted = false ∧ (history 1 tr).InOrder := by
  have hreplay : (LabelledRun.replay callsNext
      (fun s a => a.ok s ∧ a.undisturbed s) Calls.init answeredCall).any
        (fun o => decide ((history 1 o.2).finalized =
          some (Errno.success, some 2))) = true := by
    decide +kernel
  obtain ⟨s, tr, hrun, hcheck⟩ := LabelledRun.exists_run_of_replay hreplay
  obtain ⟨htables, ⟨hsafe, -, -⟩, horder⟩ := calls_in_order hrun
  exact ⟨tr, s, hrun, of_decide_eq_true hcheck, htables, hsafe, horder 1⟩

theorem send_code_reported_answered : ∃ tr s, CallsRun tr s ∧
    (history 1 tr).Reports 0 := by
  have hreplay : (LabelledRun.replay callsNext (fun s a => a.ok s) Calls.init
      answeredCall).any
        (fun o => decide ((history 1 o.2).sendCode = some 0 ∧
          (history 1 o.2).finalized ≠ none ∧
            (history 1 o.2).stored ≠ none)) = true := by
    decide +kernel
  obtain ⟨s, tr, hrun, hcheck⟩ := LabelledRun.exists_run_of_replay hreplay
  obtain ⟨hsend, hfin, hstored⟩ := of_decide_eq_true hcheck
  exact ⟨tr, s, hrun,
    (send_code_reported hrun 1 0 hsend hfin).mpr ⟨Int.le_refl 0, hstored⟩⟩

/-- The send of the service 1 fails, and its macro ends without a response. -/
def failedCall : List CallAct :=
  [.begin 1 1 2 7 0, .caller 1, .proxy 1 1, .caller 1, .send 1 Errno.notfound,
    .caller 1, .caller 1, .caller 1, .caller 1, .caller 1, .caller 1,
    .caller 1]

/-- The caller reads the response that is not there. -/
theorem failed_send_lost : ∃ tr s, CallsRun tr s ∧
    (history 1 tr).sendCode = some Errno.notfound ∧
      (history 1 tr).finalized = some (Errno.success, none) ∧
        (history 1 tr).deserialized = 1 ∧ s.aborted = true ∧
          ¬(history 1 tr).Reports Errno.notfound := by
  have hreplay : (LabelledRun.replay callsNext (fun s a => a.ok s) Calls.init
      failedCall).any
        (fun o => decide ((history 1 o.2).sendCode = some Errno.notfound ∧
          (history 1 o.2).finalized = some (Errno.success, none) ∧
            (history 1 o.2).deserialized = 1 ∧ o.1.aborted = true)) = true := by
    decide +kernel
  obtain ⟨s, tr, hrun, hcheck⟩ := LabelledRun.exists_run_of_replay hreplay
  obtain ⟨hsend, hfin, hdes, haborted⟩ := of_decide_eq_true hcheck
  refine ⟨tr, s, hrun, hsend, hfin, hdes, haborted, fun hreports => ?_⟩
  have hneg : Errno.notfound < 0 := by decide
  unfold CallHistory.Reports at hreports
  rw [if_pos hneg, hfin] at hreports
  have hcode : Errno.success = Errno.notfound :=
    congrArg Prod.fst (Option.some.inj hreports.2.1)
  exact absurd hcode (by decide)

end Powerpack
end Eaf
