import Eaf.Powerpack.CallProgress

/-!
# Runs with calls by message

While it is calm, every answer under way is for a caller that waits for it, and
so the handler always finds that caller asleep.  With this every step keeps the
invariant, and it holds in every run.
-/

namespace Eaf
namespace Powerpack

open Core KeyedTable

variable {calm : Prop} {s s' : Calls} {tr events : List CallEvent} {c : UInt32}
  {u : MsgRef} {r : RecordRef} {h : CallHistory}

/-- A caller that is not asleep goes on. -/
theorem Calls.Inv.waits_own {pc : CallerPc} (inv : s.Inv calm tr) (hcalm : calm)
    (c : UInt32) (hnot : ¬(s.pc c).Waits) (hpcs : s'.pc = (s.setPc c pc).pc)
    (hword : ∀ c', c' ≠ c → s'.unsafe0 c' = s.unsafe0 c')
    (hout : s'.outstanding = s.outstanding) :
    ∀ u ∈ s'.outstanding, ∃ c, s'.unsafe0 c = u ∧ (s'.pc c).Waits := by
  intro u hu
  rw [hout] at hu
  obtain ⟨c', hu, hwaits⟩ := inv.waits hcalm u hu
  have hc : c' ≠ c := by
    rintro rfl
    exact hnot hwaits
  refine ⟨c', (hword c' hc).trans hu, ?_⟩
  rw [hpcs, Calls.setPc_pc, Function.update_of_ne hc]
  exact hwaits

/-- Nobody who calls goes on. -/
theorem Calls.Inv.waits_outer (inv : s.Inv calm tr) (hcalm : calm)
    (hpc : s'.pc = s.pc) (hword : s'.unsafe0 = s.unsafe0)
    (hout : s'.outstanding ≤ s.outstanding) :
    ∀ u ∈ s'.outstanding, ∃ c, s'.unsafe0 c = u ∧ (s'.pc c).Waits := by
  intro u hu
  rw [hpc, hword]
  exact inv.waits hcalm u (Multiset.mem_of_le hout hu)

/-- Every answer under way stays with a caller that waits for it. -/
theorem CallTrans.waits (h : CallTrans calm s events s') (inv : s.Inv calm tr)
    (bal' : s'.Balanced) (hcalm : calm) :
    ∀ u ∈ s'.outstanding, ∃ c, s'.unsafe0 c = u ∧ (s'.pc c).Waits := by
  have k := inv.keyed
  have bal := inv.balanced
  have hcopy := h
  cases h with
  | @begin c a dst msgId size hpc hstate hfree =>
      exact inv.waits_own hcalm c (by simp [hpc, CallerPc.Waits]) rfl
        (fun c' hc => Function.update_of_ne hc ..)
        (hcopy.outstanding_same bal bal' rfl rfl)
  | @proxy c req r x hpc hfree hmsg =>
      exact inv.waits_own hcalm c (by simp [hpc, CallerPc.Waits]) rfl
        (fun c' hc => Function.update_of_ne hc ..)
        (hcopy.outstanding_same bal bal' rfl rfl)
  | yield hpc | insert hpc | sendFails hpc | errSendReq hpc | notFound hpc
  | finalize hpc | found hpc | deserialize hpc | release hpc =>
      exact inv.waits_own hcalm _ (by simp [hpc, CallerPc.Waits]) rfl
        (fun _ _ => rfl) (hcopy.outstanding_same bal bal' rfl rfl)
  | @send c idTo r code rec x hpc hcode hrec hmsg =>
      have hf := inv.facts c
      simp only [Calls.Facts, hpc] at hf
      obtain ⟨⟨-, -, ret, hown⟩, -⟩ := hf
      rw [hrec] at hown
      cases hown
      have hout := hcopy.outstanding_sent (m := s.unsafe0 c) bal bal' rfl rfl
      intro u hu
      rw [hout, Multiset.mem_cons] at hu
      rcases hu with rfl | hu
      · exact ⟨c, rfl, .inl (Function.update_self ..)⟩
      · obtain ⟨c', hu, hwaits⟩ := inv.waits hcalm u hu
        have hc : c' ≠ c := by
          rintro rfl
          simp [hpc, CallerPc.Waits] at hwaits
        refine ⟨c', hu, ?_⟩
        show (Function.update s.pc c .sent c').Waits
        rwa [Function.update_of_ne hc]
  | @wakeUp c hpc =>
      have hf := inv.facts c
      simp only [Calls.Facts, hpc] at hf
      exact absurd hcalm hf.1
  | @sent c hpc =>
      have hout := hcopy.outstanding_same bal bal' rfl rfl
      intro u hu
      rw [hout] at hu
      obtain ⟨c', hu, hwaits⟩ := inv.waits hcalm u hu
      refine ⟨c', hu, ?_⟩
      by_cases hc : c' = c
      · subst hc
        exact .inr (Function.update_self ..)
      · rwa [Calls.setPc_pc, Function.update_of_ne hc]
  | @waiting c hpc hstate =>
      -- the caller has been resumed, so its answer is not under way any more
      have hf := inv.facts c
      simp only [Calls.Facts, hpc] at hf
      obtain ⟨r, -, hs⟩ := hf
      have hout := hcopy.outstanding_same bal bal' rfl rfl
      intro u hu
      rw [hout] at hu
      obtain ⟨c', rfl, hwaits⟩ := inv.waits hcalm u hu
      have hc : c' ≠ c := by
        rintro rfl
        obtain ⟨r', hpend⟩ := (inv.due hcalm).pend hu
        have hyield := ((hs.of_pend k hpend).2.2 hcalm).1
        rw [hstate] at hyield
        cases hyield
      refine ⟨c', rfl, ?_⟩
      rwa [Calls.setPc_pc, Function.update_of_ne hc]
  | @respond e before after a x size hin hfree hnew hmsg =>
      have huuid : x.uuid = e.req :=
        k.self (.inr (.inr ⟨e, by simp [hin], rfl⟩)) hmsg
      exact inv.waits_outer hcalm rfl rfl
        (hcopy.outstanding_answered (a := a) bal bal' hin rfl (hnew hcalm)
          (List.append_assoc ..).symm
          (by simp [Calls.uuidOf, msgCreateRsp, huuid])).le
  | forget hin hmsg =>
      exact inv.waits_outer hcalm rfl rfl
        (hcopy.outstanding_forgotten bal bal' hin rfl rfl)
  | counted hpc hmsg =>
      have hout := hcopy.outstanding_stored bal bal' hpc hmsg rfl rfl rfl
      exact inv.waits_outer hcalm rfl rfl (hout ▸ Multiset.le_cons_self ..)
  | take hpc hqueue =>
      exact inv.waits_outer hcalm rfl rfl
        (hcopy.outstanding_same bal bal' rfl (by rw [hpc, hqueue]; rfl)).le
  | entered hpc | resume hpc | leave hpc =>
      exact inv.waits_outer hcalm rfl rfl
        (hcopy.outstanding_same bal bal' rfl (by rw [hpc]; rfl)).le
  | noMemory | elsewhere =>
      exact inv.waits_outer hcalm rfl rfl
        (hcopy.outstanding_same bal bal' rfl rfl).le
  | resumeOther _ hrough => exact absurd hcalm hrough
  | abort hfault => exact absurd hfault (inv.no_fault hcalm)

/-- A caller that is not asleep goes on, or nobody does. -/
theorem Calls.Inv.wakes_own (inv : s.Inv calm tr) (hcalm : calm)
    (hown : ∀ c, (s.pc c).Waits → s.state c = .yield →
      (s'.pc c).Waits ∧ s'.unsafe0 c = s.unsafe0 c ∧ s'.state c = .yield)
    (hready : ∀ c r, (s.pc c).Waits → s.readyTable (s.unsafe0 c) = some r →
      s'.readyTable (s.unsafe0 c) = some r)
    (hhandler : s'.handler = s.handler) :
    ∀ rsp c, s'.handler = .resume rsp c → (s'.pc c).Waits ∧
      s'.state c = .yield ∧ ∃ r, s'.readyTable (s'.unsafe0 c) = some r := by
  intro rsp c hr
  obtain ⟨hwaits, hstate, r, hentry⟩ := inv.wakes hcalm rsp c (hhandler ▸ hr)
  obtain ⟨hwaits', hword, hstate'⟩ := hown c hwaits hstate
  exact ⟨hwaits', hstate', r, hword ▸ hready c r hwaits hentry⟩

/-- Whoever is to be resumed stays asleep. -/
theorem CallTrans.wakes (h : CallTrans calm s events s') (inv : s.Inv calm tr)
    (hcalm : calm) :
    ∀ rsp c, s'.handler = .resume rsp c → (s'.pc c).Waits ∧
      s'.state c = .yield ∧ ∃ r, s'.readyTable (s'.unsafe0 c) = some r := by
  have k := inv.keyed
  have hother : ∀ {c c₀ : UInt32} {pc₀ : CallerPc} (pc : CallerPc),
      s.pc c = pc₀ → ¬pc₀.Waits → (s.pc c₀).Waits →
        c₀ ≠ c ∧ (Function.update s.pc c pc c₀).Waits := by
    intro c c₀ pc₀ pc hpc hnot hwaits
    have hc : c₀ ≠ c := by
      rintro rfl
      exact hnot (hpc ▸ hwaits)
    exact ⟨hc, by rwa [Function.update_of_ne hc]⟩
  cases h with
  | @begin c a dst msgId size hpc hstate hfree =>
      refine inv.wakes_own hcalm (fun c₀ hwaits hyield => ?_)
        (fun _ _ _ h => h) rfl
      obtain ⟨hc, hwaits⟩ := hother (.yielding a) hpc
        (by simp [CallerPc.Waits]) hwaits
      exact ⟨hwaits, Function.update_of_ne hc .., hyield⟩
  | @proxy c req r x hpc hfree hmsg =>
      refine inv.wakes_own hcalm (fun c₀ hwaits hyield => ?_)
        (fun _ _ _ h => h) rfl
      obtain ⟨hc, hwaits⟩ := hother (.insert (getW1 (s.unsafe0 c)) r) hpc
        (by simp [CallerPc.Waits]) hwaits
      exact ⟨hwaits, Function.update_of_ne hc .., hyield⟩
  | @yield c req hpc =>
      refine inv.wakes_own hcalm (fun c₀ hwaits hyield => ?_)
        (fun _ _ _ h => h) rfl
      obtain ⟨hc, hwaits⟩ := hother (.proxy req) hpc
        (by simp [CallerPc.Waits]) hwaits
      exact ⟨hwaits, rfl, (Function.update_of_ne hc ..).trans hyield⟩
  | insert hpc | sendFails hpc | send hpc | notFound hpc
  | found hpc | deserialize hpc | release hpc =>
      refine inv.wakes_own hcalm (fun c₀ hwaits hyield => ?_)
        (fun _ _ _ h => h) rfl
      exact ⟨(hother _ hpc (by simp [CallerPc.Waits]) hwaits).2, rfl, hyield⟩
  | @errSendReq c r code rec ready hpc =>
      have hf := inv.facts c
      simp only [Calls.Facts, hpc] at hf
      exact absurd hcalm hf.2.1
  | @wakeUp c hpc =>
      have hf := inv.facts c
      simp only [Calls.Facts, hpc] at hf
      exact absurd hcalm hf.1
  | @sent c hpc =>
      refine inv.wakes_own hcalm (fun c₀ hwaits hyield => ⟨?_, rfl, hyield⟩)
        (fun _ _ _ h => h) rfl
      by_cases hc : c₀ = c
      · subst hc
        exact .inr (Function.update_self ..)
      · rwa [Calls.setPc_pc, Function.update_of_ne hc]
  | @waiting c hpc hstate =>
      refine inv.wakes_own hcalm (fun c₀ hwaits hyield => ⟨?_, rfl, hyield⟩)
        (fun _ _ _ h => h) rfl
      have hc : c₀ ≠ c := by
        rintro rfl
        rw [hstate] at hyield
        cases hyield
      rwa [Calls.setPc_pc, Function.update_of_ne hc]
  | @finalize c r hpc hready =>
      have hf := inv.facts c
      simp only [Calls.Facts, hpc] at hf
      obtain ⟨r', hfly, -⟩ := hf
      refine inv.wakes_own hcalm (fun c₀ hwaits hyield => ?_)
        (fun c₀ r₀ hwaits hentry => ?_) rfl
      · exact ⟨(hother _ hpc (by simp [CallerPc.Waits]) hwaits).2, rfl, hyield⟩
      · -- another caller has another request
        obtain ⟨hc, -⟩ := hother .idle hpc (by simp [CallerPc.Waits]) hwaits
        obtain ⟨r₁, hfly₁, -⟩ := (inv.facts c₀).of_waits hwaits
        obtain ⟨ret, hown⟩ := hfly.own
        have hu := (hfly₁.other k hown (Ne.symm hc)).1
        exact (Function.update_of_ne hu ..).trans hentry
  | @counted m x r rec hpc hmsg hpend hready hrec =>
      intro rsp c hr
      cases hr
      obtain ⟨rec', hrec', huuid, -⟩ := k.pend hpend
      rw [hrec] at hrec'
      cases hrec'
      have hin : x.uuid ∈ s.outstanding := by
        unfold Calls.outstanding outstandingBy
        rw [hpc]
        simp [HandlerPc.unstored, Calls.uuidOf, hmsg]
      obtain ⟨c, hu, hwaits⟩ := inv.waits hcalm _ hin
      obtain ⟨r', hfly, hs⟩ := (inv.facts c).of_waits hwaits
      obtain rfl := hfly.record_eq k hrec (huuid.trans hu.symm)
      obtain ⟨ret, hown⟩ := hfly.own
      rw [hrec] at hown
      cases hown
      obtain ⟨-, -, hyield⟩ := hs.of_pend k (hu.symm ▸ hpend)
      refine ⟨hwaits, (hyield hcalm).1, r, ?_⟩
      show Function.update s.readyTable x.uuid (some r) (s.unsafe0 c) = some r
      rw [hu, Function.update_self]
  | take | entered | resume | leave =>
      intro rsp c hr
      cases hr
  | @elsewhere c state hpc =>
      refine inv.wakes_own hcalm (fun c₀ hwaits hyield => ⟨hwaits, rfl, ?_⟩)
        (fun _ _ _ h => h) rfl
      obtain ⟨hc, -⟩ := hother .idle hpc (by simp [CallerPc.Waits]) hwaits
      exact (Function.update_of_ne hc ..).trans hyield
  | noMemory | respond | forget =>
      exact inv.wakes_own hcalm (fun c₀ hwaits hyield => ⟨hwaits, rfl, hyield⟩)
        (fun _ _ _ h => h) rfl
  | resumeOther _ hrough => exact absurd hcalm hrough
  | abort hfault => exact absurd hfault (inv.no_fault hcalm)

/-- **Every step keeps the invariant.** -/
theorem CallTrans.inv (h : CallTrans calm s events s') (inv : s.Inv calm tr) :
    s'.Inv calm (tr ++ events) := by
  have bal' : s'.Balanced := h.balanced inv.balanced fun u r rec hpend hrec => by
    obtain ⟨rec', hrec', -, hnone⟩ := inv.keyed.pend hpend
    rw [hrec] at hrec'
    cases hrec'
    exact hnone
  exact ⟨bal', h.keyed inv, h.due inv bal', h.facts inv bal', h.waits inv bal',
    h.wakes inv⟩

/-- At first nothing has happened. -/
theorem Calls.init_inv (calm : Prop) : Calls.init.Inv calm [] where
  balanced := by
    refine ⟨?_, by intro m x hx; cases hx⟩
    have hheld : Calls.init.held = fun _ _ => 0 := by
      funext p m
      cases p <;> rfl
    rw [hheld]
    exact Ledger.balances_zero
  keyed := by
    constructor
    case self =>
      intro m x _ hx
      cases hx
    case rec_uuid =>
      intro r rec hrec
      cases hrec
    case rec_inj =>
      intro r r' rec rec' hrec
      cases hrec
    case req_rec =>
      intro c m r rec _ hrec
      cases hrec
    case req_inj =>
      intro c c' m hreq
      cases hreq
    case pend | ready | disjoint =>
      intro u r hu
      cases hu
  due _ := by
    have hout : Calls.init.outstanding = 0 := rfl
    refine ⟨hout ▸ Multiset.nodup_zero, fun {u} hu => ?_⟩
    rw [hout] at hu
    exact absurd hu (Multiset.notMem_zero u)
  facts c := .noCall rfl ⟨rfl, rfl, rfl⟩ rfl rfl fun _ => rfl
  waits _ u hu := by simp [Calls.outstanding, outstandingBy, Calls.init,
    unanswered, HandlerPc.unstored] at hu
  wakes _ rsp c hr := by cases hr

/-- The invariant holds in every run. -/
theorem CallsRun.inv (h : CallsRun tr s) : s.Inv False tr := by
  refine h.invariant (Calls.init_inv False) fun tr s events s' _ inv hstep => ?_
  obtain ⟨a, ⟨-, hok⟩, hnext⟩ := hstep
  exact (callsNext_trans hok False.elim hnext).inv inv

/-- In a run without disturbances it is calm. -/
theorem UndisturbedRun.inv (h : UndisturbedRun tr s) : s.Inv True tr := by
  refine h.invariant (Calls.init_inv True) fun tr s events s' _ inv hstep => ?_
  obtain ⟨a, ⟨⟨-, hok⟩, hcalm⟩, hnext⟩ := hstep
  exact (callsNext_trans hok (fun _ => hcalm) hnext).inv inv

/-- Without disturbances no assertion fails, and every `eaf_resume` succeeds. -/
theorem UndisturbedRun.safe (h : UndisturbedRun tr s) :
    s.aborted = false ∧ .abort ∉ tr ∧
      ∀ c code, .resume c code ∈ tr → code = Errno.success := by
  refine h.invariant (P := fun tr s => s.aborted = false ∧ .abort ∉ tr ∧
    ∀ c code, .resume c code ∈ tr → code = Errno.success)
    ⟨rfl, List.not_mem_nil, fun _ _ hin => absurd hin List.not_mem_nil⟩
    fun tr s events s' hrun ⟨hs, htr, hresumes⟩ hstep => ?_
  obtain ⟨a, ⟨⟨-, hok⟩, hcalm⟩, hnext⟩ := hstep
  have htrans : CallTrans True s events s' :=
    callsNext_trans hok (fun _ => hcalm) hnext
  have inv := UndisturbedRun.inv hrun
  have hevents : s'.aborted = s.aborted ∧ .abort ∉ events ∧
      ∀ c code, .resume c code ∈ events → code = Errno.success := by
    cases htrans with
    | abort hfault => exact absurd hfault (inv.no_fault trivial)
    | @wakeUp c hpc =>
        have hf := inv.facts c
        simp only [Calls.Facts, hpc] at hf
        exact absurd trivial hf.1
    | resumeOther _ hrough => exact absurd trivial hrough
    | _ => exact ⟨rfl, by simp, by simp⟩
  obtain ⟨hs', hevents, hresumes'⟩ := hevents
  refine ⟨hs'.trans hs, ?_, fun c code hin => ?_⟩
  · rw [List.mem_append, not_or]
    exact ⟨htr, hevents⟩
  · rcases List.mem_append.mp hin with hin | hin
    · exact hresumes c code hin
    · exact hresumes' c code hin

/-! ## How a call ends -/

/-- The service has been resumed at most once, and not before its response was
stored. -/
def CallHistory.Woken (h : CallHistory) : Prop :=
  h.resumes = 0 ∨ h.resumes = 1 ∧ ∃ rsp, h.stored = some rsp

theorem CallHistory.Found.woken (hf : h.Found calm) (hcalm : calm) :
    h.Woken := by
  rcases hf with ⟨hrough, -⟩ | ⟨⟨hstored, -⟩, hresumes⟩
  · exact absurd hcalm hrough
  · exact .inr ⟨hresumes hcalm, hstored⟩

theorem Calls.Sent.woken (hs : s.Sent calm h c r) (hcalm : calm) : h.Woken := by
  cases hs with
  | failed hrough => exact absurd hcalm hrough
  | unanswered _ _ hyield => exact .inl (hyield hcalm).2
  | answered hsend _ hyield =>
      rcases hyield hcalm with ⟨-, hzero, -⟩ | ⟨-, hone⟩
      · exact .inl hzero
      · exact .inr ⟨hone, hsend.1⟩

/-- A call is still open, or it has found its record, or it has come too
early. -/
theorem Calls.Facts.outcome (hf : s.Facts calm h c) :
    (h.Open ∧ (calm → h.Woken)) ∨ h.Settled calm ∨
      (¬calm ∧ h.finalized = some (Errno.notfound, none) ∧ h.Unanswered) := by
  unfold Calls.Facts at hf
  cases hpc : s.pc c with
  | idle =>
      simp only [hpc] at hf
      cases hf with
      | noCall _ ho _ _ hzero => exact .inl ⟨ho, fun hc => .inl (hzero hc)⟩
      | notFound hcalm hfin hanswer => exact .inr (.inr ⟨hcalm, hfin, hanswer⟩)
      | settled hs => exact .inr (.inl hs)
  | yielding req =>
      simp only [hpc] at hf
      exact .inl ⟨hf.opened, fun hc => .inl (hf.resumes hc)⟩
  | proxy req =>
      simp only [hpc] at hf
      exact .inl ⟨hf.1.opened, fun hc => .inl (hf.1.resumes hc)⟩
  | insert _ _ =>
      simp only [hpc] at hf
      exact .inl ⟨hf.1.opened, fun hc => .inl (hf.2.1.resumes hc)⟩
  | send _ _ =>
      simp only [hpc] at hf
      exact .inl ⟨hf.1.opened, fun hc => .inl (hf.2.2.1 hc).2⟩
  | errSendReq _ _ =>
      simp only [hpc] at hf
      exact .inl ⟨hf.1.opened, fun hc => absurd hc hf.2.1⟩
  | wakeUp =>
      simp only [hpc] at hf
      obtain ⟨hcalm, r, hfly, -⟩ := hf
      exact .inl ⟨hfly.opened, fun hc => absurd hc hcalm⟩
  | sent | waiting =>
      simp only [hpc] at hf
      obtain ⟨r, hfly, hs⟩ := hf
      exact .inl ⟨hfly.opened, hs.woken⟩
  | finalize =>
      simp only [hpc] at hf
      obtain ⟨r, hfly, hs, -⟩ := hf
      exact .inl ⟨hfly.opened, hs.woken⟩
  | found _ =>
      simp only [hpc] at hf
      exact .inl ⟨hf.1.opened, hf.2.1.woken⟩
  | deserialize _ | release _ =>
      simp only [hpc] at hf
      exact .inr (.inl hf.1)

end Powerpack
end Eaf
