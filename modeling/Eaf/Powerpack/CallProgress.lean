import Eaf.Powerpack.CallInvariant

/-!
# The progress of a call

Every step leads a call from one point in the code to the next as the facts
say.  While it is calm nothing goes wrong.
-/

namespace Eaf
namespace Powerpack

open Core KeyedTable

variable {calm : Prop} {s s' : Calls} {tr events : List CallEvent}
  {c c' idTo : UInt32} {m a u : MsgRef} {r r' : RecordRef} {x x' : Msg}
  {rec rec' : MessageRecord} {h : CallHistory} {rsp : Option MsgRef} {code : Int}

/-- The record of a request belongs to the call that has begun with it. -/
theorem Calls.Flying.record_eq (hfly : s.Flying h c r) (k : s.Keyed)
    (hrec : s.record r' = some rec) (hu : rec.uuid = s.unsafe0 c) : r' = r := by
  obtain ⟨ret, hown⟩ := hfly.own
  exact k.rec_inj hrec hown ((k.rec_uuid hrec).symm.trans hu)

/-- The record of somebody else's request is another one. -/
theorem Calls.Flying.other (hfly : s.Flying h c r) (k : s.Keyed)
    (hrec : s.record r' = some rec) (hne : rec.origFrom ≠ c) :
    s.unsafe0 c ≠ rec.uuid ∧ r ≠ r' := by
  obtain ⟨ret, hown⟩ := hfly.own
  have hr : r ≠ r' := by
    rintro rfl
    rw [hown] at hrec
    cases hrec
    exact hne rfl
  exact ⟨fun hu => hr (hfly.record_eq k hrec hu.symm).symm, hr⟩

/-- Where the request of an open call is. -/
theorem Calls.Facts.open_cases (hf : s.Facts calm h c)
    (hreq : h.req = some u) (hopen : h.finalized = none) :
    (s.pc c).req = some u ∨ ∃ r, s.Flying h c r ∧ s.unsafe0 c = u := by
  have hflying : ∀ r, s.Flying h c r →
      (s.pc c).req = some u ∨ ∃ r, s.Flying h c r ∧ s.unsafe0 c = u :=
    fun r hfly => .inr ⟨r, hfly, Option.some.inj (hfly.req.symm.trans hreq)⟩
  have hsettled : ¬h.Settled calm := by
    intro hs
    rw [hs.finalized] at hopen
    cases hopen
  unfold Calls.Facts at hf
  cases hpc : s.pc c with
  | idle =>
      simp only [hpc] at hf
      cases hf with
      | noCall hnone => rw [hreq] at hnone; cases hnone
      | notFound _ hfin => rw [hopen] at hfin; cases hfin
      | settled hs => exact absurd hs hsettled
  | yielding req | proxy req =>
      simp only [hpc] at hf
      first
        | exact .inl (hf.req.symm.trans hreq ▸ rfl)
        | exact .inl (hf.1.req.symm.trans hreq ▸ rfl)
  | insert _ r | send _ r | found r | errSendReq r _ =>
      simp only [hpc] at hf
      exact hpc ▸ hflying r hf.1
  | wakeUp =>
      simp only [hpc] at hf
      obtain ⟨-, r, hfly, -⟩ := hf
      exact hpc ▸ hflying r hfly
  | sent | waiting =>
      simp only [hpc] at hf
      obtain ⟨r, hfly, -⟩ := hf
      exact hpc ▸ hflying r hfly
  | finalize =>
      simp only [hpc] at hf
      obtain ⟨r, hfly, -, -⟩ := hf
      exact hpc ▸ hflying r hfly
  | deserialize _ | release _ =>
      simp only [hpc] at hf
      exact absurd hf.1 hsettled

/-- A caller that waits. -/
theorem Calls.Facts.of_waits (hf : s.Facts calm h c) (hpc : (s.pc c).Waits) :
    ∃ r, s.Flying h c r ∧ s.Sent calm h c r := by
  unfold Calls.Facts at hf
  rcases hpc with hpc | hpc <;> simpa only [hpc] using hf

theorem Calls.Facts.of_sent (hpc : (s.pc c).Waits) (hfly : s.Flying h c r)
    (hs : s.Sent calm h c r) : s.Facts calm h c := by
  unfold Calls.Facts
  rcases hpc with hpc | hpc <;> simpa only [hpc] using ⟨r, hfly, hs⟩

/-- While it is calm, a caller that waits for an answer has yielded. -/
theorem Calls.Sent.of_pend (hs : s.Sent calm h c r) (k : s.Keyed)
    (hpend : s.pendTable (s.unsafe0 c) = some r') :
    h.Unanswered ∧ r' = r ∧ (calm → s.state c = .yield ∧ h.resumes = 0) := by
  cases hs with
  | failed _ _ hready | answered _ hready _ =>
      rw [k.disjoint hpend] at hready
      cases hready
  | unanswered hsend hp hcalm =>
      rw [hp] at hpend
      cases hpend
      exact ⟨hsend, rfl, hcalm⟩

/-- While it is calm, a caller with an answer has not yet been resumed, or has
been resumed once. -/
theorem Calls.Sent.of_ready (hs : s.Sent calm h c r) (k : s.Keyed)
    (hready : s.readyTable (s.unsafe0 c) = some r') :
    r' = r ∧ ((¬calm ∧ h.Failed) ∨ h.Answered ∧ (calm →
      (s.state c = .yield ∧ h.resumes = 0 ∧
        ∃ rsp, h.stored = some rsp ∧ s.handler = .resume rsp c) ∨
      (s.state c = .busy ∧ h.resumes = 1))) := by
  cases hs with
  | unanswered _ hpend =>
      rw [k.disjoint hpend] at hready
      cases hready
  | failed hcalm hsend hr =>
      rw [hr] at hready
      cases hready
      exact ⟨rfl, .inl ⟨hcalm, hsend⟩⟩
  | answered hsend hr hcalm =>
      rw [hr] at hready
      cases hready
      exact ⟨rfl, .inr ⟨hsend, hcalm⟩⟩

/-- A service that runs again has been resumed once, while it is calm. -/
theorem Calls.Sent.resumed (hs : s.Sent calm h c r) (hstate : s.state c = .busy)
    (hcalm : calm) : h.resumes = 1 := by
  have hnot : s.state c ≠ .yield := by rw [hstate]; simp
  cases hs with
  | failed hrough => exact absurd hcalm hrough
  | unanswered _ _ hyield => exact absurd (hyield hcalm).1 hnot
  | answered _ _ hyield =>
      rcases hyield hcalm with ⟨hyield, -⟩ | ⟨-, hresumes⟩
      · exact absurd hyield hnot
      · exact hresumes

/-- It does not matter where the caller is. -/
theorem Calls.Sent.setPc {pc : CallerPc} (hs : s.Sent calm h c r) :
    (s.setPc c' pc).Sent calm h c r := by
  cases hs with
  | failed hcalm hsend hready => exact .failed hcalm hsend hready
  | unanswered hsend hpend hcalm => exact .unanswered hsend hpend hcalm
  | answered hsend hready hcalm => exact .answered hsend hready hcalm

theorem Calls.Flying.setPc {pc : CallerPc} (hfly : s.Flying h c r) :
    (s.setPc c' pc).Flying h c r :=
  ⟨hfly.req, hfly.opened, hfly.own⟩

/-- The response of a call is stored. -/
theorem Calls.Sent.stored (hs : s.Sent calm h c r) (k : s.Keyed)
    (hpend : s.pendTable (s.unsafe0 c) = some r)
    (hword : s'.unsafe0 c = s.unsafe0 c) (hstate : s'.state c = s.state c) (hhandler : s'.handler = .resume m c)
    (hready : s'.readyTable (s.unsafe0 c) = some r) :
    s'.Sent calm { h with stored := some m } c r := by
  obtain ⟨⟨-, hsend⟩, -, hcalm⟩ := hs.of_pend k hpend
  refine .answered ⟨⟨m, rfl⟩, hsend⟩ (by rw [hword]; exact hready) fun hc => ?_
  rw [hstate]
  exact .inl ⟨(hcalm hc).1, (hcalm hc).2, m, rfl, hhandler⟩

/-- Only a call whose request has been sent can have a response under way. -/
theorem Calls.Facts.store (hf : s.Facts calm h c) (k : s.Keyed)
    (hfly : s.Flying h c r) (hpend : s.pendTable (s.unsafe0 c) = some r)
    (hin : s.unsafe0 c ∈ s.outstanding) (hpc : s'.pc = s.pc)
    (hword : s'.unsafe0 = s.unsafe0) (hstate : s'.state = s.state)
    (hhandler : s'.handler = .resume m c)
    (hready : s'.readyTable (s.unsafe0 c) = some r)
    (hrecord : s'.Own c r (some m)) :
    s'.Facts calm { h with stored := some m } c := by
  have hflying : s'.Flying { h with stored := some m } c r :=
    ⟨by rw [hword]; exact hfly.req,
      ⟨hfly.opened.1, hfly.opened.2, hfly.opened.3⟩, hrecord⟩
  have hsent : ∀ r', s.Flying h c r' → s.Sent calm h c r' →
      ∃ r', s'.Flying { h with stored := some m } c r' ∧
        s'.Sent calm { h with stored := some m } c r' := by
    intro r' _ hs
    obtain ⟨-, rfl, -⟩ := hs.of_pend k hpend
    exact ⟨r, hflying,
      hs.stored k hpend (by rw [hword]) (by rw [hstate]) hhandler hready⟩
  -- what is under way for a record that is not sent is a late answer
  have hunsent : ∀ r', s.Unsent calm h (s.unsafe0 c) r' → r = r' ∧ ¬calm := by
    rintro r' (⟨hp, -, hnot⟩ | ⟨hcalm, hr, -⟩)
    · exact ⟨Option.some.inj (hpend.symm.trans hp), fun hc => hnot hc hin⟩
    · rw [k.disjoint hpend] at hr
      cases hr
  have hout : ¬s.Outside (s.unsafe0 c) := by
    rintro ⟨hnone, -⟩
    rw [hpend] at hnone
    cases hnone
  unfold Calls.Facts at hf ⊢
  rw [hpc]
  cases hcase : s.pc c with
  | idle =>
      simp only [hcase] at hf
      have hopen := hfly.opened.finalized
      cases hf with
      | noCall hnone => rw [hfly.req] at hnone; cases hnone
      | notFound _ hfin => rw [hopen] at hfin; cases hfin
      | settled hs => rw [hs.finalized] at hopen; cases hopen
  | deserialize _ | release _ =>
      simp only [hcase] at hf
      have hopen := hfly.opened.finalized
      rw [hf.1.finalized] at hopen
      cases hopen
  | yielding req | proxy req =>
      simp only [hcase] at hf
      obtain ⟨ret, hown⟩ := hfly.own
      have hreq : h.req = some req := by
        first
          | exact hf.req
          | exact hf.1.req
      exact absurd (Option.some.inj (hfly.req.symm.trans hreq))
        (k.req_rec (c := c) (by rw [hcase]; rfl) hown)
  | insert _ _ =>
      simp only [hcase] at hf
      exact absurd hf.2.2.2 hout
  | found _ =>
      simp only [hcase] at hf
      exact absurd hf.2.2 hout
  | send _ r' =>
      simp only [hcase] at hf
      obtain ⟨hfly', hcode, hyield, ho⟩ := hf
      obtain ⟨rfl, hcalm⟩ := hunsent r' ho
      rw [hword, hstate]
      exact ⟨hflying, hcode, hyield, .inr ⟨hcalm, hready, m, rfl⟩⟩
  | errSendReq r' _ =>
      simp only [hcase] at hf
      obtain ⟨hfly', -, hcode, ho⟩ := hf
      obtain ⟨rfl, hcalm⟩ := hunsent r' ho
      rw [hword]
      exact ⟨hflying, hcalm, hcode, .inr ⟨hcalm, hready, m, rfl⟩⟩
  | wakeUp =>
      simp only [hcase] at hf
      obtain ⟨hcalm, r', hfly', hs⟩ := hf
      exact ⟨hcalm, hsent r' hfly' hs⟩
  | sent | waiting =>
      simp only [hcase] at hf
      obtain ⟨r', hfly', hs⟩ := hf
      exact hsent r' hfly' hs
  | finalize =>
      simp only [hcase] at hf
      obtain ⟨r', hfly', hs, hresumes⟩ := hf
      obtain ⟨r₁, hfly₁, hs₁⟩ := hsent r' hfly' hs
      exact ⟨r₁, hfly₁, hs₁, hresumes⟩

/-- What matters only while it is calm, and what does not matter here. -/
def CallEvent.Minor : CallEvent → Prop
  | .resume _ _ | .resumeOther _ | .releaseRsp _ _ | .deserialize _ _
  | .finish _ _ | .noMemory _ | .abort => True
  | .begin _ _ | .send _ _ | .store _ _ | .releaseReq _ _ | .freeRecord _
  | .finalize _ _ _ => False

/-- Without calm, resumes do not matter. -/
theorem Alike.of_minor (hcalm : ¬calm) (he : ∀ e ∈ events, e.Minor) :
    Alike calm (history c tr) (history c (tr ++ events)) := by
  rw [history_append]
  generalize history c tr = h
  induction events generalizing h with
  | nil => exact .refl calm h
  | cons e rest ih =>
      have hfirst : Alike calm h (h.after c e) := by
        have hminor := he e (by simp)
        cases e <;> simp only [CallEvent.Minor] at hminor <;>
          simp only [CallHistory.after] <;> (try split) <;>
          exact ⟨rfl, rfl, rfl, rfl, rfl, rfl, fun h => absurd h hcalm⟩
      have hrest := ih (fun e' he' => he e' (by simp [he'])) (h.after c e)
      exact ⟨hrest.1.trans hfirst.1, hrest.2.trans hfirst.2,
        hrest.3.trans hfirst.3, hrest.4.trans hfirst.4, hrest.5.trans hfirst.5,
        hrest.6.trans hfirst.6, fun h => absurd h hcalm⟩

/-- While it is calm, nothing goes wrong. -/
theorem Calls.Inv.no_fault (inv : s.Inv calm tr) (hcalm : calm) :
    ¬CallFault s := by
  have k := inv.keyed
  have bal := inv.balanced
  intro hfault
  cases hfault with
  | @proxy c req hpc hmsg =>
      obtain ⟨x, hx⟩ := bal.live_req (c := c) (by rw [hpc]; rfl)
      rw [hmsg] at hx
      cases hx
  | @insert c idTo r hpc hrec =>
      have hf := inv.facts c
      simp only [Calls.Facts, hpc] at hf
      obtain ⟨⟨-, -, ret, hown⟩, -, -, ho⟩ := hf
      have hsome := hrec _ hown
      rw [ho.1] at hsome
      cases hsome
  | @send c idTo r hpc hrec =>
      have hf := inv.facts c
      simp only [Calls.Facts, hpc] at hf
      obtain ⟨⟨-, -, ret, hown⟩, -⟩ := hf
      obtain ⟨x, hx⟩ := bal.live_record hown
      rw [hrec _ hown] at hx
      cases hx
  | @errSendReq c r code hpc hrec =>
      have hf := inv.facts c
      simp only [Calls.Facts, hpc] at hf
      exact hf.2.1 hcalm
  | @found c r hpc hrec =>
      have hf := inv.facts c
      simp only [Calls.Facts, hpc] at hf
      obtain ⟨⟨-, -, ret, hown⟩, -⟩ := hf
      obtain ⟨x, hx⟩ := bal.live_record hown
      rw [hrec _ hown] at hx
      cases hx
  | @release c rsp hpc hmsg =>
      have hf := inv.facts c
      simp only [Calls.Facts, hpc] at hf
      obtain ⟨hsettled, hstored⟩ := hf
      rcases hsettled.found with ⟨hnot, -⟩ | ⟨⟨⟨m, hm⟩, -⟩, -⟩
      · exact hnot hcalm
      · obtain rfl := hm.symm.trans hstored
        have hheld : 0 < s.held (.caller c) m := by
          simp [Calls.held, hpc, CallerPc.held, one_self]
        obtain ⟨x, hx⟩ := bal.live hheld
        rw [Option.bind_some, hx] at hmsg
        cases hmsg
  | request he hmsg =>
      obtain ⟨x, hx⟩ := bal.live_inbox he
      rw [hmsg] at hx
      cases hx
  | @entered m hpc hmsg =>
      obtain ⟨x, hx⟩ := bal.live_unstored (m := m) (by rw [hpc]; simp [HandlerPc.unstored])
      rw [hmsg] at hx
      cases hx
  | @counted m hpc hmsg =>
      obtain ⟨x, hx⟩ := bal.live_unstored (m := m) (by rw [hpc]; simp [HandlerPc.unstored])
      have hout : x.uuid ∈ s.outstanding := by
        unfold Calls.outstanding outstandingBy
        have huuid : s.uuidOf m = x.uuid := by simp [Calls.uuidOf, hx]
        rw [hpc]
        simp [HandlerPc.unstored, huuid]
      obtain ⟨r, hr⟩ := (inv.due hcalm).pend hout
      obtain ⟨rec, hrec, -⟩ := k.pend hr
      have hsome := hmsg x r rec hx hr hrec
      rw [k.disjoint hr] at hsome
      cases hsome
  | @resume m c hpc hstate => exact hstate (inv.wakes hcalm m c hpc).2.1
  | @leave m hpc hmsg =>
      have hheld : 0 < s.held .handler m := by
        simp [Calls.held, hpc, HandlerPc.held, one_self]
      obtain ⟨x, hx⟩ := bal.live hheld
      rw [hmsg] at hx
      cases hx

/-! ## Facts -/

/-- What is known about a call that has no part in a step. -/
theorem Calls.Inv.facts_other (inv : s.Inv calm tr) (c : UInt32)
    (hevents : ∀ e ∈ events, e.caller? ≠ some c)
    (hstore : ∀ uuid rsp, .store uuid rsp ∈ events →
      ¬((history c tr).req = some uuid ∧ (history c tr).finalized = none))
    (hu : Untouched calm s s' (history c tr) c) :
    s'.Facts calm (history c (tr ++ events)) c := by
  rw [history_other hevents hstore]
  exact (inv.facts c).untouched hu (.refl ..)

/-- A caller goes on by itself, and its records and entries stay. -/
theorem Calls.Inv.facts_own {pc : CallerPc} (inv : s.Inv calm tr) (c : UInt32)
    (hpcs : s'.pc = (s.setPc c pc).pc)
    (hword : ∀ c', c' ≠ c → s'.unsafe0 c' = s.unsafe0 c')
    (hstate : ∀ c', c' ≠ c → s'.state c' = s.state c')
    (hhandler : s'.handler = s.handler) (hrecord : s'.record = s.record)
    (hpend : s'.pendTable = s.pendTable) (hready : s'.readyTable = s.readyTable)
    (hout : s'.outstanding ≤ s.outstanding)
    (hevents : ∀ e ∈ events, e.caller? = some c)
    (hown : s'.pc c = pc → s'.Facts calm (history c (tr ++ events)) c) :
    ∀ c', s'.Facts calm (history c' (tr ++ events)) c' := by
  intro c'
  by_cases hc : c' = c
  · subst hc
    refine hown ?_
    rw [hpcs, Calls.setPc_pc, Function.update_self]
  · refine inv.facts_other c' (fun e he heq => ?_) (fun uuid rsp hmem => ?_) ?_
    · exact hc (Option.some.inj (heq.symm.trans (hevents e he)))
    · cases hevents _ hmem
    · refine .of_same ?_ (hword c' hc) (fun _ => hstate c' hc)
        (fun _ rsp hr => hhandler.trans hr) hrecord hpend hready fun _ => hout
      rw [hpcs, Calls.setPc_pc, Function.update_of_ne hc]

/-- A caller makes a record, or moves the entry of its record. -/
theorem Calls.Inv.facts_moved {pc : CallerPc} (inv : s.Inv calm tr) (c : UInt32)
    (r : RecordRef) (u : MsgRef) (hpcs : s'.pc = (s.setPc c pc).pc)
    (hword : ∀ c', c' ≠ c → s'.unsafe0 c' = s.unsafe0 c')
    (hstate : s'.state = s.state) (hhandler : s'.handler = s.handler)
    (hmine : ∀ c' r', c' ≠ c → s.Flying (history c' tr) c' r' →
      s.unsafe0 c' ≠ u ∧ r' ≠ r)
    (hrecord : ∀ r', r' ≠ r → s'.record r' = s.record r')
    (hpend : ∀ u', u' ≠ u → s'.pendTable u' = s.pendTable u')
    (hready : ∀ u', u' ≠ u → s'.readyTable u' = s.readyTable u')
    (hout : ∀ u', u' ≠ u → u' ∉ s.outstanding → u' ∉ s'.outstanding)
    (hevents : ∀ e ∈ events, e.caller? = some c)
    (hown : s'.pc c = pc → s'.Facts calm (history c (tr ++ events)) c) :
    ∀ c', s'.Facts calm (history c' (tr ++ events)) c' := by
  intro c'
  by_cases hc : c' = c
  · subst hc
    refine hown ?_
    rw [hpcs, Calls.setPc_pc, Function.update_self]
  · refine inv.facts_other c' (fun e he heq => ?_) (fun uuid rsp hmem => ?_) ?_
    · exact hc (Option.some.inj (heq.symm.trans (hevents e he)))
    · cases hevents _ hmem
    · refine .of_other ?_ (hword c' hc) (fun _ => by rw [hstate])
        (fun _ rsp hr => hhandler.trans hr) (hmine c' · hc) hrecord hpend hready
        hout
      rw [hpcs, Calls.setPc_pc, Function.update_of_ne hc]

/-- A step of nobody who calls. -/
theorem Calls.Inv.facts_outer (inv : s.Inv calm tr) (hpc : s'.pc = s.pc)
    (hword : s'.unsafe0 = s.unsafe0) (hstate : s'.state = s.state)
    (hhandler : calm → ∀ rsp c, s.handler = .resume rsp c →
      s'.handler = .resume rsp c)
    (hrecord : s'.record = s.record) (hpend : s'.pendTable = s.pendTable)
    (hready : s'.readyTable = s.readyTable)
    (hout : calm → s'.outstanding ≤ s.outstanding) :
    ∀ c, s'.Facts calm (history c (tr ++ [])) c := by
  intro c
  refine inv.facts_other c (by simp) (by simp) (.of_same (by rw [hpc])
    (by rw [hword]) (fun _ => by rw [hstate])
    (fun hc rsp hr => hhandler hc rsp c hr) hrecord hpend hready hout)

/-- The state of a service and the resumes it has seen matter only while it is
calm. -/
theorem Calls.Inv.facts_rough (inv : s.Inv calm tr) (hcalm : ¬calm)
    (hpc : s'.pc = s.pc) (hword : s'.unsafe0 = s.unsafe0)
    (hrecord : s'.record = s.record) (hpend : s'.pendTable = s.pendTable)
    (hready : s'.readyTable = s.readyTable)
    (halike : ∀ c, Alike calm (history c tr) (history c (tr ++ events))) :
    ∀ c, s'.Facts calm (history c (tr ++ events)) c := by
  intro c
  exact (inv.facts c).untouched (.of_same (by rw [hpc]) (by rw [hword])
    (fun hc => absurd hc hcalm) (fun hc => absurd hc hcalm) hrecord hpend hready
    (fun hc => absurd hc hcalm)) (halike c)

/-- **Every step leads a call on as the facts say.** -/
theorem CallTrans.facts (h : CallTrans calm s events s') (inv : s.Inv calm tr)
    (bal' : s'.Balanced) :
    ∀ c, s'.Facts calm (history c (tr ++ events)) c := by
  have k := inv.keyed
  have bal := inv.balanced
  have hcopy := h
  cases h with
  | @begin c a dst msgId size hpc hstate hfree =>
      refine inv.facts_own c rfl (fun c' hc => Function.update_of_ne hc ..)
        (fun _ _ => rfl) rfl rfl rfl rfl
        (hcopy.outstanding_same bal bal' rfl rfl).le (by simp [CallEvent.caller?])
        fun hpc' => ?_
      rw [Calls.Facts, hpc', history_append]
      simp only [List.foldl_cons, List.foldl_nil, CallHistory.after, if_true]
      exact ⟨rfl, ⟨rfl, rfl, rfl⟩, rfl, rfl, fun _ => rfl⟩
  | noMemory =>
      intro c'
      exact inv.facts_other c' (by simp [CallEvent.caller?]) (by simp)
        (.of_same rfl rfl (fun _ => rfl) (fun _ _ h => h) rfl rfl rfl fun _ => le_rfl)
  | @yield c req hpc =>
      have hf := inv.facts c
      simp only [Calls.Facts, hpc] at hf
      refine inv.facts_own c rfl (fun _ _ => rfl)
        (fun c' hc => Function.update_of_ne hc ..) rfl rfl rfl rfl
        (hcopy.outstanding_same bal bal' rfl rfl).le (by simp) fun hpc' => ?_
      rw [Calls.Facts, hpc', List.append_nil]
      exact ⟨hf, fun _ => Function.update_self ..⟩
  | @proxy c req r x hpc hfree hmsg =>
      have hf := inv.facts c
      simp only [Calls.Facts, hpc] at hf
      have hreq : (s.pc c).req = some req := by rw [hpc]; rfl
      have huuid : x.uuid = req := k.self (.inl ⟨c, hreq⟩) hmsg
      have hout := hcopy.outstanding_same bal bal' rfl rfl
      -- nobody else has a record of this request
      have hnone : s.Outside req := by
        constructor
        · cases hpend : s.pendTable req with
          | none => rfl
          | some r' =>
              obtain ⟨rec, hrec, hu, -⟩ := k.pend hpend
              exact absurd ((k.rec_uuid hrec).symm.trans hu) (k.req_rec hreq hrec)
        · cases hready : s.readyTable req with
          | none => rfl
          | some r' =>
              obtain ⟨rec, hrec, hu⟩ := k.ready hready
              exact absurd ((k.rec_uuid hrec).symm.trans hu) (k.req_rec hreq hrec)
      refine inv.facts_moved c r req rfl
        (fun c' hc => Function.update_of_ne hc ..) rfl rfl
        (fun c' r' hc hfly => ?_) (fun r' hr' => Function.update_of_ne hr' ..)
        (fun _ _ => rfl) (fun _ _ => rfl) (fun u _ hu => by rwa [hout])
        (by simp) fun hpc' => ?_
      · obtain ⟨ret, hown⟩ := hfly.own
        refine ⟨fun hu => ?_, fun hr => ?_⟩
        · exact k.req_rec hreq hown hu
        · rw [hr, hfree] at hown
          cases hown
      · have hword : ∀ s'' : Calls, s''.unsafe0 c = req → s''.record r =
            some ⟨x.uuid, req, none, c, Errno.success⟩ →
              s''.Flying (history c tr) c r := by
          intro s'' hw hrec
          refine ⟨by rw [hw]; exact hf.1.req, hf.1.opened, Errno.success, ?_⟩
          rw [hrec, hw, hf.1.stored, huuid]
        have hw : (((s.setWord c x.uuid).setRecord r (some ⟨x.uuid, req, none,
            c, Errno.success⟩)).setPc c
              (.insert (getW1 (s.unsafe0 c)) r)).unsafe0 c = req :=
          (Function.update_self ..).trans huuid
        rw [Calls.Facts, hpc', List.append_nil]
        dsimp only
        rw [hw]
        exact ⟨hword _ hw (Function.update_self ..), hf.1, hf.2, hnone⟩
  | @insert c idTo r rec hpc hrec hnone =>
      have hf := inv.facts c
      simp only [Calls.Facts, hpc] at hf
      obtain ⟨hfly, hbegun, hstate, ho⟩ := hf
      obtain ⟨ret, hown⟩ := hfly.own
      rw [hrec] at hown
      cases hown
      have hout := hcopy.outstanding_same bal bal' rfl rfl
      refine inv.facts_moved c r (s.unsafe0 c) rfl (fun _ _ => rfl) rfl rfl
        (fun c' r' hc hfly' => hfly'.other k hrec (Ne.symm hc))
        (fun _ _ => rfl) (fun u hu => Function.update_of_ne hu ..)
        (fun _ _ => rfl) (fun u _ hu => by rwa [hout]) (by simp) fun hpc' => ?_
      rw [Calls.Facts, hpc', List.append_nil]
      refine ⟨⟨hfly.req, hfly.opened, ret, hrec⟩, hbegun.sendCode,
        fun hc => ⟨hstate hc, hbegun.resumes hc⟩,
        .inl ⟨Function.update_self .., hbegun.stored, fun hc hin => ?_⟩⟩
      rw [hout] at hin
      obtain ⟨r', hr'⟩ := (inv.due hc).pend hin
      exact absurd (hr'.symm.trans ho.1) (by simp)
  | @sendFails c idTo r code hpc hcode hcalm =>
      have hf := inv.facts c
      simp only [Calls.Facts, hpc] at hf
      obtain ⟨hfly, -, -, hunsent⟩ := hf
      have hout := hcopy.outstanding_same bal bal' rfl rfl
      refine inv.facts_own c rfl (fun _ _ => rfl) (fun _ _ => rfl) rfl rfl rfl
        rfl hout.le (by simp [CallEvent.caller?]) fun hpc' => ?_
      rw [Calls.Facts, hpc', history_append]
      simp only [List.foldl_cons, List.foldl_nil, CallHistory.after, if_true]
      refine ⟨⟨hfly.req, ⟨hfly.opened.1, hfly.opened.2, hfly.opened.3⟩,
        hfly.own⟩, hcalm, ⟨trivial, hcode⟩, ?_⟩
      rcases hunsent with ⟨hpend, hnone, -⟩ | hready
      · exact .inl ⟨hpend, hnone, fun hc => absurd hc hcalm⟩
      · exact .inr hready
  | @send c idTo r code rec x hpc hcode hrec hmsg =>
      have hf := inv.facts c
      simp only [Calls.Facts, hpc] at hf
      obtain ⟨hfly, -, hyield, hunsent⟩ := hf
      have hcall := hfly.own
      obtain ⟨ret, hown⟩ := hfly.own
      rw [hrec] at hown
      cases hown
      have hout := hcopy.outstanding_sent (m := s.unsafe0 c) bal bal' rfl rfl
      refine inv.facts_moved c r (s.unsafe0 c) rfl (fun _ _ => rfl) rfl rfl
        (fun c' r' hc hfly' => hfly'.other k hrec (Ne.symm hc))
        (fun _ _ => rfl) (fun _ _ => rfl) (fun _ _ => rfl) (fun u hu hnot' => ?_)
        (by simp [CallEvent.caller?]) fun hpc' => ?_
      · rw [hout, Multiset.mem_cons, not_or]
        exact ⟨hu, hnot'⟩
      · rw [Calls.Facts, hpc', history_append]
        simp only [List.foldl_cons, List.foldl_nil, CallHistory.after, if_true]
        refine ⟨r, ⟨hfly.req, ⟨hfly.opened.1, hfly.opened.2, hfly.opened.3⟩,
          hcall⟩, ?_⟩
        rcases hunsent with ⟨hpend, hnone, -⟩ | ⟨hcalm, hready, hstored⟩
        · exact .unanswered ⟨hnone, code, rfl, hcode⟩ hpend hyield
        · exact .answered ⟨hstored, code, rfl, hcode⟩ hready
            fun hc => absurd hc hcalm
  | @errSendReq c r code rec ready hpc hrec hpend hready =>
      have hf := inv.facts c
      simp only [Calls.Facts, hpc] at hf
      obtain ⟨hfly, hcalm, ⟨hcode, hneg⟩, hunsent⟩ := hf
      obtain ⟨ret, hown⟩ := hfly.own
      rw [hrec] at hown
      cases hown
      have hfresh := hready (k.disjoint hpend)
      have hnone : (history c tr).stored = none := by
        rcases hunsent with ⟨-, hnone, -⟩ | ⟨-, hready', -⟩
        · exact hnone
        · rw [k.pend_none hready'] at hpend
          cases hpend
      have hout := hcopy.outstanding_same bal bal' rfl rfl
      refine inv.facts_moved c r (s.unsafe0 c) rfl (fun _ _ => rfl) rfl rfl
        (fun c' r' hc hfly' => hfly'.other k hrec (Ne.symm hc))
        (fun r' hr' => Function.update_of_ne hr' ..)
        (fun u hu => Function.update_of_ne hu ..) (fun u hu => ?_)
        (fun u _ hu => by rwa [hout]) (by simp) fun hpc' => ?_
      · show ready u = s.readyTable u
        rw [hfresh, Function.update_of_ne hu]
      · rw [Calls.Facts, hpc', List.append_nil]
        refine ⟨hcalm, r, ⟨hfly.req, hfly.opened, code, Function.update_self ..⟩,
          .failed hcalm ⟨hnone, code, hcode, hneg⟩ ?_⟩
        show ready (s.unsafe0 c) = some r
        rw [hfresh, Function.update_self]
  | @wakeUp c hpc =>
      have hf := inv.facts c
      simp only [Calls.Facts, hpc] at hf
      obtain ⟨hcalm, r, hfly, hs⟩ := hf
      obtain ⟨state, heq⟩ := s.eafResume_eq c
      rw [heq] at hcopy bal' ⊢
      have hout := hcopy.outstanding_same bal bal' rfl rfl
      have ha : Alike calm (history c tr)
          (history c (tr ++ [.resume c (s.eafResume c).2])) :=
        .of_minor hcalm (by simp [CallEvent.Minor])
      have hu : Untouched calm s (s.setState c state) (history c tr) c :=
        .of_same rfl rfl (fun hc => absurd hc hcalm)
          (fun hc => absurd hc hcalm) rfl rfl rfl fun _ => le_rfl
      refine inv.facts_own c rfl (fun _ _ => rfl)
        (fun c' hc => Function.update_of_ne hc ..) rfl rfl rfl rfl hout.le
        (by simp [CallEvent.caller?]) fun hpc' => ?_
      rw [Calls.Facts, hpc']
      exact ⟨r, (hfly.untouched hu ha).setPc, (hs.untouched hfly hu ha).setPc⟩
  | @sent c hpc =>
      have hf := inv.facts c
      simp only [Calls.Facts, hpc] at hf
      obtain ⟨r, hfly, hs⟩ := hf
      refine inv.facts_own c rfl (fun _ _ => rfl) (fun _ _ => rfl) rfl rfl rfl
        rfl (hcopy.outstanding_same bal bal' rfl rfl).le (by simp) fun hpc' => ?_
      rw [Calls.Facts, hpc', List.append_nil]
      exact ⟨r, hfly.setPc, hs.setPc⟩
  | @waiting c hpc hstate =>
      have hf := inv.facts c
      simp only [Calls.Facts, hpc] at hf
      obtain ⟨r, hfly, hs⟩ := hf
      refine inv.facts_own c rfl (fun _ _ => rfl) (fun _ _ => rfl) rfl rfl rfl
        rfl (hcopy.outstanding_same bal bal' rfl rfl).le (by simp) fun hpc' => ?_
      rw [Calls.Facts, hpc', List.append_nil]
      exact ⟨r, hfly.setPc, hs.setPc, hs.resumed hstate⟩
  | @notFound c hpc hready =>
      have hf := inv.facts c
      simp only [Calls.Facts, hpc] at hf
      obtain ⟨r, hfly, hs, hresumes⟩ := hf
      refine inv.facts_own c rfl (fun _ _ => rfl) (fun _ _ => rfl) rfl rfl rfl
        rfl (hcopy.outstanding_same bal bal' rfl rfl).le
        (by simp [CallEvent.caller?]) fun hpc' => ?_
      rw [Calls.Facts, hpc', history_append]
      simp only [List.foldl_cons, List.foldl_nil, CallHistory.after, if_true]
      cases hs with
      | failed _ _ hr | answered _ hr _ =>
          rw [hready] at hr
          cases hr
      | unanswered hsend hpend hcalm =>
          -- a calm caller that runs again would have its response
          refine .notFound (fun hc => ?_) rfl hsend
          have hzero := (hcalm hc).2
          have hone := hresumes hc
          omega
  | @finalize c r hpc hready =>
      have hf := inv.facts c
      simp only [Calls.Facts, hpc] at hf
      obtain ⟨r', hfly, hs, hresumes⟩ := hf
      obtain ⟨rfl, hanswer⟩ := hs.of_ready k hready
      obtain ⟨ret, hown⟩ := hfly.own
      have hout := hcopy.outstanding_same bal bal' rfl rfl
      have hnone := k.pend_none hready
      refine inv.facts_moved c r (s.unsafe0 c) rfl (fun _ _ => rfl) rfl rfl
        (fun c' r' hc hfly' => hfly'.other k hown (Ne.symm hc))
        (fun _ _ => rfl) (fun _ _ => rfl) (fun u hu => Function.update_of_ne hu ..)
        (fun u _ hu => by rwa [hout]) (by simp) fun hpc' => ?_
      rw [Calls.Facts, hpc', List.append_nil]
      refine ⟨⟨hfly.req, hfly.opened, hfly.own⟩, ?_, hnone,
        Function.update_self ..⟩
      rcases hanswer with ⟨hcalm, hfailed⟩ | ⟨hanswered, -⟩
      · exact .inl ⟨hcalm, hfailed⟩
      · exact .inr ⟨hanswered, hresumes⟩
  | @found c r rec x hpc hrec hmsg =>
      have hf := inv.facts c
      simp only [Calls.Facts, hpc] at hf
      obtain ⟨hfly, hfound, ho⟩ := hf
      obtain ⟨ret, hown⟩ := hfly.own
      rw [hrec] at hown
      cases hown
      have hout := hcopy.outstanding_same bal bal' rfl rfl
      refine inv.facts_moved c r (s.unsafe0 c) rfl (fun _ _ => rfl) rfl rfl
        (fun c' r' hc hfly' => hfly'.other k hrec (Ne.symm hc))
        (fun r' hr' => Function.update_of_ne hr' ..) (fun _ _ => rfl)
        (fun _ _ => rfl) (fun u _ hu => by rwa [hout])
        (by simp [CallEvent.caller?]) fun hpc' => ?_
      rw [Calls.Facts, hpc', history_append]
      simp only [List.foldl_cons, List.foldl_nil, CallHistory.after, if_true,
        hfly.opened.releasedReqs, hfly.opened.freedRecords, List.nil_append]
      exact ⟨⟨⟨s.unsafe0 c, hfly.req, rfl⟩, rfl, rfl, hfound⟩, trivial⟩
  | @deserialize c rsp hpc =>
      have hf := inv.facts c
      simp only [Calls.Facts, hpc] at hf
      refine inv.facts_own c rfl (fun _ _ => rfl) (fun _ _ => rfl) rfl rfl rfl
        rfl (hcopy.outstanding_same bal bal' rfl rfl).le
        (by simp [CallEvent.caller?]) fun hpc' => ?_
      rw [Calls.Facts, hpc', history_append]
      simp only [List.foldl_cons, List.foldl_nil, CallHistory.after, if_true]
      exact ⟨hf.1.alike ⟨rfl, rfl, rfl, rfl, rfl, rfl, fun _ => rfl⟩, hf.2⟩
  | @release c rsp x hpc hmsg =>
      have hf := inv.facts c
      simp only [Calls.Facts, hpc] at hf
      refine inv.facts_own c rfl (fun _ _ => rfl) (fun _ _ => rfl) rfl rfl rfl
        rfl (hcopy.outstanding_same bal bal' rfl rfl).le
        (by simp [CallEvent.caller?]) fun hpc' => ?_
      rw [Calls.Facts, hpc', history_append]
      simp only [List.foldl_cons, List.foldl_nil, CallHistory.after, if_true]
      exact .settled
        (hf.1.alike ⟨rfl, rfl, rfl, rfl, rfl, rfl, fun _ => rfl⟩)
  | @respond e before after a x size hin hfree hnew hmsg =>
      have huuid : x.uuid = e.req :=
        k.self (.inr (.inr ⟨e, by simp [hin], rfl⟩)) hmsg
      exact inv.facts_outer rfl rfl rfl (fun _ _ _ h => h) rfl rfl rfl
        fun hc => (hcopy.outstanding_answered (a := a) bal bal' hin rfl (hnew hc)
          (List.append_assoc ..).symm
          (by simp [Calls.uuidOf, msgCreateRsp, huuid])).le
  | @forget e before after x hin hmsg =>
      exact inv.facts_outer rfl rfl rfl (fun _ _ _ h => h) rfl rfl rfl
        fun _ => hcopy.outstanding_forgotten bal bal' hin rfl rfl
  | @take m rest hpc hqueue =>
      refine inv.facts_outer rfl rfl rfl (fun _ rsp c hr => ?_) rfl rfl rfl
        fun _ => (hcopy.outstanding_same bal bal' rfl (by
          rw [hpc, hqueue]; rfl)).le
      rw [hpc] at hr
      cases hr
  | @entered m x hpc hmsg =>
      refine inv.facts_outer rfl rfl rfl (fun _ rsp c hr => ?_) rfl rfl rfl
        fun _ => (hcopy.outstanding_same bal bal' rfl (by rw [hpc]; rfl)).le
      rw [hpc] at hr
      cases hr
  | @leave m x hpc hmsg =>
      refine inv.facts_outer rfl rfl rfl (fun _ rsp c hr => ?_) rfl rfl rfl
        fun _ => (hcopy.outstanding_same bal bal' rfl (by rw [hpc]; rfl)).le
      rw [hpc] at hr
      cases hr
  | @counted m x r rec hpc hmsg hpend hready hrec =>
      obtain ⟨rec', hrec', huuid, hnone⟩ := k.pend hpend
      rw [hrec] at hrec'
      cases hrec'
      have hout := hcopy.outstanding_stored bal bal' hpc hmsg rfl rfl rfl
      intro c'
      by_cases hmine : (history c' tr).req = some x.uuid ∧
          (history c' tr).finalized = none
      · -- the response is for this call
        rw [history_append, List.foldl_cons, List.foldl_nil, CallHistory.after,
          if_pos hmine]
        have hfly : s.Flying (history c' tr) c' r ∧ s.unsafe0 c' = x.uuid := by
          rcases (inv.facts c').open_cases hmine.1 hmine.2 with hreq | ⟨r', hfly, hu⟩
          · exact absurd ((k.rec_uuid hrec).symm.trans huuid) (k.req_rec hreq hrec)
          · rw [hfly.record_eq k hrec (huuid.trans hu.symm)]
            exact ⟨hfly, hu⟩
        obtain ⟨hfly, hu⟩ := hfly
        obtain ⟨ret, hown⟩ := hfly.own
        rw [hrec] at hown
        cases hown
        refine (inv.facts c').store k hfly (hu.symm ▸ hpend) ?_ rfl rfl rfl rfl ?_
          ⟨ret, Function.update_self ..⟩
        · rw [hu, hout]
          exact Multiset.mem_cons_self ..
        · rw [hu]
          exact Function.update_self ..
      · refine inv.facts_other c' (by simp [CallEvent.caller?])
          (fun uuid rsp hmem => ?_) ?_
        · obtain ⟨rfl, -⟩ : uuid = x.uuid ∧ rsp = m := by simpa using hmem
          exact hmine
        refine .of_other (u := x.uuid) (r := r) rfl rfl (fun _ => rfl)
          (fun _ rsp hr => ?_) (fun r' hfly => ?_)
          (fun r' hr => Function.update_of_ne hr ..) (fun u hu => ?_)
          (fun u hu => ?_) fun u _ hu hin => ?_
        · rw [hpc] at hr
          cases hr
        · have hne : s.unsafe0 c' ≠ x.uuid := fun hu =>
            hmine ⟨hu ▸ hfly.req, hfly.opened.finalized⟩
          refine ⟨hne, ?_⟩
          rintro rfl
          obtain ⟨ret, hown⟩ := hfly.own
          rw [hrec] at hown
          cases hown
          exact hne huuid
        · rw [huuid] at *
          exact Function.update_of_ne hu ..
        · exact Function.update_of_ne hu ..
        · exact hu (hout ▸ Multiset.mem_cons_of_mem hin)
  | @resume m c hpc hstate =>
      by_cases hcalm : calm
      · intro c'
        by_cases hc : c' = c
        · subst hc
          obtain ⟨hwaits, -, r, hready⟩ := inv.wakes hcalm m c' hpc
          obtain ⟨r', hfly, hs⟩ := (inv.facts c').of_waits hwaits
          obtain ⟨rfl, hanswer⟩ := hs.of_ready k hready
          rw [history_append, List.foldl_cons, List.foldl_nil,
            CallHistory.after, if_pos rfl]
          refine Calls.Facts.of_sent hwaits (r := r) ⟨hfly.req,
            ⟨hfly.opened.1, hfly.opened.2, hfly.opened.3⟩, hfly.own⟩ ?_
          rcases hanswer with ⟨hrough, -⟩ | ⟨hanswered, hyield⟩
          · exact absurd hcalm hrough
          · refine .answered hanswered hready fun _ =>
              .inr ⟨Function.update_self .., ?_⟩
            rcases hyield hcalm with ⟨-, hzero, -⟩ | ⟨hbusy, -⟩
            · show (history c' tr).resumes + 1 = 1
              rw [hzero]
            · rw [hbusy] at hstate
              cases hstate
        · refine inv.facts_other c' ?_ (by simp) (.of_same rfl rfl
            (fun _ => Function.update_of_ne hc ..) (fun _ rsp hr => ?_) rfl rfl
            rfl fun _ => (hcopy.outstanding_same bal bal' rfl (by
              rw [hpc]; rfl)).le)
          · simpa [CallEvent.caller?] using Ne.symm hc
          · rw [hpc] at hr
            cases hr
            exact absurd rfl hc
      · exact inv.facts_rough hcalm rfl rfl rfl rfl rfl
          fun c => .of_minor hcalm (by simp [CallEvent.Minor])
  | @elsewhere c state hpc =>
      intro c'
      rw [List.append_nil]
      by_cases hc : c' = c
      · subst hc
        have hf := inv.facts c'
        simp only [Calls.Facts, hpc] at hf
        simp only [Calls.Facts, Calls.setState_pc, hpc]
        exact hf
      · exact (inv.facts c').untouched (.of_same rfl rfl
          (fun _ => Function.update_of_ne hc ..) (fun _ _ h => h) rfl rfl rfl
          fun _ => (hcopy.outstanding_same bal bal' rfl rfl).le) (.refl ..)
  | @resumeOther c hcalm =>
      obtain ⟨state, heq⟩ := s.eafResume_eq c
      rw [heq] at hcopy bal' ⊢
      exact inv.facts_rough hcalm rfl rfl rfl rfl rfl
        fun c => .of_minor hcalm (by simp [CallEvent.Minor])
  | @abort events hfault hevents =>
      have hcalm : ¬calm := fun hc => inv.no_fault hc hfault
      refine inv.facts_rough hcalm rfl rfl rfl rfl rfl
        fun c => .of_minor hcalm ?_
      rcases hevents with rfl | ⟨c, rsp, rfl⟩ | ⟨c, code, rfl⟩ <;>
        simp [CallEvent.Minor]

end Powerpack
end Eaf
