import Eaf.Powerpack.CallFacts

/-!
# The invariant of calls by message

The references balance, the tables fit the records, and for every service it is
known what its call has seen; while it is calm, every answer under way is for
a caller that waits for it.  Every step keeps all this.
-/

namespace Eaf
namespace Powerpack

open Core KeyedTable

/-- The caller has sent its request, and not come back. -/
def CallerPc.Waits (pc : CallerPc) : Prop := pc = .sent ∨ pc = .waiting

/-- The invariant, for the events of a run and the state it ends in. -/
structure Calls.Inv (calm : Prop) (tr : List CallEvent) (s : Calls) : Prop where
  balanced : s.Balanced
  keyed : s.Keyed
  due : calm → s.Due
  facts : ∀ c, s.Facts calm (history c tr) c
  /-- An answer under way is for a caller that waits. -/
  waits : calm → ∀ u ∈ s.outstanding, ∃ c, s.unsafe0 c = u ∧ (s.pc c).Waits
  /-- The handler resumes a caller that has yielded and has its response. -/
  wakes : calm → ∀ rsp c, s.handler = .resume rsp c → (s.pc c).Waits ∧
    s.state c = .yield ∧ ∃ r, s.readyTable (s.unsafe0 c) = some r

variable {calm : Prop} {s s' : Calls} {tr events : List CallEvent}
  {c c' idTo : UInt32} {m a u : MsgRef} {r r' : RecordRef} {x x' : Msg}
  {rec rec' : MessageRecord} {h : CallHistory} {rsp : Option MsgRef}

/-! ## What is outstanding -/

theorem Calls.Balanced.live_requested (bal : s.Balanced) (hm : s.Requested m) :
    ∃ x, s.msg m = some x := by
  rcases hm with ⟨c, hc⟩ | ⟨r, rec, hrec, rfl⟩ | ⟨e, he, rfl⟩
  · exact bal.live_req hc
  · exact bal.live_record hrec
  · exact bal.live_inbox he

/-- A request keeps its address in it. -/
theorem CallTrans.keeps_self (h : CallTrans calm s events s')
    (inv : s.Inv calm tr) (hm : s.Requested m) (hx' : s'.msg m = some x') :
    x'.uuid = m := by
  obtain ⟨x, hx⟩ := inv.balanced.live_requested hm
  rw [h.keeps_uuid hx hx']
  exact inv.keyed.self hm hx

/-- Messages that were in the hands of the message service are there. -/
theorem Calls.Balanced.live_response (bal : s.Balanced)
    (hm : m ∈ s.handler.unstored ++ s.queue) : ∃ x, s.msg m = some x := by
  rcases List.mem_append.mp hm with hm | hm
  · exact bal.live_unstored hm
  · exact bal.live_queue hm

/-- A step that keeps the requests and the responses. -/
theorem CallTrans.outstanding_same (h : CallTrans calm s events s')
    (bal : s.Balanced) (bal' : s'.Balanced) (hinbox : s'.inbox = s.inbox)
    (hresponses : s'.handler.unstored ++ s'.queue =
      s.handler.unstored ++ s.queue) : s'.outstanding = s.outstanding := by
  rw [h.outstanding_eq bal' (fun m hm => bal.live_response
    (by rwa [hresponses] at hm))]
  unfold Calls.outstanding outstandingBy
  rw [hinbox, hresponses]

/-- A request gets to its receiver. -/
theorem CallTrans.outstanding_sent (h : CallTrans calm s events s')
    (bal : s.Balanced) (bal' : s'.Balanced)
    (hinbox : s'.inbox = s.inbox ++ [⟨idTo, m, false⟩])
    (hresponses : s'.handler.unstored ++ s'.queue =
      s.handler.unstored ++ s.queue) :
    s'.outstanding = m ::ₘ s.outstanding := by
  rw [h.outstanding_eq bal' (fun m hm => bal.live_response
    (by rwa [hresponses] at hm))]
  unfold Calls.outstanding outstandingBy
  have hsent : (unanswered (s.inbox ++ [⟨idTo, m, false⟩]) : Multiset MsgRef) =
      m ::ₘ (unanswered s.inbox : Multiset MsgRef) := by
    refine Multiset.coe_eq_coe.mpr ?_
    simp only [unanswered, List.filter_append, List.map_append]
    exact List.perm_append_singleton m _
  rw [hinbox, hresponses, hsent, Multiset.cons_add]

/-- A receiver gives up a request. -/
theorem CallTrans.outstanding_forgotten (h : CallTrans calm s events s')
    (bal : s.Balanced) (bal' : s'.Balanced) {e : Request}
    {before after : List Request} (hinbox : s.inbox = before ++ e :: after)
    (hinbox' : s'.inbox = before ++ after)
    (hresponses : s'.handler.unstored ++ s'.queue =
      s.handler.unstored ++ s.queue) : s'.outstanding ≤ s.outstanding := by
  rw [h.outstanding_eq bal' (fun m hm => bal.live_response
    (by rwa [hresponses] at hm))]
  unfold Calls.outstanding outstandingBy
  rw [hinbox, hinbox', hresponses]
  refine Multiset.add_le_add_right (Multiset.coe_le.mpr ?_)
  have hsub : (before ++ after).Sublist (before ++ e :: after) := by simp
  exact ((hsub.filter _).map _).subperm

/-- A response takes the place of a request. -/
theorem CallTrans.outstanding_answered (h : CallTrans calm s events s')
    (bal : s.Balanced) (bal' : s'.Balanced) {e : Request}
    {before after : List Request} (hinbox : s.inbox = before ++ e :: after)
    (hinbox' : s'.inbox = before ++ { e with answered := true } :: after)
    (hnew : e.answered = false)
    (hresponses : s'.handler.unstored ++ s'.queue =
      s.handler.unstored ++ s.queue ++ [a]) (ha : s'.uuidOf a = e.req) :
    s'.outstanding = s.outstanding := by
  have hold : (s.handler.unstored ++ s.queue).map s'.uuidOf =
      (s.handler.unstored ++ s.queue).map s.uuidOf := by
    refine List.map_congr_left fun m hm => ?_
    refine h.uuidOf_eq (bal.live_response hm) (bal'.live_response ?_)
    rw [hresponses]
    exact List.mem_append_left _ hm
  have hwaits : (unanswered s.inbox : Multiset MsgRef) =
      e.req ::ₘ (unanswered s'.inbox : Multiset MsgRef) := by
    refine Multiset.coe_eq_coe.mpr ?_
    rw [hinbox, hinbox']
    simp only [unanswered, List.filter_append, List.filter_cons, hnew,
      Bool.not_true, Bool.not_false, Bool.false_eq_true, if_false, if_true,
      List.map_append, List.map_cons]
    exact List.perm_middle
  have hanswer : ((s'.handler.unstored ++ s'.queue).map s'.uuidOf :
      Multiset MsgRef) =
        e.req ::ₘ ((s.handler.unstored ++ s.queue).map s.uuidOf :
          Multiset MsgRef) := by
    refine Multiset.coe_eq_coe.mpr ?_
    rw [hresponses, List.map_append, hold, List.map_singleton, ha]
    exact List.perm_append_singleton _ _
  unfold Calls.outstanding outstandingBy
  rw [hwaits, hanswer, Multiset.add_cons, Multiset.cons_add]

/-- A response is stored. -/
theorem CallTrans.outstanding_stored (h : CallTrans calm s events s')
    (bal : s.Balanced) (bal' : s'.Balanced) (hpc : s.handler = .counted m)
    (hmsg : s.msg m = some x) (hinbox : s'.inbox = s.inbox)
    (hpc' : s'.handler.unstored = []) (hqueue : s'.queue = s.queue) :
    s.outstanding = x.uuid ::ₘ s'.outstanding := by
  have hresponses : s.handler.unstored ++ s.queue =
      m :: (s'.handler.unstored ++ s'.queue) := by
    rw [hpc, hpc', hqueue]
    rfl
  have huuid : s.uuidOf m = x.uuid := by simp [Calls.uuidOf, hmsg]
  rw [h.outstanding_eq bal' (fun m' hm => bal.live_response (by
    rw [hresponses]
    exact List.mem_cons_of_mem m hm))]
  unfold Calls.outstanding outstandingBy
  rw [hinbox, hresponses, List.map_cons, huuid, ← Multiset.cons_coe,
    Multiset.add_cons]

/-! ## Records and tables -/

/-- What is ready is not pending. -/
theorem Calls.Keyed.pend_none (k : s.Keyed) (hready : s.readyTable u = some r) :
    s.pendTable u = none := by
  cases hpend : s.pendTable u with
  | none => rfl
  | some r' =>
      rw [k.disjoint hpend] at hready
      cases hready

/-- Records and tables are left alone, and there is nothing new to be known
about requests. -/
theorem CallTrans.keyed_same (h : CallTrans calm s events s')
    (inv : s.Inv calm tr) (hrecord : s'.record = s.record)
    (hpend : s'.pendTable = s.pendTable) (hready : s'.readyTable = s.readyTable)
    (hreq : ∀ c m, (s'.pc c).req = some m → (s.pc c).req = some m)
    (hinbox : ∀ e ∈ s'.inbox, s.Requested e.req) : s'.Keyed := by
  have k := inv.keyed
  constructor
  case rec_uuid =>
    intro r rec hrec
    rw [hrecord] at hrec
    exact k.rec_uuid hrec
  case rec_inj =>
    intro r r' rec rec' hrec hrec'
    rw [hrecord] at hrec hrec'
    exact k.rec_inj hrec hrec'
  case req_rec =>
    intro c m r rec hc hrec
    rw [hrecord] at hrec
    exact k.req_rec (hreq c m hc) hrec
  case req_inj =>
    intro c c' m hc hc'
    exact k.req_inj (hreq c m hc) (hreq c' m hc')
  case self =>
    intro m x hm hx
    refine h.keeps_self inv ?_ hx
    rcases hm with ⟨c, hc⟩ | ⟨r, rec, hrec, heq⟩ | ⟨e, he, rfl⟩
    · exact .inl ⟨c, hreq c m hc⟩
    · exact .inr (.inl ⟨r, rec, hrecord ▸ hrec, heq⟩)
    · exact hinbox e he
  case pend =>
    intro u r hu
    rw [hpend] at hu
    rw [hrecord]
    exact k.pend hu
  case ready =>
    intro u r hu
    rw [hready] at hu
    rw [hrecord]
    exact k.ready hu
  case disjoint =>
    intro u r hu
    rw [hpend] at hu
    rw [hready]
    exact k.disjoint hu

/-- The entry of a record is moved. -/
theorem CallTrans.keyed_moved (h : CallTrans calm s events s')
    (inv : s.Inv calm tr) (hrec : s.record r = some rec)
    (hrec' : s'.record r = some rec') (huuid : rec'.uuid = rec.uuid)
    (horig : rec'.origReq = rec.origReq)
    (hrecord : ∀ r', r' ≠ r → s'.record r' = s.record r')
    (hpend : ∀ u, u ≠ rec.uuid → s'.pendTable u = s.pendTable u)
    (hready : ∀ u, u ≠ rec.uuid → s'.readyTable u = s.readyTable u)
    (hpend' : ∀ r', s'.pendTable rec.uuid = some r' →
      r' = r ∧ rec'.origRsp = none ∧ s'.readyTable rec.uuid = none)
    (hready' : ∀ r', s'.readyTable rec.uuid = some r' → r' = r)
    (hreq : ∀ c m, (s'.pc c).req = some m → (s.pc c).req = some m)
    (hinbox : s'.inbox = s.inbox) : s'.Keyed := by
  have k := inv.keyed
  -- every record stands for one with the same request
  have hback : ∀ {r₁ rec₁}, s'.record r₁ = some rec₁ → ∃ rec₀,
      s.record r₁ = some rec₀ ∧ rec₁.uuid = rec₀.uuid ∧
        rec₁.origReq = rec₀.origReq := by
    intro r₁ rec₁ h₁
    by_cases hr : r₁ = r
    · subst hr
      rw [hrec'] at h₁
      cases h₁
      exact ⟨rec, hrec, huuid, horig⟩
    · rw [hrecord r₁ hr] at h₁
      exact ⟨rec₁, h₁, rfl, rfl⟩
  -- an entry elsewhere is about another record
  have hother : ∀ {u r₁ rec₁}, u ≠ rec.uuid → s.record r₁ = some rec₁ →
      rec₁.uuid = u → s'.record r₁ = some rec₁ := by
    rintro u r₁ rec₁ hu h₁ rfl
    by_cases hr : r₁ = r
    · subst hr
      rw [hrec] at h₁
      cases h₁
      exact absurd rfl hu
    · rw [hrecord r₁ hr]
      exact h₁
  constructor
  case rec_uuid =>
    intro r₁ rec₁ h₁
    obtain ⟨rec₀, h₀, hu, ho⟩ := hback h₁
    rw [hu, ho]
    exact k.rec_uuid h₀
  case rec_inj =>
    intro r₁ r₂ rec₁ rec₂ h₁ h₂ heq
    obtain ⟨rec₁', h₁', -, ho₁⟩ := hback h₁
    obtain ⟨rec₂', h₂', -, ho₂⟩ := hback h₂
    exact k.rec_inj h₁' h₂' (ho₁ ▸ ho₂ ▸ heq)
  case req_rec =>
    intro c m r₁ rec₁ hc h₁
    obtain ⟨rec₀, h₀, -, ho⟩ := hback h₁
    rw [ho]
    exact k.req_rec (hreq c m hc) h₀
  case req_inj =>
    intro c c' m hc hc'
    exact k.req_inj (hreq c m hc) (hreq c' m hc')
  case self =>
    intro m x hm hx
    refine h.keeps_self inv ?_ hx
    rcases hm with ⟨c, hc⟩ | ⟨r₁, rec₁, h₁, rfl⟩ | he
    · exact .inl ⟨c, hreq c m hc⟩
    · obtain ⟨rec₀, h₀, -, ho⟩ := hback h₁
      exact .inr (.inl ⟨r₁, rec₀, h₀, ho.symm⟩)
    · exact .inr (.inr (hinbox ▸ he))
  case pend =>
    intro u r₁ hu
    by_cases hne : u = rec.uuid
    · subst hne
      obtain ⟨rfl, hnone, -⟩ := hpend' r₁ hu
      exact ⟨rec', hrec', huuid, hnone⟩
    · rw [hpend u hne] at hu
      obtain ⟨rec₁, h₁, hu₁, hnone⟩ := k.pend hu
      exact ⟨rec₁, hother hne h₁ hu₁, hu₁, hnone⟩
  case ready =>
    intro u r₁ hu
    by_cases hne : u = rec.uuid
    · subst hne
      obtain rfl := hready' r₁ hu
      exact ⟨rec', hrec', huuid⟩
    · rw [hready u hne] at hu
      obtain ⟨rec₁, h₁, hu₁⟩ := k.ready hu
      exact ⟨rec₁, hother hne h₁ hu₁, hu₁⟩
  case disjoint =>
    intro u r₁ hu
    by_cases hne : u = rec.uuid
    · subst hne
      exact (hpend' r₁ hu).2.2
    · rw [hpend u hne] at hu
      rw [hready u hne]
      exact k.disjoint hu

/-- A caller whose request is in no record, or no longer, is like any other. -/
theorem Calls.req_of_setPc {pc : CallerPc} (hpc : pc.req = none) :
    ∀ c' m, ((s.setPc c pc).pc c').req = some m → (s.pc c').req = some m := by
  intro c' m h
  by_cases hc : c' = c
  · subst hc
    rw [Calls.setPc_pc, Function.update_self, hpc] at h
    cases h
  · rwa [Calls.setPc_pc, Function.update_of_ne hc] at h

/-- The request of a call begins its life. -/
theorem CallTrans.keyed_begin {pc : CallerPc}
    (h : CallTrans calm s events s') (inv : s.Inv calm tr)
    (hfree : s.msg a = none) (hpc : pc.req = some a)
    (hmsg : ∀ x, s'.msg a = some x → x.uuid = a)
    (hpcs : s'.pc = (s.setPc c pc).pc) (hrecord : s'.record = s.record)
    (hpend : s'.pendTable = s.pendTable) (hready : s'.readyTable = s.readyTable)
    (hinbox : s'.inbox = s.inbox) : s'.Keyed := by
  have k := inv.keyed
  -- the address is new to everybody
  have hnew : ¬s.Requested a := by
    intro hreq
    obtain ⟨x, hx⟩ := inv.balanced.live_requested hreq
    rw [hfree] at hx
    cases hx
  have hreq : ∀ c' m, (s'.pc c').req = some m →
      (c' = c ∧ m = a) ∨ (s.pc c').req = some m := by
    intro c' m hc'
    rw [hpcs] at hc'
    by_cases hc : c' = c
    · subst hc
      rw [Calls.setPc_pc, Function.update_self, hpc] at hc'
      cases hc'
      exact .inl ⟨rfl, rfl⟩
    · rw [Calls.setPc_pc, Function.update_of_ne hc] at hc'
      exact .inr hc'
  constructor
  case rec_uuid =>
    intro r rec hrec
    rw [hrecord] at hrec
    exact k.rec_uuid hrec
  case rec_inj =>
    intro r r' rec rec' hrec hrec'
    rw [hrecord] at hrec hrec'
    exact k.rec_inj hrec hrec'
  case req_rec =>
    intro c' m r rec hc' hrec
    rw [hrecord] at hrec
    rcases hreq c' m hc' with ⟨-, rfl⟩ | hc'
    · exact fun heq => hnew (.inr (.inl ⟨r, rec, hrec, heq⟩))
    · exact k.req_rec hc' hrec
  case req_inj =>
    intro c₁ c₂ m h₁ h₂
    rcases hreq c₁ m h₁ with ⟨rfl, rfl⟩ | h₁ <;>
      rcases hreq c₂ _ h₂ with ⟨rfl, heq⟩ | h₂
    · rfl
    · exact absurd (.inl ⟨c₂, h₂⟩) hnew
    · subst heq
      exact absurd (.inl ⟨c₁, h₁⟩) hnew
    · exact k.req_inj h₁ h₂
  case self =>
    intro m x hm hx
    by_cases hma : m = a
    · subst hma
      exact hmsg x hx
    · refine h.keeps_self inv ?_ hx
      rcases hm with ⟨c', hc'⟩ | ⟨r, rec, hrec, heq⟩ | he
      · rcases hreq c' m hc' with ⟨-, rfl⟩ | hc'
        · exact absurd rfl hma
        · exact .inl ⟨c', hc'⟩
      · exact .inr (.inl ⟨r, rec, hrecord ▸ hrec, heq⟩)
      · exact .inr (.inr (hinbox ▸ he))
  case pend =>
    intro u r hu
    rw [hpend] at hu
    rw [hrecord]
    exact k.pend hu
  case ready =>
    intro u r hu
    rw [hready] at hu
    rw [hrecord]
    exact k.ready hu
  case disjoint =>
    intro u r hu
    rw [hpend] at hu
    rw [hready]
    exact k.disjoint hu

/-- A request is put into a new record. -/
theorem CallTrans.keyed_record {pc : CallerPc} {req : MsgRef}
    (h : CallTrans calm s events s') (inv : s.Inv calm tr)
    (hreq : (s.pc c).req = some req) (hfree : s.record r = none)
    (hrec : s'.record r = some rec) (horig : rec.origReq = req)
    (huuid : rec.uuid = req) (hpc : pc.req = none)
    (hrecord : ∀ r', r' ≠ r → s'.record r' = s.record r')
    (hpcs : s'.pc = (s.setPc c pc).pc)
    (hpend : s'.pendTable = s.pendTable) (hready : s'.readyTable = s.readyTable)
    (hinbox : s'.inbox = s.inbox) : s'.Keyed := by
  have k := inv.keyed
  have hreq' : ∀ c' m, (s'.pc c').req = some m →
      c' ≠ c ∧ (s.pc c').req = some m := by
    intro c' m hc'
    rw [hpcs] at hc'
    refine ⟨?_, Calls.req_of_setPc hpc c' m hc'⟩
    rintro rfl
    rw [Calls.setPc_pc, Function.update_self, hpc] at hc'
    cases hc'
  -- a record is the new one or an old one with another request
  have hcases : ∀ {r₁ rec₁}, s'.record r₁ = some rec₁ →
      (r₁ = r ∧ rec₁ = rec) ∨ s.record r₁ = some rec₁ := by
    intro r₁ rec₁ h₁
    by_cases hr : r₁ = r
    · subst hr
      rw [hrec] at h₁
      cases h₁
      exact .inl ⟨rfl, rfl⟩
    · exact .inr (hrecord r₁ hr ▸ h₁)
  have hold : ∀ {r₁ rec₁}, s.record r₁ = some rec₁ →
      s'.record r₁ = some rec₁ := by
    intro r₁ rec₁ h₁
    have hr : r₁ ≠ r := by
      rintro rfl
      rw [hfree] at h₁
      cases h₁
    rw [hrecord r₁ hr]
    exact h₁
  constructor
  case rec_uuid =>
    intro r₁ rec₁ h₁
    rcases hcases h₁ with ⟨-, rfl⟩ | h₁
    · rw [huuid, horig]
    · exact k.rec_uuid h₁
  case rec_inj =>
    intro r₁ r₂ rec₁ rec₂ h₁ h₂ heq
    rcases hcases h₁ with ⟨rfl, rfl⟩ | h₁ <;>
      rcases hcases h₂ with ⟨rfl, rfl⟩ | h₂
    · rfl
    · exact absurd (heq.symm.trans horig) (k.req_rec hreq h₂)
    · exact absurd (heq.trans horig) (k.req_rec hreq h₁)
    · exact k.rec_inj h₁ h₂ heq
  case req_rec =>
    intro c' m r₁ rec₁ hc' h₁
    obtain ⟨hne, hc'⟩ := hreq' c' m hc'
    rcases hcases h₁ with ⟨-, rfl⟩ | h₁
    · rintro rfl
      exact hne (k.req_inj hc' (horig ▸ hreq))
    · exact k.req_rec hc' h₁
  case req_inj =>
    intro c₁ c₂ m h₁ h₂
    exact k.req_inj (hreq' c₁ m h₁).2 (hreq' c₂ m h₂).2
  case self =>
    intro m x hm hx
    refine h.keeps_self inv ?_ hx
    rcases hm with ⟨c', hc'⟩ | ⟨r₁, rec₁, h₁, heq⟩ | he
    · exact .inl ⟨c', (hreq' c' m hc').2⟩
    · rcases hcases h₁ with ⟨-, rfl⟩ | h₁
      · exact .inl ⟨c, heq ▸ horig ▸ hreq⟩
      · exact .inr (.inl ⟨r₁, rec₁, h₁, heq⟩)
    · exact .inr (.inr (hinbox ▸ he))
  case pend =>
    intro u r₁ hu
    rw [hpend] at hu
    obtain ⟨rec₁, h₁, hrest⟩ := k.pend hu
    exact ⟨rec₁, hold h₁, hrest⟩
  case ready =>
    intro u r₁ hu
    rw [hready] at hu
    obtain ⟨rec₁, h₁, hrest⟩ := k.ready hu
    exact ⟨rec₁, hold h₁, hrest⟩
  case disjoint =>
    intro u r₁ hu
    rw [hpend] at hu
    rw [hready]
    exact k.disjoint hu

/-- A record that is in no table is freed. -/
theorem CallTrans.keyed_freed (h : CallTrans calm s events s')
    (inv : s.Inv calm tr) (hrec : s.record r = some rec)
    (houtside : s.Outside rec.uuid) (hfree : s'.record r = none)
    (hrecord : ∀ r', r' ≠ r → s'.record r' = s.record r')
    (hreq : ∀ c m, (s'.pc c).req = some m → (s.pc c).req = some m)
    (hpend : s'.pendTable = s.pendTable) (hready : s'.readyTable = s.readyTable)
    (hinbox : s'.inbox = s.inbox) : s'.Keyed := by
  have k := inv.keyed
  have hold : ∀ {r₁ rec₁}, s'.record r₁ = some rec₁ →
      s.record r₁ = some rec₁ := by
    intro r₁ rec₁ h₁
    have hr : r₁ ≠ r := by
      rintro rfl
      rw [hfree] at h₁
      cases h₁
    exact hrecord r₁ hr ▸ h₁
  -- an entry is about another record
  have hentry : ∀ {u r₁ rec₁}, s.pendTable u ≠ none ∨ s.readyTable u ≠ none →
      s.record r₁ = some rec₁ → rec₁.uuid = u → s'.record r₁ = some rec₁ := by
    rintro u r₁ rec₁ hu h₁ rfl
    by_cases hr : r₁ = r
    · subst hr
      rw [hrec] at h₁
      cases h₁
      rcases hu with hu | hu
      · exact absurd houtside.1 hu
      · exact absurd houtside.2 hu
    · rw [hrecord r₁ hr]
      exact h₁
  constructor
  case rec_uuid =>
    intro r₁ rec₁ h₁
    exact k.rec_uuid (hold h₁)
  case rec_inj =>
    intro r₁ r₂ rec₁ rec₂ h₁ h₂ heq
    exact k.rec_inj (hold h₁) (hold h₂) heq
  case req_rec =>
    intro c' m r₁ rec₁ hc' h₁
    exact k.req_rec (hreq c' m hc') (hold h₁)
  case req_inj =>
    intro c₁ c₂ m h₁ h₂
    exact k.req_inj (hreq c₁ m h₁) (hreq c₂ m h₂)
  case self =>
    intro m x hm hx
    refine h.keeps_self inv ?_ hx
    rcases hm with ⟨c', hc'⟩ | ⟨r₁, rec₁, h₁, heq⟩ | he
    · exact .inl ⟨c', hreq c' m hc'⟩
    · exact .inr (.inl ⟨r₁, rec₁, hold h₁, heq⟩)
    · exact .inr (.inr (hinbox ▸ he))
  case pend =>
    intro u r₁ hu
    rw [hpend] at hu
    obtain ⟨rec₁, h₁, hu₁, hnone⟩ := k.pend hu
    exact ⟨rec₁, hentry (.inl (by simp [hu])) h₁ hu₁, hu₁, hnone⟩
  case ready =>
    intro u r₁ hu
    rw [hready] at hu
    obtain ⟨rec₁, h₁, hu₁⟩ := k.ready hu
    exact ⟨rec₁, hentry (.inr (by simp [hu])) h₁ hu₁, hu₁⟩
  case disjoint =>
    intro u r₁ hu
    rw [hpend] at hu
    rw [hready]
    exact k.disjoint hu

/-- **Every step keeps records and tables in order.** -/
theorem CallTrans.keyed (h : CallTrans calm s events s') (inv : s.Inv calm tr) :
    s'.Keyed := by
  have k := inv.keyed
  have hcopy := h
  have hinbox : ∀ e ∈ s.inbox, s.Requested e.req :=
    fun e he => .inr (.inr ⟨e, he, rfl⟩)
  cases h with
  | begin dst msgId size hpc hstate hfree =>
      refine hcopy.keyed_begin inv hfree rfl (fun x hx => ?_) rfl rfl rfl rfl rfl
      simp only [Calls.setPc_msg, Calls.setMsg_msg, Function.update_self,
        Option.some.injEq] at hx
      rw [← hx]
      rfl
  | @proxy c req r x hpc hfree hmsg =>
      have hreq : (s.pc c).req = some req := by rw [hpc]; rfl
      have huuid : x.uuid = req := k.self (.inl ⟨c, hreq⟩) hmsg
      exact hcopy.keyed_record inv hreq hfree (Function.update_self ..) rfl huuid
        rfl (fun r' hr' => Function.update_of_ne hr' ..) rfl rfl rfl rfl
  | @insert c idTo r rec hpc hrec hnone =>
      have hf := inv.facts c
      simp only [Calls.Facts, hpc] at hf
      obtain ⟨⟨-, -, ret, hown⟩, hbegun, -, ho⟩ := hf
      rw [hrec] at hown
      cases hown
      refine hcopy.keyed_moved inv hrec hrec rfl rfl (fun _ _ => rfl)
        (fun u hu => Function.update_of_ne hu ..) (fun u hu => rfl)
        (fun r' hr' => ?_) (fun r' hr' => ?_) (Calls.req_of_setPc rfl) rfl
      · simp only [Calls.setPc_pendTable, Calls.setTables_pendTable,
          Function.update_self, Option.some.injEq] at hr'
        exact ⟨hr'.symm, hbegun.stored, ho.2⟩
      · rw [Calls.setPc_readyTable, Calls.setTables_readyTable, ho.2] at hr'
        cases hr'
  | @send c idTo r code rec x hpc hcode hrec hmsg =>
      refine hcopy.keyed_same inv rfl rfl rfl (Calls.req_of_setPc rfl)
        fun e he => ?_
      rcases List.mem_append.mp he with he | he
      · exact hinbox e he
      · rw [List.mem_singleton.mp he]
        exact .inr (.inl ⟨r, _, hrec, rfl⟩)
  | @errSendReq c r code rec ready hpc hrec hpend hready =>
      have hfresh := hready (k.disjoint hpend)
      refine hcopy.keyed_moved inv hrec (Function.update_self ..) rfl rfl
        (fun r' hr' => Function.update_of_ne hr' ..)
        (fun u hu => Function.update_of_ne hu ..) (fun u hu => ?_)
        (fun r' hr' => ?_) (fun r' hr' => ?_) (Calls.req_of_setPc rfl) rfl
      · show ready u = s.readyTable u
        rw [hfresh, Function.update_of_ne hu]
      · simp only [Calls.setPc_pendTable, Calls.setRecord_pendTable,
          Calls.setTables_pendTable, Function.update_self, reduceCtorEq] at hr'
      · simp only [Calls.setPc_readyTable, Calls.setRecord_readyTable,
          Calls.setTables_readyTable, hfresh, Function.update_self,
          Option.some.injEq] at hr'
        exact hr'.symm
  | @finalize c r hpc hready =>
      obtain ⟨rec, hrec, huuid⟩ := k.ready hready
      have hnone := k.pend_none hready
      refine hcopy.keyed_moved inv hrec hrec rfl rfl (fun _ _ => rfl)
        (fun u hu => rfl) (fun u hu => ?_) (fun r' hr' => ?_) (fun r' hr' => ?_)
        (Calls.req_of_setPc rfl) rfl
      · rw [huuid] at hu
        exact Function.update_of_ne hu ..
      · rw [huuid, Calls.setPc_pendTable, Calls.setTables_pendTable, hnone]
          at hr'
        cases hr'
      · rw [huuid, Calls.setPc_readyTable, Calls.setTables_readyTable,
          Function.update_self] at hr'
        cases hr'
  | @found c r rec x hpc hrec hmsg =>
      have hf := inv.facts c
      simp only [Calls.Facts, hpc] at hf
      obtain ⟨⟨-, -, ret, hown⟩, -, ho⟩ := hf
      rw [hrec] at hown
      cases hown
      exact hcopy.keyed_freed inv hrec ho (Function.update_self ..)
        (fun r' hr' => Function.update_of_ne hr' ..)
        (Calls.req_of_setPc rfl) rfl rfl rfl
  | @respond e before after a x size hin hfree hnew hmsg =>
      refine hcopy.keyed_same inv rfl rfl rfl (fun _ _ h => h) fun e' he' => ?_
      rcases List.mem_append.mp he' with he' | he'
      · exact hinbox e' (by simp [hin, he'])
      · rcases List.mem_cons.mp he' with rfl | he'
        · exact hinbox e (by simp [hin])
        · exact hinbox e' (by simp [hin, he'])
  | @forget e before after x hin hmsg =>
      refine hcopy.keyed_same inv rfl rfl rfl (fun _ _ h => h) fun e' he' => ?_
      rcases List.mem_append.mp he' with he' | he' <;>
        exact hinbox e' (by simp [hin, he'])
  | @counted m x r rec hpc hmsg hpend hready hrec =>
      obtain ⟨rec', hrec', huuid, hnone⟩ := k.pend hpend
      rw [hrec] at hrec'
      cases hrec'
      refine hcopy.keyed_moved inv hrec (Function.update_self ..) rfl rfl
        (fun r' hr' => Function.update_of_ne hr' ..)
        (fun u hu => ?_) (fun u hu => ?_) (fun r' hr' => ?_) (fun r' hr' => ?_)
        (fun _ _ h => h) rfl
      · rw [huuid] at hu
        exact Function.update_of_ne hu ..
      · rw [huuid] at hu
        exact Function.update_of_ne hu ..
      · simp only [huuid, Calls.setRecord_pendTable,
          Calls.setTables_pendTable, Function.update_self, reduceCtorEq] at hr'
      · simp only [huuid, Calls.setRecord_readyTable,
          Calls.setTables_readyTable, Function.update_self,
          Option.some.injEq] at hr'
        exact hr'.symm
  | @yield c req hpc =>
      refine hcopy.keyed_same inv rfl rfl rfl (fun c' m hc' => ?_) hinbox
      by_cases hc : c' = c
      · subst hc
        rw [Calls.setPc_pc, Function.update_self] at hc'
        rw [hpc]
        exact hc'
      · rwa [Calls.setPc_pc, Function.update_of_ne hc] at hc'
  | @wakeUp c hpc =>
      obtain ⟨state, heq⟩ := s.eafResume_eq c
      rw [heq] at hcopy ⊢
      exact hcopy.keyed_same inv rfl rfl rfl (Calls.req_of_setPc rfl) hinbox
  | resumeOther c hcalm =>
      obtain ⟨state, heq⟩ := s.eafResume_eq c
      rw [heq] at hcopy ⊢
      exact hcopy.keyed_same inv rfl rfl rfl (fun _ _ h => h) hinbox
  | sendFails | sent | waiting | notFound | deserialize | release =>
      exact hcopy.keyed_same inv rfl rfl rfl (Calls.req_of_setPc rfl) hinbox
  | noMemory | take | entered | resume | leave | elsewhere | abort =>
      exact hcopy.keyed_same inv rfl rfl rfl (fun _ _ h => h) hinbox

/-! ## Answers under way -/

/-- The answers under way stay, or some go away, and so do the entries they
wait for. -/
theorem Calls.Due.mono (hd : s.Due) (hout : s'.outstanding ≤ s.outstanding)
    (hpend : ∀ u r, u ∈ s'.outstanding → s.pendTable u = some r →
      ∃ r, s'.pendTable u = some r) : s'.Due where
  nodup := Multiset.nodup_of_le hout hd.nodup
  pend hu := by
    obtain ⟨r, hr⟩ := hd.pend (Multiset.mem_of_le hout hu)
    exact hpend _ r hu hr

/-- **Every step keeps track of the answers under way.** -/
theorem CallTrans.due (h : CallTrans calm s events s') (inv : s.Inv calm tr)
    (bal' : s'.Balanced) (hcalm : calm) : s'.Due := by
  have k := inv.keyed
  have bal := inv.balanced
  have hd := inv.due hcalm
  have hcopy := h
  cases h with
  | @insert c idTo r rec hpc hrec hnone =>
      refine hd.mono (hcopy.outstanding_same bal bal' rfl rfl).le
        fun u r' _ hr' => ?_
      by_cases hu : u = rec.uuid
      · subst hu
        exact ⟨r, Function.update_self ..⟩
      · exact ⟨r', (Function.update_of_ne hu ..).trans hr'⟩
  | @send c idTo r code rec x hpc hcode hrec hmsg =>
      have hf := inv.facts c
      simp only [Calls.Facts, hpc] at hf
      obtain ⟨⟨-, -, ret, hown⟩, -, -, hunsent⟩ := hf
      rw [hrec] at hown
      cases hown
      have hout := hcopy.outstanding_sent (m := s.unsafe0 c) bal bal' rfl rfl
      rcases hunsent with ⟨hpend, -, hnot⟩ | ⟨hrough, -⟩
      · constructor
        · rw [hout]
          exact Multiset.nodup_cons.mpr ⟨hnot hcalm, hd.nodup⟩
        · intro u hu
          rw [hout] at hu
          rcases Multiset.mem_cons.mp hu with rfl | hu
          · exact ⟨r, hpend⟩
          · exact hd.pend hu
      · exact absurd hcalm hrough
  | @errSendReq c r code rec ready hpc hrec hpend hready =>
      have hf := inv.facts c
      simp only [Calls.Facts, hpc] at hf
      exact absurd hcalm hf.2.1
  | @respond e before after a x size hin hfree hnew hmsg =>
      have huuid : x.uuid = e.req :=
        k.self (.inr (.inr ⟨e, by simp [hin], rfl⟩)) hmsg
      exact hd.mono (hcopy.outstanding_answered (a := a) bal bal' hin rfl
        (hnew hcalm) (List.append_assoc ..).symm
        (by simp [Calls.uuidOf, msgCreateRsp, huuid])).le
        fun u r _ hr => ⟨r, hr⟩
  | forget hin hmsg =>
      exact hd.mono (hcopy.outstanding_forgotten bal bal' hin rfl rfl)
        fun u r _ hr => ⟨r, hr⟩
  | @counted m x r rec hpc hmsg hpend hready hrec =>
      have hout := hcopy.outstanding_stored bal bal' hpc hmsg rfl rfl rfl
      have hnodup := hd.nodup
      rw [hout] at hnodup
      refine hd.mono (hout ▸ Multiset.le_cons_self ..) fun u r' hin hr' => ?_
      have hu : u ≠ x.uuid := by
        rintro rfl
        exact (Multiset.nodup_cons.mp hnodup).1 hin
      exact ⟨r', (Function.update_of_ne hu ..).trans hr'⟩
  | take hpc hqueue =>
      exact hd.mono (hcopy.outstanding_same bal bal' rfl (by
        rw [hpc, hqueue]; rfl)).le fun u r _ hr => ⟨r, hr⟩
  | entered hpc | resume hpc | leave hpc =>
      exact hd.mono (hcopy.outstanding_same bal bal' rfl (by
        rw [hpc]; rfl)).le fun u r _ hr => ⟨r, hr⟩
  | @wakeUp c hpc =>
      obtain ⟨state, heq⟩ := s.eafResume_eq c
      rw [heq] at hcopy bal' ⊢
      exact hd.mono (hcopy.outstanding_same bal bal' rfl rfl).le
        fun u r _ hr => ⟨r, hr⟩
  | resumeOther c hrough => exact absurd hcalm hrough
  | _ =>
      exact hd.mono (hcopy.outstanding_same bal bal' rfl rfl).le
        fun u r _ hr => ⟨r, hr⟩

end Powerpack
end Eaf
