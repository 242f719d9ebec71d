import Eaf.System.TeardownAnswers
import Eaf.Guarantees.Dispatch

/-!
# A worker never gets stuck

The source asserts that the service it dispatches to is busy, that a record it
handles has a handler, and that the message of a record still exists.  When
only responses go through `eaf_send_rsp`, none of these fails, so a worker that
cannot move waits for its semaphore, is inside an API call, or has returned.
-/

namespace Eaf
namespace Core

open LabelledRun

variable {L : Layout} {s s' : Sys} {g i : Nat} {t : Tid} {a : Act}
  {tr events : List Event} {gevents : List GroupEvent} {b : SendArgs} {x : Msg}
  {r : MsgqRecord} {c : GroupTable} {e : Env} {G G' : Group} {o : Outcome}
  {pc : Pc}

/-- Schedules in which calls of `eaf_load` and `eaf_cleanup` do not overlap, and
only responses go through `eaf_send_rsp`. -/
def properlySent (L : Layout) (s : Sys) : Act → Prop
  | .enter _ (.send b) =>
      b.kind = .rsp → ∀ x ∈ s.msg b.msg, msgGetType x = .rsp
  | a => serial L s a

instance (L : Layout) (s : Sys) : (a : Act) → Decidable (properlySent L s a)
  | .enter _ (.send b) => inferInstanceAs (Decidable
      (b.kind = .rsp → ∀ x ∈ s.msg b.msg, msgGetType x = .rsp))
  | .worker g o => inferInstanceAs (Decidable (serial L s (.worker g o)))
  | .call t o => inferInstanceAs (Decidable (serial L s (.call t o)))
  | .user op => inferInstanceAs (Decidable (serial L s (.user op)))
  | .enter t (.resume id) =>
      inferInstanceAs (Decidable (serial L s (.enter t (.resume id))))
  | .enter t .teardown =>
      inferInstanceAs (Decidable (serial L s (.enter t .teardown)))
  | .enter t (.exit reason) =>
      inferInstanceAs (Decidable (serial L s (.enter t (.exit reason))))
  | .enter t .load => inferInstanceAs (Decidable (serial L s (.enter t .load)))
  | .enter t .cleanup =>
      inferInstanceAs (Decidable (serial L s (.enter t .cleanup)))
  | .enter t .init => inferInstanceAs (Decidable (serial L s (.enter t .init)))

theorem Trace.ofProperlySent (h : Trace L (properlySent L) tr s) :
    Trace L (serial L) tr s := by
  refine h.weaken fun s a hok => ?_
  cases a with
  | enter t q =>
      cases q with
      | send => trivial
      | _ => exact hok
  | _ => exact hok

/-! ## The types of the messages in flight -/

/-- The sends of responses, and the records without a handler, are about
responses. -/
structure Typed (L : Layout) (s : Sys) : Prop where
  sends : ∀ t b x, (s.call t).send? = some b → b.kind = .rsp →
    s.msg b.msg = some x → msgGetType x = .rsp
  records : ∀ g < L.size, ∀ i < (L.conf g).size,
    ∀ r ∈ ((s.group g).table i).records, r.reqFn = none →
      ∀ x, s.msg r.msg = some x → msgGetType x = .rsp

/-- A message that existed before has the type it had. -/
theorem Keeps.type {m : MsgRef} (h : Keeps s s') (hlt : m < s.nextMsg)
    (hx : s'.msg m = some x)
    (hold : ∀ y, s.msg m = some y → msgGetType y = .rsp) :
    msgGetType x = .rsp := by
  obtain ⟨y, hy, halike⟩ := h.alike m hlt x hx
  rw [halike.type]
  exact hold y hy

/-- The answer of teardown is a response. -/
theorem Sys.answerTo_type (s : Sys) (m : MsgRef) :
    msgGetType (s.answerTo m) = .rsp := by
  unfold Sys.answerTo
  split
  · decide
  · rw [msgGetType_setReceipt]
    simp [msgGetType, msgCreateRsp]

/-- A send that starts is either let in by the schedule, or sends the answer
of teardown. -/
theorem SysTrans.new_send (h : SysTrans L s a events s')
    (hok : properlySent L s a)
    (hb : (s'.call t).send? = some b) (hnew : (s.call t).send? ≠ some b)
    (hkind : b.kind = .rsp) (hx : s'.msg b.msg = some x) :
    msgGetType x = .rsp := by
  cases h with
  | @worker k o G gevents hk hw =>
      rcases hw.own_call with ⟨i, r, cur, y, -, -, rfl, rfl⟩ |
        ⟨i, r, rsp, cur, code, -, -, rfl, rfl⟩ | ⟨hsilent, -⟩
      · by_cases ht : t = .worker k
        · subst ht
          obtain rfl : L.answerArgs k i r s.nextMsg = b := by
            simpa [Sys.emitAll, Sys.emit, Call.send?, Layout.answerArgs,
              Sys.env] using hb
          have hmsg : x = (s.setGroup k ((s.group k).goto
              (.tdSend i r s.nextMsg cur))).answerTo r.msg := by
            simpa [Sys.emitAll, Sys.emit, Layout.answerArgs, Sys.env,
              eq_comm] using hx
          rw [hmsg]
          exact Sys.answerTo_type _ _
        · rw [Sys.emitAll_call_of_ne ht] at hb
          exact absurd hb hnew
      · by_cases ht : t = .worker k
        · subst ht
          simp [Sys.emitAll, Sys.emit, Call.send?] at hb
        · rw [Sys.emitAll_call_of_ne ht] at hb
          exact absurd hb hnew
      · rw [Sys.emitAll_call_of_silent _ hsilent] at hb
        exact absurd hb hnew
  | @call t' o events s' hlive hc =>
      by_cases ht : t = t'
      · subst ht
        exact absurd (hc.send_back hb) hnew
      · rw [hc.call_of_ne ht] at hb
        exact absurd hb hnew
  | @enter t' q events s' he =>
      by_cases ht : t = t'
      · subst ht
        rw [he.call_self] at hb
        cases q with
        | send b' =>
            obtain rfl : b' = b := by simpa [Request.start, Call.send?] using hb
            have hmsg : s'.msg = s.msg := by
              cases he with
              | send hmay hsend => simp
              | other hmay hq => exact absurd rfl (hq b')
            rw [hmsg] at hx
            exact hok hkind x hx
        | _ => simp [Request.start, Call.send?] at hb
      · rw [he.call_of_ne ht] at hb
        exact absurd hb hnew
  | user hu =>
      rw [hu.call_eq] at hb
      exact absurd hb hnew

/-- A record that is new was pushed by a send, which stored the handler. -/
theorem SysTrans.new_record (h : SysTrans L s a events s')
    (hr : r ∈ ((s'.group g).table i).records)
    (hnew : r ∉ ((s.group g).table i).records) :
    ∃ t b, s.call t = .pushLock b g i r := by
  cases h with
  | @worker k o G gevents hk hw =>
      rw [Sys.emitAll_group, Sys.setGroup_group] at hr
      by_cases hgk : g = k
      · subst hgk
        rw [Function.update_self] at hr
        exact absurd (hw.mem_records hr) hnew
      · rw [Function.update_of_ne hgk] at hr
        exact absurd hr hnew
  | @call t o events s' hlive hc =>
      rcases hc.mem_records hr with hold | ⟨b, hcall, -⟩
      · exact absurd hold hnew
      · exact ⟨t, b, hcall⟩
  | enter he =>
      rw [he.group_eq] at hr
      exact absurd hr hnew
  | user hu =>
      rw [hu.group_eq] at hr
      exact absurd hr hnew

/-- Under these schedules the types are as the functions expect them. -/
theorem Trace.typed (h : Trace L (properlySent L) tr s) : Typed L s := by
  refine Trace.byTrans (P := fun _ s => Typed L s) h
    ⟨fun t b x hb => (by cases hb), fun g _ i _ r hr => (by
      simp [Sys.initial, Group.initial, Service.initial,
        Service.records] at hr)⟩ ?_
  intro tr s a events s' hrun ih hok hstep
  have hserial := hrun.ofProperlySent
  have hbal := hserial.balanced
  have hsends : ∀ t b x, (s.call t).send? = some b → b.kind = .rsp →
      s'.msg b.msg = some x → msgGetType x = .rsp := by
    intro t b x hb hkind hx
    have hlt := hbal.lt_nextMsg (hserial.live_of_send hbal hb)
    exact hstep.keeps.type hlt hx fun y hy => ih.sends t b y hb hkind hy
  refine ⟨fun t b x hb hkind hx => ?_, fun g hg i hi r hr hfn x hx => ?_⟩
  · by_cases hold : (s.call t).send? = some b
    · exact hsends t b x hold hkind hx
    · exact hstep.new_send hok hb hold hkind hx
  · by_cases hold : r ∈ ((s.group g).table i).records
    · have hlt := hbal.lt_nextMsg
        (hbal.live_of_group hg (Group.refs_pos hi hold))
      exact hstep.keeps.type hlt hx fun y hy =>
        ih.records g hg i hi r hold hfn y hy
    · obtain ⟨t, b', hcall⟩ := hstep.new_record hr hold
      have hplaced := hserial.guards.calls.placed t
      rw [hcall] at hplaced
      -- the send stored no handler, so it sends a response
      have hkind : b'.kind = .rsp := by
        obtain ⟨log, hlog⟩ := hserial.exists_log
        have htarget : (s.call t).target? = some (b', g, i, r.reqFn) := by
          rw [hcall]
          rfl
        have hfor := hlog.handlerFor htarget
        cases hk : b'.kind with
        | rsp => rfl
        | req => simp [HandlerFor, hk, hfn] at hfor
      refine hsends t b' x (by rw [hcall]; rfl) hkind ?_
      rw [← hplaced.2.2]
      exact hx

/-- A worker that handles a record knows what to call. -/
theorem Typed.handler (h : Typed L s) (hbal : Balanced L s) (hg : g < L.size)
    (hi : i < (L.conf g).size)
    (hcur : ((s.group g).table i).curMsg = some r) :
    (handlerOf s.msg r).isSome := by
  have hr : r ∈ ((s.group g).table i).records := by
    simp [Service.records, hcur]
  obtain ⟨x, hx⟩ := Option.isSome_iff_exists.mp
    (hbal.live_of_group hg (Group.refs_pos hi hr))
  cases hfn : r.reqFn with
  | some fn => cases htype : msgGetType x <;> simp [handlerOf, hx, htype, hfn]
  | none => simp [handlerOf, hx, h.records g hg i hi r hr hfn x hx]

/-! ## What a worker can wait for -/

/-- The worker waits: for its semaphore, for the API call its thread is in, or
for ever. -/
def Sys.Waits (s : Sys) (g : Nat) : Prop :=
  match (s.group g).worker with
  | .startPend | .semPend _ => (s.group g).sem = 0
  | .returned _ => True
  | _ => (s.call (.worker g)).free = false

/-- A worker moves unless it waits, when its service is as the source asserts,
its record has a handler and the message of its record exists. -/
theorem exists_workerStep (inv : GroupInv c G)
    (hstart : G.worker = .startPend → 0 < G.sem)
    (hpend : ∀ ph, G.worker = .semPend ph → 0 < G.sem)
    (hreturned : ∀ site, G.worker ≠ .returned site)
    (hcall : e.inCall = false)
    (hret : G.worker.inAnswer = true → e.callRet ≠ none)
    (hhandler : ∀ i < c.size, ∀ r, (G.table i).curMsg = some r →
      (handlerOf e.msg r).isSome)
    (hmsg : ∀ i r cur, G.worker = .tdMsg i r cur → (e.msg r.msg).isSome) :
    (Core.workerStep c e G .plain).isSome := by
  have hholds : ∀ i, G.worker.focus = some i →
      i < c.size ∧ G.worker.Holds i (G.table i) := fun i hi =>
    ⟨inv.focus i hi, (inv.sound i (inv.focus i hi)).holds⟩
  cases hpc : G.worker <;> rw [hpc] at hholds <;>
    simp only [Core.workerStep, hpc, hcall, Outcome.plain]
  case startPend => simp [Nat.ne_of_gt (hstart hpc)]
  case semPend ph => simp [Nat.ne_of_gt (hpend ph hpc)]
  case returned site => exact absurd hpc (hreturned site)
  case initScan idx counter =>
    split
    · split <;> rfl
    · rfl
  case pickBusy ph => split <;> rfl
  case handle ph i => split <;> rfl
  case dispatch ph i =>
    obtain ⟨hi, hbusy⟩ := hholds i rfl
    cases hcur : (G.table i).curMsg with
    | none => simp [hbusy rfl]
    | some r =>
        obtain ⟨fn, hfn⟩ := Option.isSome_iff_exists.mp (hhandler i hi r hcur)
        simp [hbusy rfl, hfn]
  case popMsg ph i => split <;> rfl
  case hookBefore ph i =>
    obtain ⟨hi, hbusy⟩ := hholds i rfl
    obtain ⟨r, hcur⟩ := Option.ne_none_iff_exists'.mp (hbusy rfl).2
    obtain ⟨fn, hfn⟩ := Option.isSome_iff_exists.mp (hhandler i hi r hcur)
    simp [hcur, hfn]
  case handled ph i =>
    obtain ⟨r, hcur⟩ := Option.ne_none_iff_exists'.mp ((hholds i rfl).2 rfl).2
    simp only [hcur]
    split <;> rfl
  case resetMsg ph i =>
    obtain ⟨r, hcur⟩ := Option.ne_none_iff_exists'.mp ((hholds i rfl).2 rfl).2
    simp [hcur]
  case tdScan i =>
    split
    · split <;> rfl
    · rfl
  case tdInExit i => cases hcur : (G.table i).curMsg <;> simp
  case tdMsg i r cur =>
    obtain ⟨x, hx⟩ := Option.isSome_iff_exists.mp (hmsg i r cur hpc)
    cases htype : msgGetType x <;> simp [hx, htype]
  case tdSend i r rsp cur =>
    obtain ⟨code, hcode⟩ := Option.ne_none_iff_exists'.mp
      (hret (by rw [hpc]; rfl))
    simp [hcode]
  case tdPop i => split <;> rfl
  case exitScan k =>
    cases k with
    | zero => rfl
    | succ i =>
        show (if _ then _ else _ : Option _).isSome = true
        split <;> rfl
  all_goals simp

/-- The message of the record that teardown is dealing with exists. -/
theorem Balanced.live_of_tdMsg (h : Balanced L s) (hg : g < L.size)
    (inv : GroupInv (L.conf g) (s.group g)) {cur : Bool}
    (hpc : (s.group g).worker = .tdMsg i r cur) : (s.msg r.msg).isSome := by
  refine h.live_of_group hg ?_
  cases cur with
  | false =>
      simp only [Group.refs, hpc, Pc.refs, here_self]
      simp
  | true =>
      have hi := inv.focus i (by rw [hpc]; rfl)
      have hholds := (inv.sound i hi).holds
      rw [hpc] at hholds
      have hcur : ((s.group g).table i).curMsg = some r := by
        simpa using (hholds rfl).2
      refine Group.refs_pos hi ?_
      simp [Service.records, hcur]

/-- A worker that waits does not move. -/
theorem Sys.Waits.stuck (h : s.Waits g) (hrun : Trace L (serial L) tr s)
    (o : Outcome) : s.workerStep L g o = none := by
  have hnone : Core.workerStep (L.conf g) (s.env g) (s.group g) o = none := by
    have hown := hrun.ownCall g
    cases hpc : (s.group g).worker
    case hookBefore ph i =>
      simp only [Sys.Waits, hpc] at h
      cases hcur : ((s.group g).table i).curMsg <;>
        simp [Core.workerStep, hpc, hcur, Sys.env, h]
    case tdSend i r rsp cur =>
      -- the thread is still inside `eaf_send_rsp`
      simp only [Sys.Waits, hpc] at h
      cases hcall : s.call (.worker g) <;>
        simp_all [Core.workerStep, Sys.env, Call.free]
    all_goals
      simp_all [Sys.Waits, Core.workerStep, OwnCall, Pc.inCallback, Sys.env]
  simp [Sys.workerStep, hnone]

/-- A worker that does not wait is outside the API, apart from the answer of
teardown, which has returned. -/
theorem Sys.call_of_not_waits (hrun : Trace L (serial L) tr s)
    (h : ¬ s.Waits g) : (s.call (.worker g)).free = true ∧
      ((s.group g).worker.inAnswer = true → (s.env g).callRet ≠ none) := by
  have hown := hrun.ownCall g
  have hfree : (s.call (.worker g)).free = true := by
    cases hpc : (s.group g).worker <;>
      simp_all [Sys.Waits, OwnCall, Pc.inCallback]
  refine ⟨hfree, fun hanswer => ?_⟩
  cases hpc : (s.group g).worker <;> rw [hpc] at hanswer hown <;> cases hanswer
  rcases hown with hsend | ⟨code, hdone⟩
  · cases hcall : s.call (.worker g) <;> simp_all [Call.send?, Call.free]
  · simp [Sys.env, hdone]

/-- A worker that does not wait can move, whatever the hooks and handlers do
afterwards. -/
theorem Trace.worker_moves (h : Trace L (properlySent L) tr s) (hg : g < L.size)
    (hmoves : ¬ s.Waits g) : (s.workerStep L g .plain).isSome := by
  have hserial := h.ofProperlySent
  have hbal := hserial.balanced
  have inv : GroupInv (L.conf g) (s.group g) := GroupInv.ofRun hserial.groupRun
  obtain ⟨hfree, hret⟩ := Sys.call_of_not_waits hserial hmoves
  have hstep : (Core.workerStep (L.conf g) (s.env g) (s.group g)
      .plain).isSome := by
    refine exists_workerStep inv (fun hpc => ?_) (fun ph hpc => ?_)
      (fun site hpc => ?_) (by simp [Sys.env, hfree]) hret
      (fun i hi r hcur => h.typed.handler hbal hg hi hcur)
      (fun i r cur hpc => hbal.live_of_tdMsg hg inv hpc)
    · simp only [Sys.Waits, hpc] at hmoves
      omega
    · simp only [Sys.Waits, hpc] at hmoves
      omega
    · simp [Sys.Waits, hpc] at hmoves
  obtain ⟨⟨G, gevents⟩, hG⟩ := Option.isSome_iff_exists.mp hstep
  simp [Sys.workerStep, hg, hG]

/-- **A worker never gets stuck.**  When calls of `eaf_load` and `eaf_cleanup` do
not overlap and only responses go through `eaf_send_rsp`, in every reachable
state a worker can move unless it waits for its semaphore, is inside an API
call, or has returned: no assertion fails, no handler is missing and no message
is gone. -/
theorem worker_never_stuck (L : Layout) (h : Trace L (properlySent L) tr s)
    (hg : g < L.size) :
    (∃ o, (s.workerStep L g o).isSome) ↔ ¬ s.Waits g := by
  constructor
  · rintro ⟨o, ho⟩ hwaits
    rw [hwaits.stuck h.ofProperlySent] at ho
    cases ho
  · intro hmoves
    exact ⟨.plain, h.worker_moves hg hmoves⟩

/-- The worker has taken a request up and is about to look for the handler. -/
theorem worker_never_stuck_lazy :
    ∃ tr s, Trace lazyPair (properlySent lazyPair) tr s ∧
      (s.group 0).worker = .hookBefore .busy 0 ∧
      ∃ o, (s.workerStep lazyPair 0 o).isSome := by
  obtain ⟨tr, s, hrun, hcheck⟩ :=
    exists_trace lazyPair (properlySent lazyPair)
      (lazyPairRequest ++ workerSteps 0 4)
      (fun o => decide ((o.1.group 0).worker = .hookBefore .busy 0 ∧
        (o.1.call (.worker 0)).free = true)) (by decide +kernel)
  obtain ⟨hpc, hfree⟩ : (s.group 0).worker = .hookBefore .busy 0 ∧
      (s.call (.worker 0)).free = true := of_decide_eq_true hcheck
  refine ⟨tr, s, hrun, hpc, (worker_never_stuck lazyPair hrun ?_).mpr ?_⟩
  · decide
  · simp [Sys.Waits, hpc, hfree]

end Core
end Eaf
