import Eaf.Powerpack.MessageCall

/-!
# The steps of calls by message

What each step can do, said once: either it is one of the transitions below, or
something has gone wrong and the process ends.
-/

namespace Eaf
namespace Powerpack

open Core KeyedTable

/-- What lets an assertion fail, or uses memory that is not there. -/
inductive CallFault (s : Calls) : Prop
  | proxy {c : UInt32} {req : MsgRef} (hpc : s.pc c = .proxy req)
      (hmsg : s.msg req = none)
  | insert {c idTo : UInt32} {r : RecordRef} (hpc : s.pc c = .insert idTo r)
      (hrec : ∀ rec, s.record r = some rec → (s.pendTable rec.uuid).isSome)
  | send {c idTo : UInt32} {r : RecordRef} (hpc : s.pc c = .send idTo r)
      (hrec : ∀ rec, s.record r = some rec → s.msg rec.origReq = none)
  | errSendReq {c : UInt32} {r : RecordRef} {code : Int}
      (hpc : s.pc c = .errSendReq r code)
      (hrec : ∀ rec, s.record r = some rec → s.pendTable rec.uuid ≠ some r)
  | found {c : UInt32} {r : RecordRef} (hpc : s.pc c = .found r)
      (hrec : ∀ rec, s.record r = some rec → s.msg rec.origReq = none)
  | release {c : UInt32} {rsp : Option MsgRef} (hpc : s.pc c = .release rsp)
      (hmsg : rsp.bind s.msg = none)
  | request {e : Request} (he : e ∈ s.inbox) (hmsg : s.msg e.req = none)
  | entered {m : MsgRef} (hpc : s.handler = .entered m) (hmsg : s.msg m = none)
  | counted {m : MsgRef} (hpc : s.handler = .counted m)
      (hmsg : ∀ x r rec, s.msg m = some x → s.pendTable x.uuid = some r →
        s.record r = some rec → (s.readyTable x.uuid).isSome)
  | resume {m : MsgRef} {c : UInt32} (hpc : s.handler = .resume m c)
      (hstate : s.state c ≠ .yield)
  | leave {m : MsgRef} (hpc : s.handler = .leave m) (hmsg : s.msg m = none)

/-- A message with another number of references. -/
def withRefs (x : Msg) : Nat → Option Msg
  | 0 => none
  | n + 1 => some { x with refcnt := n + 1 }

/-- The steps.  While it is `calm`, every send succeeds, a request is answered
at most once, and nobody else resumes a caller. -/
inductive CallTrans (calm : Prop) (s : Calls) : List CallEvent → Calls → Prop
  | begin {c : UInt32} {a : MsgRef} (dst msgId : UInt32) (size : Nat)
      (hpc : s.pc c = .idle) (hstate : s.state c = .busy)
      (hfree : s.msg a = none) :
      CallTrans calm s [.begin c a] (((s.setWord c (setW1 (s.unsafe0 c) dst)).setMsg
        a (some (msgCreateReq a msgId size responseHandler))).setPc c
          (.yielding a))
  | noMemory {c : UInt32} (hpc : s.pc c = .idle) : CallTrans calm s [.noMemory c] s
  | yield {c : UInt32} {req : MsgRef} (hpc : s.pc c = .yielding req) :
      CallTrans calm s [] ((s.setState c .yield).setPc c (.proxy req))
  | proxy {c : UInt32} {req : MsgRef} {r : RecordRef} {x : Msg}
      (hpc : s.pc c = .proxy req) (hfree : s.record r = none)
      (hmsg : s.msg req = some x) :
      CallTrans calm s [] (((s.setWord c x.uuid).setRecord r
        (some ⟨x.uuid, req, none, c, Errno.success⟩)).setPc c
          (.insert (getW1 (s.unsafe0 c)) r))
  | insert {c idTo : UInt32} {r : RecordRef} {rec : MessageRecord}
      (hpc : s.pc c = .insert idTo r) (hrec : s.record r = some rec)
      (hpend : s.pendTable rec.uuid = none) :
      CallTrans calm s [] ((s.setTables
        (Function.update s.pendTable rec.uuid (some r)) s.readyTable).setPc c
          (.send idTo r))
  | sendFails {c idTo : UInt32} {r : RecordRef} {code : Int}
      (hpc : s.pc c = .send idTo r) (hcode : code < 0) (hcalm : ¬calm) :
      CallTrans calm s [.send c code] (s.setPc c (.errSendReq r code))
  | send {c idTo : UInt32} {r : RecordRef} {code : Int} {rec : MessageRecord}
      {x : Msg} (hpc : s.pc c = .send idTo r) (hcode : 0 ≤ code)
      (hrec : s.record r = some rec) (hmsg : s.msg rec.origReq = some x) :
      CallTrans calm s [.send c code]
        { (s.setMsg rec.origReq (withRefs x (x.refcnt + 1))).setPc c .sent with
          inbox := s.inbox ++ [⟨idTo, rec.origReq, false⟩] }
  | errSendReq {c : UInt32} {r : RecordRef} {code : Int} {rec : MessageRecord}
      {ready : Table MsgRef RecordRef} (hpc : s.pc c = .errSendReq r code)
      (hrec : s.record r = some rec) (hpend : s.pendTable rec.uuid = some r)
      (hready : s.readyTable rec.uuid = none →
        ready = Function.update s.readyTable rec.uuid (some r)) :
      CallTrans calm s [] (((s.setTables
        (Function.update s.pendTable rec.uuid none) ready).setRecord r
          (some { rec with ret := code })).setPc c .wakeUp)
  | wakeUp {c : UInt32} (hpc : s.pc c = .wakeUp) :
      CallTrans calm s [.resume c (s.eafResume c).2]
        ((s.eafResume c).1.setPc c .waiting)
  | sent {c : UInt32} (hpc : s.pc c = .sent) :
      CallTrans calm s [] (s.setPc c .waiting)
  | waiting {c : UInt32} (hpc : s.pc c = .waiting)
      (hstate : s.state c = .busy) : CallTrans calm s [] (s.setPc c .finalize)
  | notFound {c : UInt32} (hpc : s.pc c = .finalize)
      (hready : s.readyTable (s.unsafe0 c) = none) :
      CallTrans calm s [.finalize c Errno.notfound none,
        .finish c Errno.notfound] (s.setPc c .idle)
  | finalize {c : UInt32} {r : RecordRef} (hpc : s.pc c = .finalize)
      (hready : s.readyTable (s.unsafe0 c) = some r) :
      CallTrans calm s [] ((s.setTables s.pendTable
        (Function.update s.readyTable (s.unsafe0 c) none)).setPc c (.found r))
  | found {c : UInt32} {r : RecordRef} {rec : MessageRecord} {x : Msg}
      (hpc : s.pc c = .found r) (hrec : s.record r = some rec)
      (hmsg : s.msg rec.origReq = some x) :
      CallTrans calm s [.releaseReq c rec.origReq, .freeRecord c,
          .finalize c Errno.success rec.origRsp]
        (((s.setMsg rec.origReq (withRefs x (x.refcnt - 1))).setRecord r
          none).setPc c (.deserialize rec.origRsp))
  | deserialize {c : UInt32} {rsp : Option MsgRef}
      (hpc : s.pc c = .deserialize rsp) :
      CallTrans calm s [.deserialize c rsp] (s.setPc c (.release rsp))
  | release {c : UInt32} {rsp : MsgRef} {x : Msg}
      (hpc : s.pc c = .release (some rsp)) (hmsg : s.msg rsp = some x) :
      CallTrans calm s [.releaseRsp c (some rsp), .finish c Errno.success]
        ((s.setMsg rsp (withRefs x (x.refcnt - 1))).setPc c .idle)
  | respond {e : Request} {before after : List Request} {a : MsgRef} {x : Msg}
      (size : Nat) (hinbox : s.inbox = before ++ e :: after)
      (hfree : s.msg a = none) (hnew : calm → e.answered = false)
      (hmsg : s.msg e.req = some x) :
      CallTrans calm s [] { s.setMsg a (some (msgCreateRsp x size)) with
        inbox := before ++ { e with answered := true } :: after
        queue := s.queue ++ [a] }
  | forget {e : Request} {before after : List Request} {x : Msg}
      (hinbox : s.inbox = before ++ e :: after)
      (hmsg : s.msg e.req = some x) :
      CallTrans calm s [] { s.setMsg e.req (withRefs x (x.refcnt - 1)) with
        inbox := before ++ after }
  | take {m : MsgRef} {rest : List MsgRef} (hpc : s.handler = .idle)
      (hqueue : s.queue = m :: rest) :
      CallTrans calm s [] { s with queue := rest, handler := .entered m }
  | entered {m : MsgRef} {x : Msg} (hpc : s.handler = .entered m)
      (hmsg : s.msg m = some x) :
      CallTrans calm s [] { s.setMsg m (withRefs x (x.refcnt + 1)) with
        handler := .counted m }
  | counted {m : MsgRef} {x : Msg} {r : RecordRef} {rec : MessageRecord}
      (hpc : s.handler = .counted m) (hmsg : s.msg m = some x)
      (hpend : s.pendTable x.uuid = some r)
      (hready : s.readyTable x.uuid = none) (hrec : s.record r = some rec) :
      CallTrans calm s [.store x.uuid m]
        { (s.setTables (Function.update s.pendTable x.uuid none)
            (Function.update s.readyTable x.uuid (some r))).setRecord r
              (some { rec with origRsp := some m }) with
          handler := .resume m rec.origFrom }
  | resume {m : MsgRef} {c : UInt32} (hpc : s.handler = .resume m c)
      (hstate : s.state c = .yield) :
      CallTrans calm s [.resume c Errno.success]
        { s.setState c .busy with handler := .leave m }
  | leave {m : MsgRef} {x : Msg} (hpc : s.handler = .leave m)
      (hmsg : s.msg m = some x) :
      CallTrans calm s [] { s.setMsg m (withRefs x (x.refcnt - 1)) with
        handler := .idle }
  | elsewhere {c : UInt32} (state : ServiceState) (hpc : s.pc c = .idle) :
      CallTrans calm s [] (s.setState c state)
  | resumeOther (c : UInt32) (hcalm : ¬calm) :
      CallTrans calm s [.resumeOther c] (s.eafResume c).1
  | abort {events : List CallEvent} (hfault : CallFault s)
      (hevents : events = [.abort] ∨
        (∃ c rsp, events = [.releaseRsp c rsp, .abort]) ∨
        ∃ c code, events = [.resume c code, .abort]) :
      CallTrans calm s events { s with aborted := true }

variable {calm : Prop} {s s' : Calls} {events : List CallEvent} {c idTo : UInt32}
  {m req : MsgRef} {r : RecordRef} {x : Msg} {code : Int}

theorem addRef_of_some (h : s.msg m = some x) :
    s.addRef m = some (s.setMsg m (withRefs x (x.refcnt + 1))) := by
  simp [Calls.addRef, h, withRefs]

theorem decRef_of_some (h : s.msg m = some x) :
    s.decRef m = some (s.setMsg m (withRefs x (x.refcnt - 1))) := by
  rw [Calls.decRef, h, Option.map_some]
  cases hcount : x.refcnt - 1 with
  | zero => rw [if_pos rfl, withRefs]
  | succ n => rw [if_neg (by simp), withRefs]

theorem addRef_eq_none : s.addRef m = none ↔ s.msg m = none := by
  simp [Calls.addRef]

theorem decRef_eq_none : s.decRef m = none ↔ s.msg m = none := by
  simp [Calls.decRef]

/-- Resuming a service changes its state at most. -/
theorem Calls.eafResume_eq (s : Calls) (c : UInt32) :
    ∃ state, (s.eafResume c).1 = s.setState c state := by
  unfold Calls.eafResume
  split
  · exact ⟨.busy, rfl⟩
  · refine ⟨s.state c, ?_⟩
    rw [Calls.setState, Function.update_eq_self]

/-- A step that ends the process. -/
theorem CallTrans.of_abort (h : CallFault s) (heq : s.abort = (s', events)) :
    CallTrans calm s events s' := by
  cases heq
  exact .abort h (.inl rfl)

/-- What the thread of a caller does. -/
theorem callerStep_trans (h : s.callerStep c = some (s', events)) :
    CallTrans calm s events s' := by
  unfold Calls.callerStep at h
  cases hpc : s.pc c with
  | idle | proxy _ | send _ _ => simp [hpc] at h
  | yielding req =>
      simp only [hpc, Option.some.injEq, Prod.mk.injEq] at h
      obtain ⟨rfl, rfl⟩ := h
      exact .yield hpc
  | insert idTo r =>
      simp only [hpc, Option.some.injEq] at h
      unfold Calls.proxyInsert at h
      cases hrec : s.record r with
      | none =>
          simp only [hrec] at h
          exact .of_abort (.insert hpc (by simp [hrec])) h
      | some rec =>
          simp only [hrec] at h
          cases hpend : s.pendTable rec.uuid with
          | some r' =>
              rw [Table.insert_eq_none.mpr (by simp [hpend])] at h
              refine .of_abort (.insert hpc fun rec' hrec' => ?_) h
              rw [hrec] at hrec'
              cases hrec'
              simp [hpend]
          | none =>
              rw [Table.insert_of_none hpend] at h
              cases h
              exact .insert hpc hrec hpend
  | errSendReq r code =>
      simp only [hpc, Option.some.injEq] at h
      unfold Calls.proxyError at h
      cases hrec : s.record r with
      | none =>
          simp only [hrec] at h
          exact .of_abort (.errSendReq hpc (by simp [hrec])) h
      | some rec =>
          simp only [hrec] at h
          by_cases hpend : s.pendTable rec.uuid = some r
          · rw [Table.erase_of_some hpend] at h
            cases h
            exact .errSendReq hpc hrec hpend fun hready => by
              rw [Table.insert_of_none hready, Option.getD_some]
          · simp only [Table.erase, hpend, if_false] at h
            refine .of_abort (.errSendReq hpc fun rec' hrec' => ?_) h
            rw [hrec] at hrec'
            cases hrec'
            exact hpend
  | wakeUp =>
      simp only [hpc, Option.some.injEq, Prod.mk.injEq] at h
      obtain ⟨rfl, rfl⟩ := h
      exact .wakeUp hpc
  | sent =>
      simp only [hpc, Option.some.injEq, Prod.mk.injEq] at h
      obtain ⟨rfl, rfl⟩ := h
      exact .sent hpc
  | waiting =>
      by_cases hstate : s.state c = .busy
      · simp only [hpc, hstate, if_true, Option.some.injEq,
          Prod.mk.injEq] at h
        obtain ⟨rfl, rfl⟩ := h
        exact .waiting hpc hstate
      · simp [hpc, hstate] at h
  | finalize =>
      simp only [hpc, Option.some.injEq] at h
      unfold Calls.finalizeLookup at h
      cases hready : s.readyTable (s.unsafe0 c) with
      | none =>
          simp only [hready, Prod.mk.injEq] at h
          obtain ⟨rfl, rfl⟩ := h
          exact .notFound hpc hready
      | some r =>
          simp only [hready] at h
          rw [Table.erase_of_some hready] at h
          cases h
          exact .finalize hpc hready
  | found r =>
      simp only [hpc, Option.some.injEq] at h
      unfold Calls.finalizeRecord at h
      cases hrec : s.record r with
      | none =>
          simp only [hrec] at h
          exact .of_abort (.found hpc (by simp [hrec])) h
      | some rec =>
          cases hmsg : s.msg rec.origReq with
          | none =>
              simp only [hrec, decRef_eq_none.mpr hmsg] at h
              refine .of_abort (.found hpc fun rec' hrec' => ?_) h
              rw [hrec] at hrec'
              cases hrec'
              exact hmsg
          | some x =>
              simp only [hrec, decRef_of_some hmsg] at h
              cases h
              exact .found hpc hrec hmsg
  | deserialize rsp =>
      simp only [hpc, Option.some.injEq, Prod.mk.injEq] at h
      obtain ⟨rfl, rfl⟩ := h
      exact .deserialize hpc
  | release rsp =>
      simp only [hpc, Option.some.injEq] at h
      unfold Calls.releaseRsp at h
      cases rsp with
      | none =>
          cases h
          exact .abort (.release hpc rfl) (.inr (.inl ⟨c, none, rfl⟩))
      | some rsp =>
          cases hmsg : s.msg rsp with
          | none =>
              simp only [Option.bind_some, decRef_eq_none.mpr hmsg] at h
              cases h
              exact .abort (.release hpc hmsg) (.inr (.inl ⟨c, _, rfl⟩))
          | some x =>
              simp only [Option.bind_some, decRef_of_some hmsg] at h
              cases h
              exact .release hpc hmsg

/-- What the message service does. -/
theorem handlerStep_trans (h : s.handlerStep = some (s', events)) :
    CallTrans calm s events s' := by
  unfold Calls.handlerStep at h
  cases hpc : s.handler with
  | idle =>
      cases hqueue : s.queue with
      | nil => simp [hpc, hqueue] at h
      | cons m rest =>
          simp only [hpc, hqueue, Option.some.injEq, Prod.mk.injEq] at h
          obtain ⟨rfl, rfl⟩ := h
          exact .take hpc hqueue
  | entered m =>
      cases hmsg : s.msg m with
      | none =>
          simp only [hpc, addRef_eq_none.mpr hmsg, Option.some.injEq] at h
          exact .of_abort (.entered hpc hmsg) h
      | some x =>
          simp only [hpc, addRef_of_some hmsg, Option.some.injEq] at h
          cases h
          exact .entered hpc hmsg
  | counted m =>
      simp only [hpc, Option.some.injEq] at h
      unfold Calls.handlerStore at h
      cases hmsg : s.msg m with
      | none =>
          simp only [hmsg] at h
          exact .of_abort (.counted hpc (by simp [hmsg])) h
      | some x =>
          simp only [hmsg] at h
          cases hpend : s.pendTable x.uuid with
          | none =>
              simp only [hpend] at h
              refine .of_abort (.counted hpc fun x' r rec hx hr _ => ?_) h
              rw [hmsg] at hx
              cases hx
              rw [hpend] at hr
              cases hr
          | some r =>
              simp only [hpend, Table.erase_of_some hpend] at h
              cases hready : s.readyTable x.uuid with
              | some r' =>
                  rw [Table.insert_eq_none.mpr (by simp [hready])] at h
                  refine .of_abort (.counted hpc fun x' r' rec hx _ _ => ?_) h
                  rw [hmsg] at hx
                  cases hx
                  simp [hready]
              | none =>
                  rw [Table.insert_of_none hready] at h
                  cases hrec : s.record r with
                  | none =>
                      simp only [hrec] at h
                      refine .of_abort
                        (.counted hpc fun x' r' rec hx hr hrec' => ?_) h
                      rw [hmsg] at hx
                      cases hx
                      rw [hpend] at hr
                      cases hr
                      rw [hrec] at hrec'
                      cases hrec'
                  | some rec =>
                      simp only [hrec] at h
                      cases h
                      exact .counted hpc hmsg hpend hready hrec
  | resume m c =>
      simp only [hpc, Option.some.injEq] at h
      unfold Calls.handlerResume at h
      by_cases hstate : s.state c = .yield
      · simp only [Calls.eafResume, hstate, if_true] at h
        cases h
        exact .resume hpc hstate
      · have hsame : s.eafResume c = (s, Errno.state) := by
          unfold Calls.eafResume
          split
          · contradiction
          · rfl
        simp only [hsame, Errno.state, Errno.success] at h
        cases h
        exact .abort (.resume hpc hstate) (.inr (.inr ⟨c, _, rfl⟩))
  | leave m =>
      cases hmsg : s.msg m with
      | none =>
          simp only [hpc, decRef_eq_none.mpr hmsg, Option.some.injEq] at h
          exact .of_abort (.leave hpc hmsg) h
      | some x =>
          simp only [hpc, decRef_of_some hmsg, Option.some.injEq] at h
          cases h
          exact .leave hpc hmsg

/-- An element of a list stands between others. -/
theorem split_of_getElem? {α : Type*} {xs : List α} {i : Nat} {e : α}
    (h : xs[i]? = some e) :
    ∃ before after, xs = before ++ e :: after ∧
      (∀ e', xs.set i e' = before ++ e' :: after) ∧
      xs.eraseIdx i = before ++ after := by
  obtain ⟨hi, rfl⟩ := List.getElem?_eq_some_iff.mp h
  refine ⟨xs.take i, xs.drop (i + 1), ?_, fun e' => ?_, ?_⟩
  · simp
  · rw [List.set_eq_take_append_cons_drop, if_pos hi]
  · exact List.eraseIdx_eq_take_drop_succ ..

/-- **Every step is a transition.** -/
theorem callsNext_trans {a : CallAct} (hok : a.possible s)
    (hcalm : calm → a.undisturbed s)
    (h : callsNext s a = some (s', events)) : CallTrans calm s events s' := by
  cases a with
  | begin c a dst msgId size =>
      simp only [callsNext] at h
      split at h
      · next hpc hstate =>
          cases h
          exact .begin dst msgId size hpc hstate hok
      · cases h
  | noMemory c =>
      simp only [callsNext] at h
      split at h
      · next hpc =>
          cases h
          exact .noMemory hpc
      · cases h
  | proxy c r =>
      simp only [callsNext] at h
      split at h
      · next req hpc =>
          simp only [Option.some.injEq] at h
          unfold Calls.proxyStart at h
          cases hmsg : s.msg req with
          | none =>
              simp only [hmsg] at h
              exact .of_abort (.proxy hpc hmsg) h
          | some x =>
              simp only [hmsg] at h
              cases h
              exact .proxy hpc hok hmsg
      · cases h
  | send c code =>
      simp only [callsNext] at h
      split at h
      · next idTo r hpc =>
          simp only [Option.some.injEq] at h
          unfold Calls.proxySend at h
          by_cases hcode : code < 0
          · rw [if_pos hcode] at h
            cases h
            exact .sendFails hpc hcode fun h => absurd (hcalm h) (by
              simpa [CallAct.undisturbed] using hcode)
          · rw [if_neg hcode] at h
            cases hrec : s.record r with
            | none =>
                simp only [hrec] at h
                exact .of_abort (.send hpc (by simp [hrec])) h
            | some rec =>
                cases hmsg : s.msg rec.origReq with
                | none =>
                    simp only [hrec, addRef_eq_none.mpr hmsg] at h
                    refine .of_abort (.send hpc fun rec' hrec' => ?_) h
                    rw [hrec] at hrec'
                    cases hrec'
                    exact hmsg
                | some x =>
                    simp only [hrec, addRef_of_some hmsg] at h
                    cases h
                    exact .send hpc (by omega) hrec hmsg
      · cases h
  | caller c => exact callerStep_trans h
  | respond i a size =>
      simp only [callsNext, Calls.respond] at h
      cases hget : s.inbox[i]? with
      | none => simp [hget] at h
      | some e =>
          obtain ⟨before, after, hinbox, hset, -⟩ := split_of_getElem? hget
          simp only [hget] at h
          cases hmsg : s.msg e.req with
          | none =>
              simp only [hmsg, Option.some.injEq] at h
              exact .of_abort (.request (by simp [hinbox]) hmsg) h
          | some x =>
              simp only [hmsg, Option.some.injEq, Prod.mk.injEq] at h
              obtain ⟨rfl, rfl⟩ := h
              rw [hset]
              exact .respond size hinbox hok
                (fun h => hcalm h e (by simp [hget])) hmsg
  | forget i =>
      simp only [callsNext, Calls.forget] at h
      cases hget : s.inbox[i]? with
      | none => simp [hget] at h
      | some e =>
          obtain ⟨before, after, hinbox, -, herase⟩ := split_of_getElem? hget
          simp only [hget] at h
          cases hmsg : s.msg e.req with
          | none =>
              simp only [decRef_eq_none.mpr hmsg, Option.some.injEq] at h
              exact .of_abort (.request (by simp [hinbox]) hmsg) h
          | some x =>
              simp only [decRef_of_some hmsg, Option.some.injEq,
                Prod.mk.injEq] at h
              obtain ⟨rfl, rfl⟩ := h
              have hsame : (s.setMsg e.req
                  (withRefs x (x.refcnt - 1))).inbox = s.inbox := rfl
              rw [hsame, herase]
              exact .forget hinbox hmsg
  | handler => exact handlerStep_trans h
  | elsewhere c state =>
      simp only [callsNext] at h
      split at h
      · next hpc =>
          cases h
          exact .elsewhere state hpc
      · cases h
  | resumeOther c =>
      cases h
      exact .resumeOther c hcalm

end Powerpack
end Eaf
