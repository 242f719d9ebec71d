import Eaf.Core.Message
import Eaf.Core.ServiceGroup
import Eaf.Foundation.KeyedTable
import Eaf.Foundation.LabelledRun
import Mathlib.Tactic.Simps.Basic

/-!
# Calls by message

`message.c` and `EAF_MESSAGE_CALL_FILBER`: a service sends a request and yields
until the response is there.  In between the call is kept as a record in one
of two tables, under the address of the request.  Three threads take part: that
of the caller, which runs the yield hook and later the rest of the macro; that
of the receiver, which answers; and that of the message service, which runs
the response handler.  Every step below is one lock section, or a piece of code
that only its own thread can see.

An address of a message or a record is free again as soon as the object is
gone.  `malloc` finds memory, and the tables are those of `map.c`, as a user
sees them.
-/

namespace Eaf
namespace Powerpack

open Core KeyedTable

/-- The address of a record. -/
abbrev RecordRef := Nat

/-- `pp_message_record_t`; a null pointer is `none`. -/
structure MessageRecord where
  uuid : MsgRef
  origReq : MsgRef
  origRsp : Option MsgRef
  origFrom : UInt32
  ret : Int
  deriving DecidableEq, Repr

/-- The address of `eaf_message_internal_response_handler`. -/
def responseHandler : Fn := 1

/-- Writing to `unsafe[0].ww.w1`, the lower half of the word. -/
def setW1 (word : Nat) (w1 : UInt32) : Nat := word / 2 ^ 32 * 2 ^ 32 + w1.toNat

/-- Reading `unsafe[0].ww.w1`. -/
def getW1 (word : Nat) : UInt32 := UInt32.ofNat (word % 2 ^ 32)

/-- Where the thread of a caller is. -/
inductive CallerPc
  /-- not in a call -/
  | idle
  /-- the callback has returned at `eaf_yield_ext` -/
  | yielding (req : MsgRef)
  /-- at the start of `eaf_message_internal_proxy` -/
  | proxy (req : MsgRef)
  /-- in front of its first lock section -/
  | insert (idTo : UInt32) (record : RecordRef)
  /-- in front of `eaf_send_req` -/
  | send (idTo : UInt32) (record : RecordRef)
  /-- at `err_send_req` -/
  | errSendReq (record : RecordRef) (ret : Int)
  /-- in front of `eaf_resume` -/
  | wakeUp
  /-- `eaf_send_req` has put the request into a queue -/
  | sent
  /-- the hook has returned -/
  | waiting
  /-- running again, in front of the lock section of
  `eaf_message_internal_finalize` -/
  | finalize
  /-- behind this lock section -/
  | found (record : RecordRef)
  /-- in front of `code_deserialize` -/
  | deserialize (rsp : Option MsgRef)
  /-- in front of the last `eaf_msg_dec_ref` -/
  | release (rsp : Option MsgRef)
  deriving DecidableEq, Repr

/-- Where the message service is with the response it handles. -/
inductive HandlerPc
  | idle
  /-- at the start of `eaf_message_internal_response_handler` -/
  | entered (msg : MsgRef)
  /-- in front of its lock section -/
  | counted (msg : MsgRef)
  /-- in front of `eaf_resume` -/
  | resume (msg : MsgRef) (origFrom : UInt32)
  /-- the handler has returned -/
  | leave (msg : MsgRef)
  deriving DecidableEq, Repr

/-- A request that its receiver holds a reference to. -/
structure Request where
  dst : UInt32
  req : MsgRef
  answered : Bool
  deriving DecidableEq, Repr

/-- The memory, the tables of `pp_message_ctx_t`, and the threads. -/
structure Calls where
  msg : MsgRef → Option Msg
  record : RecordRef → Option MessageRecord
  pendTable : Table MsgRef RecordRef
  readyTable : Table MsgRef RecordRef
  pc : UInt32 → CallerPc
  /-- `local.state` of each service -/
  state : UInt32 → ServiceState
  /-- `local.unsafe[0]` of each service -/
  unsafe0 : UInt32 → Nat
  inbox : List Request
  /-- The responses in the queue of the message service. -/
  queue : List MsgRef
  handler : HandlerPc
  aborted : Bool

/-- Nobody has made a call. -/
def Calls.init : Calls where
  msg _ := none
  record _ := none
  pendTable _ := none
  readyTable _ := none
  pc _ := .idle
  state _ := .busy
  unsafe0 _ := 0
  inbox := []
  queue := []
  handler := .idle
  aborted := false

/-- What can be seen of the calls. -/
inductive CallEvent
  /-- a request has been made -/
  | begin (caller : UInt32) (req : MsgRef)
  /-- the macro has ended with `eaf_errno_memory` -/
  | noMemory (caller : UInt32)
  /-- `eaf_send_req` has returned -/
  | send (caller : UInt32) (ret : Int)
  /-- a response has been stored in the record of a request -/
  | store (uuid rsp : MsgRef)
  /-- the hook or the handler has called `eaf_resume` -/
  | resume (caller : UInt32) (ret : Int)
  /-- somebody else has -/
  | resumeOther (caller : UInt32)
  /-- the reference to a request has been given up by
  `eaf_message_internal_finalize` -/
  | releaseReq (caller : UInt32) (req : MsgRef)
  | freeRecord (caller : UInt32)
  /-- `eaf_message_internal_finalize` has returned -/
  | finalize (caller : UInt32) (ret : Int) (rsp : Option MsgRef)
  /-- `code_deserialize` has been run -/
  | deserialize (caller : UInt32) (rsp : Option MsgRef)
  /-- the reference to the response has been given up -/
  | releaseRsp (caller : UInt32) (rsp : Option MsgRef)
  /-- the macro has ended -/
  | finish (caller : UInt32) (ret : Int)
  /-- an assertion has failed, or freed memory or a null pointer was used -/
  | abort
  deriving DecidableEq, Repr

namespace Calls

variable (s : Calls)

/-! ## What the steps do -/

@[simps]
def setPc (c : UInt32) (pc : CallerPc) : Calls :=
  { s with pc := Function.update s.pc c pc }

@[simps]
def setState (c : UInt32) (state : ServiceState) : Calls :=
  { s with state := Function.update s.state c state }

@[simps]
def setWord (c : UInt32) (word : Nat) : Calls :=
  { s with unsafe0 := Function.update s.unsafe0 c word }

@[simps]
def setTables (pend ready : Table MsgRef RecordRef) : Calls :=
  { s with pendTable := pend, readyTable := ready }

@[simps]
def setMsg (m : MsgRef) (x : Option Msg) : Calls :=
  { s with msg := Function.update s.msg m x }

@[simps]
def setRecord (r : RecordRef) (rec : Option MessageRecord) : Calls :=
  { s with record := Function.update s.record r rec }

/-- `eaf_msg_add_ref` -/
def addRef (m : MsgRef) : Option Calls :=
  (s.msg m).map fun x => s.setMsg m (some { x with refcnt := x.refcnt + 1 })

/-- `eaf_msg_dec_ref` -/
def decRef (m : MsgRef) : Option Calls :=
  (s.msg m).map fun x =>
    s.setMsg m (if x.refcnt - 1 = 0 then none
      else some { x with refcnt := x.refcnt - 1 })

/-- `eaf_resume`, with the code it returns. -/
def eafResume (c : UInt32) : Calls × Int :=
  match s.state c with
  | .yield => (s.setState c .busy, Errno.success)
  | _ => (s, Errno.state)

/-- The process ends here. -/
def abort : Calls × List CallEvent := ({ s with aborted := true }, [.abort])

/-! ## The caller -/

/-- The first lines of `eaf_message_internal_proxy`, with a record allocated at
`r`. -/
def proxyStart (c : UInt32) (req : MsgRef) (r : RecordRef) :
    Calls × List CallEvent :=
  match s.msg req with
  | none => s.abort
  | some x =>
      let idTo := getW1 (s.unsafe0 c)
      (((s.setWord c x.uuid).setRecord r
        (some ⟨x.uuid, req, none, c, Errno.success⟩)).setPc c
          (.insert idTo r), [])

/-- The first lock section of the proxy, and the assertion behind it. -/
def proxyInsert (c idTo : UInt32) (r : RecordRef) : Calls × List CallEvent :=
  match s.record r with
  | none => s.abort
  | some rec =>
      match s.pendTable.insert rec.uuid r with
      | none => s.abort
      | some pend =>
          ((s.setTables pend s.readyTable).setPc c (.send idTo r), [])

/-- `eaf_send_req` in the proxy, which returns `code`. -/
def proxySend (c idTo : UInt32) (r : RecordRef) (code : Int) :
    Calls × List CallEvent :=
  if code < 0 then (s.setPc c (.errSendReq r code), [.send c code])
  else
    match s.record r with
    | none => s.abort
    | some rec =>
        match s.addRef rec.origReq with
        | none => s.abort
        | some s' =>
            ({ s'.setPc c .sent with
              inbox := s'.inbox ++ [⟨idTo, rec.origReq, false⟩] },
              [.send c code])

/-- The lock section at `err_send_req`. -/
def proxyError (c : UInt32) (r : RecordRef) (code : Int) :
    Calls × List CallEvent :=
  match s.record r with
  | none => s.abort
  | some rec =>
      match s.pendTable.erase rec.uuid r with
      | none => s.abort
      | some pend =>
          let ready := (s.readyTable.insert rec.uuid r).getD s.readyTable
          (((s.setTables pend ready).setRecord r
            (some { rec with ret := code })).setPc c .wakeUp, [])

/-- The lock section of `eaf_message_internal_finalize`; without a record the
macro ends at once. -/
def finalizeLookup (c : UInt32) : Calls × List CallEvent :=
  match s.readyTable (s.unsafe0 c) with
  | none =>
      (s.setPc c .idle, [.finalize c Errno.notfound none,
        .finish c Errno.notfound])
  | some r =>
      match s.readyTable.erase (s.unsafe0 c) r with
      | none => s.abort
      | some ready =>
          ((s.setTables s.pendTable ready).setPc c (.found r), [])

/-- The rest of `eaf_message_internal_finalize`. -/
def finalizeRecord (c : UInt32) (r : RecordRef) : Calls × List CallEvent :=
  match s.record r with
  | none => s.abort
  | some rec =>
      match s.decRef rec.origReq with
      | none => s.abort
      | some s' =>
          ((s'.setRecord r none).setPc c (.deserialize rec.origRsp),
            [.releaseReq c rec.origReq, .freeRecord c,
              .finalize c Errno.success rec.origRsp])

/-- The last line of the macro. -/
def releaseRsp (c : UInt32) (rsp : Option MsgRef) : Calls × List CallEvent :=
  match rsp.bind s.decRef with
  | none => ({ s with aborted := true }, [.releaseRsp c rsp, .abort])
  | some s' =>
      (s'.setPc c .idle, [.releaseRsp c rsp, .finish c Errno.success])

/-- The steps of a caller that nothing else has a say in. -/
def callerStep (c : UInt32) : Option (Calls × List CallEvent) :=
  match s.pc c with
  | .yielding req =>
      some ((s.setState c .yield).setPc c (.proxy req), [])
  | .insert idTo r => some (s.proxyInsert c idTo r)
  | .errSendReq r code => some (s.proxyError c r code)
  | .wakeUp =>
      let (s', code) := s.eafResume c
      some (s'.setPc c .waiting, [.resume c code])
  | .sent => some (s.setPc c .waiting, [])
  | .waiting =>
      if s.state c = .busy then some (s.setPc c .finalize, []) else none
  | .finalize => some (s.finalizeLookup c)
  | .found r => some (s.finalizeRecord c r)
  | .deserialize rsp => some (s.setPc c (.release rsp), [.deserialize c rsp])
  | .release rsp => some (s.releaseRsp c rsp)
  | .idle | .proxy _ | .send _ _ => none

/-! ## The receiver -/

/-- A response is made at `a` for a request, and sent to the message
service. -/
def respond (i : Nat) (a : MsgRef) (size : Nat) :
    Option (Calls × List CallEvent) :=
  match s.inbox[i]? with
  | none => none
  | some e =>
      match s.msg e.req with
      | none => some s.abort
      | some x =>
          some ({ s.setMsg a (some (msgCreateRsp x size)) with
            inbox := s.inbox.set i { e with answered := true }
            queue := s.queue ++ [a] }, [])

/-- The receiver gives up its reference to a request. -/
def forget (i : Nat) : Option (Calls × List CallEvent) :=
  match s.inbox[i]? with
  | none => none
  | some e =>
      match s.decRef e.req with
      | none => some s.abort
      | some s' => some ({ s' with inbox := s'.inbox.eraseIdx i }, [])

/-! ## The message service -/

/-- The lock section of `eaf_message_internal_response_handler`. -/
def handlerStore (m : MsgRef) : Calls × List CallEvent :=
  match s.msg m with
  | none => s.abort
  | some x =>
      match s.pendTable x.uuid with
      | none => s.abort
      | some r =>
          match s.pendTable.erase x.uuid r with
          | none => s.abort
          | some pend =>
              match s.readyTable.insert x.uuid r with
              | none => s.abort
              | some ready =>
                  match s.record r with
                  | none => s.abort
                  | some rec =>
                      ({ (s.setTables pend ready).setRecord r
                          (some { rec with origRsp := some m }) with
                        handler := .resume m rec.origFrom },
                        [.store x.uuid m])

/-- The call of `eaf_resume` in the handler, and the assertion behind it. -/
def handlerResume (m : MsgRef) (origFrom : UInt32) :
    Calls × List CallEvent :=
  let (s', code) := s.eafResume origFrom
  if code = Errno.success then
    ({ s' with handler := .leave m }, [.resume origFrom code])
  else
    ({ s' with aborted := true }, [.resume origFrom code, .abort])

/-- A step of the message service. -/
def handlerStep : Option (Calls × List CallEvent) :=
  match s.handler with
  | .idle =>
      match s.queue with
      | [] => none
      | m :: rest => some ({ s with queue := rest, handler := .entered m }, [])
  | .entered m =>
      match s.addRef m with
      | none => some s.abort
      | some s' => some ({ s' with handler := .counted m }, [])
  | .counted m => some (s.handlerStore m)
  | .resume m origFrom => some (s.handlerResume m origFrom)
  | .leave m =>
      match s.decRef m with
      | none => some s.abort
      | some s' => some ({ s' with handler := .idle }, [])

end Calls

/-! ## Runs -/

/-- What may happen next. -/
inductive CallAct
  /-- a call begins, with its request at `a` -/
  | begin (c : UInt32) (a : MsgRef) (dst msgId : UInt32) (size : Nat)
  /-- there is no memory for a request -/
  | noMemory (c : UInt32)
  /-- the proxy begins, with its record at `r` -/
  | proxy (c : UInt32) (r : RecordRef)
  /-- `eaf_send_req` returns -/
  | send (c : UInt32) (code : Int)
  | caller (c : UInt32)
  | respond (i : Nat) (a : MsgRef) (size : Nat)
  | forget (i : Nat)
  | handler
  /-- a service that makes no call does something else -/
  | elsewhere (c : UInt32) (state : ServiceState)
  /-- somebody else calls `eaf_resume` -/
  | resumeOther (c : UInt32)
  deriving DecidableEq, Repr

/-- A step of the system. -/
def callsNext (s : Calls) : CallAct → Option (Calls × List CallEvent)
  | .begin c a dst msgId size =>
      match s.pc c, s.state c with
      | .idle, .busy =>
          some (((s.setWord c (setW1 (s.unsafe0 c) dst)).setMsg a
            (some (msgCreateReq a msgId size responseHandler))).setPc c
              (.yielding a), [.begin c a])
      | _, _ => none
  | .noMemory c =>
      match s.pc c with
      | .idle => some (s, [.noMemory c])
      | _ => none
  | .proxy c r =>
      match s.pc c with
      | .proxy req => some (s.proxyStart c req r)
      | _ => none
  | .send c code =>
      match s.pc c with
      | .send idTo r => some (s.proxySend c idTo r code)
      | _ => none
  | .caller c => s.callerStep c
  | .respond i a size => s.respond i a size
  | .forget i => s.forget i
  | .handler => s.handlerStep
  | .elsewhere c state =>
      match s.pc c with
      | .idle => some (s.setState c state, [])
      | _ => none
  | .resumeOther c => some ((s.eafResume c).1, [.resumeOther c])

/-- Memory is allocated where it is free. -/
def CallAct.possible (s : Calls) : CallAct → Prop
  | .begin _ a _ _ _ => s.msg a = none
  | .proxy _ r => s.record r = none
  | .respond _ a _ => s.msg a = none
  | _ => True

instance (s : Calls) : ∀ a : CallAct, Decidable (a.possible s)
  | .begin _ a _ _ _ => inferInstanceAs (Decidable (s.msg a = none))
  | .proxy _ r => inferInstanceAs (Decidable (s.record r = none))
  | .respond _ a _ => inferInstanceAs (Decidable (s.msg a = none))
  | .noMemory _ | .send _ _ | .caller _ | .forget _ | .handler
  | .elsewhere _ _ | .resumeOther _ => inferInstanceAs (Decidable True)

/-- Every send succeeds, a request is answered at most once, and nobody else
resumes a caller. -/
def CallAct.undisturbed (s : Calls) : CallAct → Prop
  | .send _ code => 0 ≤ code
  | .respond i _ _ => ∀ e ∈ s.inbox[i]?, e.answered = false
  | .resumeOther _ => False
  | _ => True

instance (s : Calls) : ∀ a : CallAct, Decidable (a.undisturbed s)
  | .send _ code => inferInstanceAs (Decidable (0 ≤ code))
  | .respond i _ _ => inferInstanceAs
      (Decidable (∀ e ∈ s.inbox[i]?, e.answered = false))
  | .resumeOther _ => inferInstanceAs (Decidable False)
  | .begin _ _ _ _ _ | .noMemory _ | .proxy _ _ | .caller _
  | .forget _ | .handler | .elsewhere _ _ => inferInstanceAs (Decidable True)

/-- A step that the process can take. -/
def CallAct.ok (s : Calls) (a : CallAct) : Prop :=
  s.aborted = false ∧ a.possible s

instance (s : Calls) (a : CallAct) : Decidable (a.ok s) :=
  inferInstanceAs (Decidable (s.aborted = false ∧ a.possible s))

/-- Runs of a process with any number of callers. -/
abbrev CallsRun (tr : List CallEvent) (s : Calls) : Prop :=
  LabelledRun.Run (LabelledRun.Guarded callsNext fun s a => a.ok s)
    Calls.init tr s

/-- Runs in which every send succeeds, a request is answered at most once, and
nobody else resumes a caller. -/
abbrev UndisturbedRun (tr : List CallEvent) (s : Calls) : Prop :=
  LabelledRun.Run
    (LabelledRun.Guarded callsNext fun s a => a.ok s ∧ a.undisturbed s)
    Calls.init tr s

end Powerpack
end Eaf
