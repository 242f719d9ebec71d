import Eaf.Foundation.LabelledRun
import Eaf.Core.ApiCall

/-!
# The running system

The state behind `g_eaf_ctx`, the message heap, and the calls that all threads
have in progress.  `step` lets one thread make its next step: a group worker,
a thread inside an API call, a thread that enters the API, or user code that
works on messages it holds.  A run of the system is a run of this step
function under an arbitrary schedule, so it contains every interleaving.

The system starts where a successful `eaf_init` leaves it, with the entry
points of the layout registered, and ends with `eaf_cleanup`.
-/

namespace Eaf
namespace Core

/-- `eaf_cleanup_summary_t`; `byUser` is `executor == eaf_exit_executor_user`. -/
structure Summary where
  byUser : Bool
  reason : Int
  deriving DecidableEq, Repr

/-- `eaf_ctx_t`, the heap of messages and the state of the threads. -/
structure Sys where
  /-- `g_eaf_ctx != NULL` -/
  live : Bool
  /-- `state` -/
  ctx : CtxState
  ready : Nat
  /-- `mask.failure` -/
  failure : Bool
  summary : Summary
  group : Nat → Group
  call : Tid → Call
  /-- the live messages -/
  msg : MsgRef → Option Msg
  /-- the references held by user code that is not inside a send -/
  owned : MsgRef → Nat
  /-- where the next message is allocated -/
  nextMsg : MsgRef
  /-- where the next record is allocated -/
  nextRec : Nat

/-- The system after `eaf_init` and the registrations. -/
def Sys.initial (L : Layout) : Sys where
  live := true
  ctx := .init
  ready := 0
  failure := false
  summary := ⟨false, 0⟩
  group g := .initial (L.conf g)
  call _ := .idle
  msg _ := none
  owned _ := 0
  nextMsg := 0
  nextRec := 0

/-- The observable events of the system. -/
inductive Event
  | group (g : Nat) (e : GroupEvent)
  /-- a thread enters an API function -/
  | enter (t : Tid) (q : Request)
  /-- an API function returns -/
  | ret (t : Tid) (api : Api) (code : Int)
  deriving DecidableEq, Repr

namespace Sys

@[simps -fullyApplied]
def setGroup (s : Sys) (g : Nat) (G : Group) : Sys :=
  { s with group := Function.update s.group g G }

@[simps -fullyApplied]
def setCall (s : Sys) (t : Tid) (c : Call) : Sys :=
  { s with call := Function.update s.call t c }

/-! ## The message heap -/

/-- A newly created message; its creator gets the first reference. -/
@[simps -fullyApplied]
def alloc (s : Sys) (m : Msg) : Sys :=
  { s with
    msg := Function.update s.msg s.nextMsg (some m)
    nextMsg := s.nextMsg + 1 }

/-- `eaf_msg_add_ref` -/
@[simps -fullyApplied]
def addRef (s : Sys) (m : MsgRef) : Sys :=
  { s with
    msg := Function.update s.msg m
      ((s.msg m).map fun x => { x with refcnt := x.refcnt + 1 }) }

/-- The message after `--refcnt`, destroyed when that makes it zero. -/
def decremented (x : Msg) : Option Msg :=
  if x.refcnt - 1 = 0 then none else some { x with refcnt := x.refcnt - 1 }

/-- `eaf_msg_dec_ref` -/
@[simps -fullyApplied]
def decRef (s : Sys) (m : MsgRef) : Sys :=
  { s with msg := Function.update s.msg m ((s.msg m).bind decremented) }

/-- User code gains a reference. -/
@[simps -fullyApplied]
def own (s : Sys) (m : MsgRef) : Sys :=
  { s with owned := Function.update s.owned m (s.owned m + 1) }

/-- User code gives a reference away. -/
@[simps -fullyApplied]
def disown (s : Sys) (m : MsgRef) : Sys :=
  { s with owned := Function.update s.owned m (s.owned m - 1) }

/-- A message is changed in place. -/
@[simps -fullyApplied]
def edit (s : Sys) (m : MsgRef) (f : Msg → Msg) : Sys :=
  { s with msg := Function.update s.msg m ((s.msg m).map f) }

/-- The message of a request, as the teardown code turns it into an answer:
`eaf_msg_create_rsp` and `eaf_msg_set_receipt`. -/
def answerTo (s : Sys) (m : MsgRef) : Msg :=
  match s.msg m with
  | none => ⟨0, 0, 0, 0, 0, 1, 0⟩
  | some req => msgSetReceipt (msgCreateRsp req 0) Errno.state

/-! ## Worker steps -/

/-- What the worker of group `g` sees of the rest of the system. -/
def env (s : Sys) (g : Nat) : Env where
  ctx := s.ctx
  msg := s.msg
  nextMsg := s.nextMsg
  inCall := !(s.call (.worker g)).free
  callRet :=
    match s.call (.worker g) with
    | .done code => some code
    | _ => none

/-- What an event of group `g` does outside the group: posting `ready`,
destroying records, and answering requests during teardown through a call of
`eaf_send_rsp` on the worker's own thread. -/
def emit (L : Layout) (g : Nat) (s : Sys) : GroupEvent → Sys
  | .ready => { s with ready := s.ready + 1 }
  | .failure => { s with failure := true }
  | .release _ r | .purge _ r => s.decRef r.msg
  | .answer i r rsp =>
      (s.alloc (s.answerTo r.msg)).setCall (.worker g)
        (.sendTest ⟨.rsp, ((L.conf g).row i).srvId, r.src, rsp, true⟩)
  | .answered _ _ rsp _ => (s.decRef rsp).setCall (.worker g) .idle
  | _ => s

/-- The effects of several events, in order. -/
def emitAll (L : Layout) (g : Nat) (s : Sys) (events : List GroupEvent) : Sys :=
  events.foldl (emit L g) s

/-- The worker of group `g` makes a step. -/
def workerStep (L : Layout) (s : Sys) (g : Nat) (o : Outcome) :
    Option (Sys × List Event) :=
  if g < L.size then
    match Core.workerStep (L.conf g) (s.env g) (s.group g) o with
    | none => none
    | some (G, events) =>
        some ((s.setGroup g G).emitAll L g events, events.map (.group g))
  else none

/-! ## Call steps -/

/-- The caller gets the reference back that the send was using. -/
def takeBack (s : Sys) (a : SendArgs) : Sys :=
  if a.loan then s else s.own a.msg

/-- The send returns. -/
def sendReturn (s : Sys) (t : Tid) (a : SendArgs) (code : Int) :
    Option (Sys × List Event) :=
  some ((s.takeBack a).setCall t (.done code), [.ret t a.kind.api code])

/-- `req->from = from`, which only `_eaf_send_req` does. -/
def stampSender (s : Sys) (a : SendArgs) : Sys :=
  match a.kind with
  | .req =>
      { s with
        msg := Function.update s.msg a.msg
          ((s.msg a.msg).map fun x => { x with sender := a.src }) }
  | .rsp => s

/-- The handler the send stores in the record: `_eaf_send_req` looks it up,
`_eaf_send_rsp` stores none. -/
def sendHandler (L : Layout) (s : Sys) (a : SendArgs) (g i : Nat) :
    Option (Option Fn) :=
  match a.kind with
  | .rsp => some none
  | .req =>
      match s.msg a.msg with
      | none => none
      | some x => (findHandler ((L.conf g).row i).entry x.id).map some

/-- The next step of `eaf_send_req`, `eaf_send_rsp` and
`_eaf_service_push_msg`. -/
def sendStep (L : Layout) (s : Sys) (t : Tid) (o : Outcome) :
    Call → Option (Sys × List Event)
  | .sendTest a =>
      if s.live ∧ s.ctx = .busy then some (s.setCall t (.sendHook a), [])
      else s.sendReturn t a Errno.state
  | .sendHook a =>
      if o.ret < 0 then s.sendReturn t a o.ret
      else some (s.setCall t (.sendFind a), [])
  | .sendFind a =>
      match findService L a.dst with
      | none =>
          some ((s.stampSender a).setCall t (.sendAfter a Errno.notfound), [])
      | some (g, i) =>
          match s.sendHandler L a g i with
          | none =>
              some ((s.stampSender a).setCall t
                (.sendAfter a Errno.notfound), [])
          | some fn =>
              some ((s.stampSender a).setCall t (.pushTest a g i fn), [])
  | .pushTest a g i fn =>
      if a.kind = .req ∧
          ((L.conf g).row i).msgqSize.toNat ≤
            ((s.group g).table i).queue.length then
        some (s.setCall t (.sendAfter a Errno.overflow), [])
      else some (s.setCall t (.pushAlloc a g i fn), [])
  | .pushAlloc a g i fn =>
      if o.ok then
        some (({ s with nextRec := s.nextRec + 1 }.addRef a.msg).setCall t
          (.pushLock a g i ⟨s.nextRec, fn, a.src, a.dst, a.msg⟩), [])
      else some (s.setCall t (.sendAfter a Errno.memory), [])
  | .pushLock a g i r =>
      match (s.group g).pushMsg i r with
      | none => some (s.setCall t (.pushRevert a r), [])
      | some G =>
          some ((s.setGroup g G).setCall t (.pushPost a g),
            [.group g (.push i r ((s.group g).table i).state)])
  | .pushRevert a _ =>
      some ((s.decRef a.msg).setCall t (.sendAfter a Errno.state), [])
  | .pushPost a g =>
      some ((s.setGroup g (s.group g).semPost).setCall t
        (.sendAfter a Errno.success), [])
  | .sendAfter a code => s.sendReturn t a code
  | _ => none

/-- The next step of `eaf_resume`. -/
def resumeStep (L : Layout) (s : Sys) (t : Tid) :
    Call → Option (Sys × List Event)
  | .resumeFind id =>
      match findService L id with
      | none =>
          some (s.setCall t (.done Errno.notfound),
            [.ret t .resume Errno.notfound])
      | some (g, i) => some (s.setCall t (.resumeLock g i), [])
  | .resumeLock g i =>
      match (s.group g).resumeService i with
      | none =>
          some (s.setCall t (.done Errno.state), [.ret t .resume Errno.state])
      | some G =>
          some ((s.setGroup g G).setCall t (.resumePost g),
            [.group g (.resume i ((s.group g).table i).curMsg)])
  | .resumePost g =>
      some ((s.setGroup g (s.group g).semPost).setCall t
        (.done Errno.success), [.ret t .resume Errno.success])
  | _ => none

/-- `eaf_teardown` or `eaf_exit`. -/
def exitApi (td : Bool) : Api := if td then .teardown else .exit

/-- The state `_eaf_exit` stores, which is also the one its callers refuse to
run in. -/
def exitState (td : Bool) : CtxState := if td then .teardown else .exit

/-- The next step of `eaf_teardown`, `eaf_exit` and `_eaf_exit`. -/
def exitStep (L : Layout) (s : Sys) (t : Tid) :
    Call → Option (Sys × List Event)
  | .exitTest td reason =>
      if s.live ∧ s.ctx ≠ exitState td then
        some (s.setCall t (.exitHook td reason), [])
      else
        some (s.setCall t (.done Errno.state), [.ret t (exitApi td) Errno.state])
  | .exitHook td reason => some (s.setCall t (.exitWrite td reason), [])
  | .exitWrite td reason =>
      some ({ s with
        summary := if td then s.summary else ⟨true, reason⟩
        ctx := exitState td }.setCall t (.exitPost td 0), [])
  | .exitPost td k =>
      if k < L.size then
        some ((s.setGroup k (s.group k).semPost).setCall t
          (.exitPost td (k + 1)), [])
      else
        some (s.setCall t (.done Errno.success),
          [.ret t (exitApi td) Errno.success])
  | _ => none

/-- The next step of `eaf_load`. -/
def loadStep (L : Layout) (s : Sys) (t : Tid) :
    Call → Option (Sys × List Event)
  | .loadTest =>
      if s.live ∧ s.ctx = .init then some (s.setCall t .loadHook, [])
      else some (s.setCall t (.done Errno.state), [.ret t .load Errno.state])
  | .loadHook => some (s.setCall t (.loadFix 0), [])
  | .loadFix k =>
      if k < L.size then
        some ((s.setGroup k ((s.group k).loadFixState (L.conf k))).setCall t
          (.loadFix (k + 1)), [])
      else some (s.setCall t .loadWrite, [])
  | .loadWrite => some ({ s with ctx := .busy }.setCall t (.loadPost 0), [])
  | .loadPost k =>
      if k < L.size then
        some ((s.setGroup k (s.group k).semPost).setCall t
          (.loadPost (k + 1)), [])
      else some (s.setCall t (.loadPend 0), [])
  | .loadPend k =>
      if k < L.size then
        if s.ready = 0 then none
        else some ({ s with ready := s.ready - 1 }.setCall t
          (.loadPend (k + 1)), [])
      else
        some (s.setCall t
          (.loadAfter (if s.failure then Errno.state else Errno.success)), [])
  | .loadAfter code => some (s.setCall t (.done code), [.ret t .load code])
  | _ => none

/-- `_eaf_cleanup_msgq`: destroy the first queued record. -/
def purgeQueued (s : Sys) (L : Layout) (k i : Nat) (r : MsgqRecord)
    (rest : List MsgqRecord) : Sys × List Event :=
  ((s.setGroup k ((s.group k).setService i
      { (s.group k).table i with queue := rest })).emit L k (.purge i r),
    [.group k (.purge i r)])

/-- `_eaf_cleanup_msgq`: destroy the current record. -/
def purgeCurrent (s : Sys) (L : Layout) (k i : Nat) (r : MsgqRecord) :
    Sys × List Event :=
  ((s.setGroup k ((s.group k).setService i
      { (s.group k).table i with curMsg := none })).emit L k (.release i r),
    [.group k (.cancel i r), .group k (.release i r)])

/-- The next step of `eaf_cleanup`. -/
def cleanStep (L : Layout) (s : Sys) (t : Tid) :
    Call → Option (Sys × List Event)
  | .cleanTest =>
      if s.live then some (s.setCall t (.cleanJoin 0), [])
      else some (s.setCall t (.done Errno.state), [.ret t .cleanup Errno.state])
  | .cleanJoin k =>
      if k < L.size then
        match (s.group k).worker with
        | .returned _ => some (s.setCall t (.cleanMsgq k 0), [])
        | _ => none
      else some (s.setCall t .cleanFree, [])
  | .cleanMsgq k i =>
      if i < (L.conf k).size then
        match ((s.group k).table i).queue with
        | r :: rest => some (s.purgeQueued L k i r rest)
        | [] =>
            match ((s.group k).table i).curMsg with
            | some r => some (s.purgeCurrent L k i r)
            | none => some (s.setCall t (.cleanMsgq k (i + 1)), [])
      else some (s.setCall t (.cleanJoin (k + 1)), [])
  | .cleanFree =>
      some ({ s with live := false }.setCall t (.done Errno.success),
        [.ret t .cleanup Errno.success])
  | _ => none

/-- The guard of `eaf_init`.  When no context exists the call starts the next
life of the system, which is another run. -/
def initStep (s : Sys) (t : Tid) : Option (Sys × List Event) :=
  if s.live then
    some (s.setCall t (.done Errno.duplicate),
      [.ret t .init Errno.duplicate])
  else none

/-- The thread `t` makes the next step of the API call it is in.  Apart from
the guards, every step of a call uses the context. -/
def callStep (L : Layout) (s : Sys) (t : Tid) (o : Outcome) :
    Option (Sys × List Event) :=
  if s.live ∨ (s.call t).atGuard then
    match s.call t with
    | .idle | .done _ => none
    | .sendTest _ | .sendHook _ | .sendFind _ | .pushTest _ _ _ _
    | .pushAlloc _ _ _ _ | .pushLock _ _ _ _ | .pushRevert _ _
    | .pushPost _ _ | .sendAfter _ _ => s.sendStep L t o (s.call t)
    | .resumeFind _ | .resumeLock _ _ | .resumePost _ =>
        s.resumeStep L t (s.call t)
    | .exitTest _ _ | .exitHook _ _ | .exitWrite _ _ | .exitPost _ _ =>
        s.exitStep L t (s.call t)
    | .loadTest | .loadHook | .loadFix _ | .loadWrite | .loadPost _
    | .loadPend _ | .loadAfter _ => s.loadStep L t (s.call t)
    | .cleanTest | .cleanJoin _ | .cleanMsgq _ _ | .cleanFree =>
        s.cleanStep L t (s.call t)
    | .initTest => s.initStep t
  else none

/-! ## Steps of user code -/

/-- The thread exists and may make a call now: it is outside the API, and a
worker thread is inside a callback. -/
def mayEnter (L : Layout) (s : Sys) : Tid → Bool
  | .client t => decide (t < L.clients) && (s.call (.client t)).free
  | .worker g =>
      decide (g < L.size) && (s.group g).worker.inCallback &&
        (s.call (.worker g)).free

/-- The thread may use the message: user code holds a reference to it, which
the send keeps until it returns, or the message is the one the calling handler
was entered with. -/
def maySend (s : Sys) (t : Tid) (a : SendArgs) : Bool :=
  if a.loan then
    match t with
    | .worker g => (s.group g).current? == some a.msg
    | .client _ => false
  else decide (0 < s.owned a.msg)

/-- The caller lends the send a reference of its own. -/
def handOver (s : Sys) (a : SendArgs) : Sys :=
  if a.loan then s else s.disown a.msg

/-- A thread enters an API function. -/
def enterStep (L : Layout) (s : Sys) (t : Tid) (q : Request) :
    Option (Sys × List Event) :=
  if s.mayEnter L t then
    match q with
    | .send a =>
        if s.maySend t a then
          some ((s.handOver a).setCall t q.start, [.enter t q])
        else none
    | _ => some (s.setCall t q.start, [.enter t q])
  else none

/-- How user code comes to know a message: it holds a reference, the running
callback of group `g` was handed the message, or a hook of the send in progress
on thread `t` is being shown it. -/
inductive Via
  | owner
  | current (g : Nat)
  | hook (t : Tid)
  deriving DecidableEq, Repr

/-- The message can be used by user code. -/
def accessible (L : Layout) (s : Sys) (m : MsgRef) : Via → Bool
  | .owner => decide (0 < s.owned m)
  | .current g => decide (g < L.size) && (s.group g).current? == some m
  | .hook (.client t) =>
      decide (t < L.clients) && (s.call (.client t)).hooked? == some m
  | .hook (.worker g) =>
      decide (g < L.size) && (s.call (.worker g)).hooked? == some m

/-- What user code does with messages. -/
inductive MsgOp
  | createReq (id : UInt32) (size : Nat) (rspFn : Fn)
  | createRsp (req : MsgRef) (via : Via) (size : Nat)
  | addRef (m : MsgRef) (via : Via)
  | decRef (m : MsgRef)
  | setReceipt (m : MsgRef) (via : Via) (receipt : Int)
  | setToken (m : MsgRef) (via : Via) (token : Int)
  | setRspFn (m : MsgRef) (via : Via) (fn : Fn)
  deriving DecidableEq, Repr

/-- User code creates a message, or changes one. -/
def msgStep (L : Layout) (s : Sys) : MsgOp → Option (Sys × List Event)
  | .createReq id size rspFn =>
      some ((s.alloc (msgCreateReq s.nextMsg id size rspFn)).own s.nextMsg, [])
  | .createRsp m via size =>
      if s.accessible L m via then
        match s.msg m with
        | none => none
        | some req => some ((s.alloc (msgCreateRsp req size)).own s.nextMsg, [])
      else none
  | .addRef m via =>
      if s.accessible L m via then some ((s.addRef m).own m, []) else none
  | .decRef m =>
      if 0 < s.owned m then some ((s.decRef m).disown m, []) else none
  | .setReceipt m via receipt =>
      if s.accessible L m via then
        some (s.edit m (msgSetReceipt · receipt), [])
      else none
  | .setToken m via token =>
      if s.accessible L m via then some (s.edit m (msgSetToken · token), [])
      else none
  | .setRspFn m via fn =>
      if s.accessible L m via then some (s.edit m (msgSetRspFn · fn), [])
      else none

end Sys

/-! ## The system -/

/-- One thread makes one step. -/
inductive Act
  | worker (g : Nat) (o : Outcome)
  | call (t : Tid) (o : Outcome)
  | enter (t : Tid) (q : Request)
  | user (op : Sys.MsgOp)
  deriving DecidableEq, Repr

/-- The step function of the system. -/
def step (L : Layout) (s : Sys) : Act → Option (Sys × List Event)
  | .worker g o => s.workerStep L g o
  | .call t o => s.callStep L t o
  | .enter t q => s.enterStep L t q
  | .user op => s.msgStep L op

/-- Runs of the system whose steps satisfy `ok`. -/
abbrev Trace (L : Layout) (ok : Sys → Act → Prop) (tr : List Event) (s : Sys) :
    Prop :=
  LabelledRun.Run (LabelledRun.Guarded (step L) ok) (Sys.initial L) tr s

/-! ## Schedules -/

/-- The threads of the process. -/
def Layout.threads (L : Layout) : List Tid :=
  (List.range L.clients).map .client ++ (List.range L.size).map .worker

/-- `eaf_load` and `eaf_cleanup` do not overlap with another call of one of
them. -/
def serial (L : Layout) (s : Sys) : Act → Prop
  | .enter _ .load | .enter _ .cleanup =>
      ∀ t ∈ L.threads, (s.call t).ofMain = false
  | _ => True

instance (L : Layout) (s : Sys) (a : Act) : Decidable (serial L s a) := by
  unfold serial
  split <;> infer_instance

/-- `n` steps of the worker of group `g`, with plain outcomes. -/
def workerSteps (g n : Nat) : List Act :=
  List.replicate n (.worker g .plain)

/-- `n` steps of the call that client `t` is in, with plain outcomes. -/
def clientSteps (t n : Nat) : List Act :=
  List.replicate n (.call (.client t) .plain)

/-- A schedule that can be executed, and leads to a state that passes a check,
is a run to such a state. -/
theorem exists_trace (L : Layout) (ok : Sys → Act → Prop)
    [∀ s a, Decidable (ok s a)] (actions : List Act)
    (check : Sys × List Event → Bool)
    (h : (LabelledRun.replay (step L) ok (Sys.initial L) actions).any check =
      true) : ∃ tr s, Trace L ok tr s ∧ check (s, tr) = true := by
  obtain ⟨s, tr, hrun, hcheck⟩ := LabelledRun.exists_run_of_replay h
  exact ⟨tr, s, hrun, hcheck⟩

end Core
end Eaf
