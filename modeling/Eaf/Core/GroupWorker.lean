import Mathlib.Tactic.Cases
import Eaf.Core.ServiceGroup

/-!
# The group worker

`_eaf_thread` and everything it calls, as a program with one step per access
to data that other threads can change.  A locked section is one step; reads
and writes of data only this thread uses are joined to the step before or
after them.  User callbacks are program points at which the worker stays
until the callback returns: what a callback does through the API is done by
the calls that the worker's thread makes meanwhile.

`workerStep` is the program.  `WorkerTrans` lists its transitions one by one,
and `workerStep_trans` shows that the list is complete; every invariant of a
worker is proved by cases on that list.
-/

namespace Eaf
namespace Core

/-- What a step of a group lets the outside see. -/
inductive GroupEvent
  /-- a record was accepted while the service was in state `st` -/
  | push (i : Nat) (r : MsgqRecord) (st : ServiceState)
  /-- `eaf_resume` woke the service, whose current record is `r` -/
  | resume (i : Nat) (r : Option MsgqRecord)
  /-- the event loop popped a record -/
  | take (i : Nat) (r : MsgqRecord)
  /-- `on_message_handle_before` refused it -/
  | drop (i : Nat) (r : MsgqRecord)
  /-- the handler `fn` is entered for the first time -/
  | start (i : Nat) (r : MsgqRecord) (fn : Option Fn)
  /-- the handler `fn` is entered again after a yield -/
  | reenter (i : Nat) (r : MsgqRecord) (fn : Option Fn)
  /-- the handler yielded and the service waits for `eaf_resume` -/
  | suspend (i : Nat) (r : MsgqRecord)
  /-- the handler is done -/
  | finish (i : Nat) (r : MsgqRecord)
  /-- the record was destroyed -/
  | release (i : Nat) (r : MsgqRecord)
  /-- shutdown takes up the current record -/
  | cancel (i : Nat) (r : MsgqRecord)
  /-- teardown popped a record -/
  | flush (i : Nat) (r : MsgqRecord)
  /-- cleanup popped and destroyed a record -/
  | purge (i : Nat) (r : MsgqRecord)
  | initStart (i : Nat)
  | initDone (i : Nat)
  | exitStart (i : Nat)
  | exitDone (i : Nat)
  /-- teardown created `rsp` to answer the request of `r` -/
  | answer (i : Nat) (r : MsgqRecord) (rsp : MsgRef)
  /-- `eaf_send_rsp` returned `code` for it, and the worker dropped `rsp` -/
  | answered (i : Nat) (r : MsgqRecord) (rsp : MsgRef) (code : Int)
  /-- the worker posted `ready` -/
  | ready
  /-- the worker set the failure flag -/
  | failure
  deriving DecidableEq, Repr

/-- What a worker reads outside its group: the context state, the messages,
the address the next allocation returns, and how the API call its own thread
is in stands (`inCall`, and the result once it has returned). -/
structure Env where
  ctx : CtxState
  msg : MsgRef → Option Msg
  nextMsg : MsgRef
  inCall : Bool
  callRet : Option Int

/-- How the parts that the program does not determine turn out: whether an
allocation or the thread storage call succeeds, what a hook returns, and
whether a handler activation ends with a yield and at which branch. -/
structure Outcome where
  ok : Bool
  ret : Int
  yield : Bool
  branch : Nat
  deriving DecidableEq, Repr

/-- Everything succeeds, hooks return zero, handlers finish. -/
def Outcome.plain : Outcome := ⟨true, 0, false, 0⟩

/-- The function `_eaf_service_resume_message` calls for a record: the stored
handler of a request, the response function of a response if it has one.
`none` when the source would follow a pointer that was never stored. -/
def handlerOf (msg : MsgRef → Option Msg) (r : MsgqRecord) :
    Option (Option Fn) :=
  match msg r.msg with
  | none => none
  | some m =>
      match msgGetType m with
      | .req => r.reqFn.map some
      | .rsp => some (msgGetRspFn m)

/-- The program point after a handler was called, or was found to be null. -/
def handlerPc (ph : Phase) (i : Nat) : Option Fn → Pc
  | some _ => .inHandler ph i
  | none => .handled ph i

/-- Where the caller of `_eaf_do_service_init` goes on. -/
def afterInit (idx : Nat) : InitCaller → Pc
  | .scan counter => .initScan (idx + 1) (counter + 1)
  | .loop ph => .dispatch ph idx

/-- One step of the worker of a group.  `none` means that the worker cannot
move: it waits, or an assertion failed, or it has returned. -/
def workerStep (c : GroupTable) (e : Env) (G : Group) (o : Outcome) :
    Option (Group × List GroupEvent) :=
  match G.worker with
  | .enter =>
      some (G.goto (if o.ok then .startTest else .returned .storage), [])
  | .startTest =>
      some (G.goto (if e.ctx = .init then .startPend else .startCheck), [])
  | .startPend =>
      if G.sem = 0 then none
      else some ({ G with sem := G.sem - 1, worker := .startTest }, [])
  | .startCheck =>
      some (G.goto (if e.ctx = .busy then .initScan 0 0
        else .returned .notBusy), [])
  | .initScan idx counter =>
      if idx < c.size then
        if (G.table idx).state = .init1 then
          some ({ G with
            curRun := some idx, cc0 := false,
            worker := .inInit idx (.scan counter) }, [.initStart idx])
        else
          some ({ G with
            curRun := some idx, worker := .initScan (idx + 1) counter }, [])
      else some (G.goto (.postReady counter), [])
  | .inInit idx caller =>
      -- `assert(0)` when the callback yielded
      if e.inCall ∨ o.yield then none
      else
        some (((G.setService idx { G.table idx with branch := 0
          }).finishServiceInit idx).goto (afterInit idx caller),
          [.initDone idx])
  | .postReady n =>
      some (G.goto (if n ≤ 0 then .returned .noService else .loopTest .busy),
        if n < 0 then [.ready, .failure] else [.ready])
  | .loopTest ph =>
      some (G.goto (if e.ctx = ph.ctx then .pickBusy ph
        else
          match ph with
          | .busy => .tdTest
          | .teardown => .exitScan c.size), [])
  | .pickBusy ph =>
      match G.firstBusy with
      | none => some (G.goto (.semPend ph), [])
      | some i => some (G.goto (.semTryPend ph i), [])
  | .semPend ph =>
      if G.sem = 0 then none
      else some ({ G with sem := G.sem - 1, worker := .loopTest ph }, [])
  | .semTryPend ph i =>
      some ({ G with
        sem := G.sem - 1, curRun := some i, cc0 := false,
        worker := .handle ph i }, [])
  | .handle ph i =>
      if (G.table i).state = .init1 then
        some ({ G with cc0 := false, worker := .inInit i (.loop ph) },
          [.initStart i])
      else some (G.goto (.dispatch ph i), [])
  | .dispatch ph i =>
      -- `assert(service->runtime.local.state == eaf_service_state_busy)`
      if (G.table i).state ≠ .busy then none
      else
        match (G.table i).curMsg with
        | none => some (G.goto (.popMsg ph i), [])
        | some r =>
            match handlerOf e.msg r with
            | none => none
            | some fn => some (G.goto (handlerPc ph i fn), [.reenter i r fn])
  | .popMsg ph i =>
      match (G.table i).queue with
      | [] => some ((G.setState i .idle).goto (.loopTest ph), [])
      | r :: rest =>
          some ((G.setService i
            { G.table i with curMsg := some r, queue := rest }).goto
              (.hookBefore ph i), [.take i r])
  | .hookBefore ph i =>
      match (G.table i).curMsg with
      | none => none
      | some r =>
          if e.inCall then none
          else if o.ret < 0 then some (G.goto (.resetMsg ph i), [.drop i r])
          else
            match handlerOf e.msg r with
            | none => none
            | some fn => some (G.goto (handlerPc ph i fn), [.start i r fn])
  | .inHandler ph i =>
      if e.inCall then none
      else
        some ({ G.setService i { G.table i with
            branch := if o.yield then o.branch else (G.table i).branch } with
          cc0 := o.yield, worker := .handled ph i }, [])
  | .handled ph i =>
      match (G.table i).curMsg with
      | none => none
      | some r =>
          if G.cc0 then
            some ((G.setState i .yield).goto (.hookYield ph i), [.suspend i r])
          else some (G.goto (.hookAfter ph i), [.finish i r])
  | .hookYield ph _ =>
      if e.inCall then none else some (G.goto (.loopTest ph), [])
  | .hookAfter ph i =>
      if e.inCall then none else some (G.goto (.resetMsg ph i), [])
  | .resetMsg ph i =>
      match (G.table i).curMsg with
      | none => none
      | some r =>
          some ((G.setService i
            { G.table i with branch := 0, curMsg := none }).goto
              (.loopTest ph), [.release i r])
  | .tdTest =>
      some (G.goto (if e.ctx = .teardown then .tdScan 0
        else .loopTest .teardown), [])
  | .tdScan i =>
      if i < c.size then
        if (c.row i).alive ∨ ¬ c.Registered i then
          some (G.goto (.tdScan (i + 1)), [])
        else some ((G.setState i .exit0).goto (.tdInExit i), [.exitStart i])
      else some (G.goto (.loopTest .teardown), [])
  | .tdInExit i =>
      if e.inCall then none
      else
        match (G.table i).curMsg with
        | none => some (G.goto (.tdPop i), [.exitDone i])
        | some r =>
            some (G.goto (.tdMsg i r true), [.exitDone i, .cancel i r])
  | .tdMsg i r cur =>
      match e.msg r.msg with
      | none => none
      | some m =>
          match msgGetType m with
          | .req =>
              -- `assert(rsp != NULL)`
              if o.ok then
                some (G.goto (.tdSend i r e.nextMsg cur),
                  [.answer i r e.nextMsg])
              else none
          | .rsp => some (G.goto (.tdFree i r cur), [])
  | .tdSend i r rsp cur =>
      match e.callRet with
      | none => none
      | some code =>
          some (G.goto (.tdFree i r cur), [.answered i r rsp code])
  | .tdFree i r cur =>
      some ((if cur then G.setService i { G.table i with curMsg := none }
        else G).goto (.tdPop i), [.release i r])
  | .tdPop i =>
      match (G.table i).queue with
      | [] => some (G.goto (.tdExit1 i), [])
      | r :: rest =>
          some ((G.setService i { G.table i with queue := rest }).goto
            (.tdMsg i r false), [.flush i r])
  | .tdExit1 i =>
      some ((G.setState i .exit1).goto (.tdScan (i + 1)), [])
  | .exitScan 0 => some (G.goto (.returned .finished), [])
  | .exitScan (i + 1) =>
      if (G.table i).state = .exit1 ∨ ¬ c.Registered i then
        some (G.goto (.exitScan i), [])
      else
        some ({ G.setState i .exit0 with
          curRun := some i, worker := .exInExit i }, [.exitStart i])
  | .exInExit i =>
      if e.inCall then none
      else some ((G.setState i .exit1).goto (.exitScan i), [.exitDone i])
  | .returned _ => none

/-- The transitions of a worker. -/
inductive WorkerTrans (c : GroupTable) (e : Env) :
    Group → Outcome → Group → List GroupEvent → Prop
  | enterOk {G o} (h : G.worker = .enter) (hok : o.ok = true) :
      WorkerTrans c e G o (G.goto .startTest) []
  | enterFail {G o} (h : G.worker = .enter) (hok : o.ok = false) :
      WorkerTrans c e G o (G.goto (.returned .storage)) []
  | startWait {G o} (h : G.worker = .startTest) (hctx : e.ctx = .init) :
      WorkerTrans c e G o (G.goto .startPend) []
  | startGo {G o} (h : G.worker = .startTest) (hctx : e.ctx ≠ .init) :
      WorkerTrans c e G o (G.goto .startCheck) []
  | startWake {G o} (h : G.worker = .startPend) (hsem : 0 < G.sem) :
      WorkerTrans c e G o { G with sem := G.sem - 1, worker := .startTest } []
  | startBusy {G o} (h : G.worker = .startCheck) (hctx : e.ctx = .busy) :
      WorkerTrans c e G o (G.goto (.initScan 0 0)) []
  | startNotBusy {G o} (h : G.worker = .startCheck) (hctx : e.ctx ≠ .busy) :
      WorkerTrans c e G o (G.goto (.returned .notBusy)) []
  | scanInit {G o idx counter} (h : G.worker = .initScan idx counter)
      (hlt : idx < c.size) (hst : (G.table idx).state = .init1) :
      WorkerTrans c e G o { G with
        curRun := some idx, cc0 := false,
        worker := .inInit idx (.scan counter) } [.initStart idx]
  | scanSkip {G o idx counter} (h : G.worker = .initScan idx counter)
      (hlt : idx < c.size) (hst : (G.table idx).state ≠ .init1) :
      WorkerTrans c e G o { G with
        curRun := some idx, worker := .initScan (idx + 1) counter } []
  | scanEnd {G o idx counter} (h : G.worker = .initScan idx counter)
      (hge : c.size ≤ idx) : WorkerTrans c e G o (G.goto (.postReady counter)) []
  | initDone {G o idx caller} (h : G.worker = .inInit idx caller)
      (hcall : e.inCall = false) (hyield : o.yield = false) :
      WorkerTrans c e G o
        (((G.setService idx { G.table idx with branch := 0
          }).finishServiceInit idx).goto (afterInit idx caller))
        [.initDone idx]
  | readyNone {G o n} (h : G.worker = .postReady n) (hn : n ≤ 0) :
      WorkerTrans c e G o (G.goto (.returned .noService))
        (if n < 0 then [.ready, .failure] else [.ready])
  | readySome {G o n} (h : G.worker = .postReady n) (hn : 0 < n) :
      WorkerTrans c e G o (G.goto (.loopTest .busy)) [.ready]
  | loopGo {G o ph} (h : G.worker = .loopTest ph) (hctx : e.ctx = ph.ctx) :
      WorkerTrans c e G o (G.goto (.pickBusy ph)) []
  | loopBusyEnd {G o} (h : G.worker = .loopTest .busy) (hctx : e.ctx ≠ .busy) :
      WorkerTrans c e G o (G.goto .tdTest) []
  | loopTeardownEnd {G o} (h : G.worker = .loopTest .teardown)
      (hctx : e.ctx ≠ .teardown) :
      WorkerTrans c e G o (G.goto (.exitScan c.size)) []
  | pickNone {G o ph} (h : G.worker = .pickBusy ph) (hlist : G.busyList = []) :
      WorkerTrans c e G o (G.goto (.semPend ph)) []
  | pickSome {G o ph i rest} (h : G.worker = .pickBusy ph)
      (hlist : G.busyList = i :: rest) :
      WorkerTrans c e G o (G.goto (.semTryPend ph i)) []
  | pend {G o ph} (h : G.worker = .semPend ph) (hsem : 0 < G.sem) :
      WorkerTrans c e G o { G with sem := G.sem - 1, worker := .loopTest ph } []
  | tryPend {G o ph i} (h : G.worker = .semTryPend ph i) :
      WorkerTrans c e G o { G with
        sem := G.sem - 1, curRun := some i, cc0 := false,
        worker := .handle ph i } []
  | handleInit {G o ph i} (h : G.worker = .handle ph i)
      (hst : (G.table i).state = .init1) :
      WorkerTrans c e G o
        { G with cc0 := false, worker := .inInit i (.loop ph) } [.initStart i]
  | handleGo {G o ph i} (h : G.worker = .handle ph i)
      (hst : (G.table i).state ≠ .init1) :
      WorkerTrans c e G o (G.goto (.dispatch ph i)) []
  | dispatchPop {G o ph i} (h : G.worker = .dispatch ph i)
      (hst : (G.table i).state = .busy) (hcur : (G.table i).curMsg = none) :
      WorkerTrans c e G o (G.goto (.popMsg ph i)) []
  | dispatchReenter {G o ph i r fn} (h : G.worker = .dispatch ph i)
      (hst : (G.table i).state = .busy) (hcur : (G.table i).curMsg = some r)
      (hfn : handlerOf e.msg r = some fn) :
      WorkerTrans c e G o (G.goto (handlerPc ph i fn)) [.reenter i r fn]
  | popNone {G o ph i} (h : G.worker = .popMsg ph i)
      (hq : (G.table i).queue = []) :
      WorkerTrans c e G o ((G.setState i .idle).goto (.loopTest ph)) []
  | popSome {G o ph i r rest} (h : G.worker = .popMsg ph i)
      (hq : (G.table i).queue = r :: rest) :
      WorkerTrans c e G o
        ((G.setService i
          { G.table i with curMsg := some r, queue := rest }).goto
            (.hookBefore ph i)) [.take i r]
  | beforeDrop {G o ph i r} (h : G.worker = .hookBefore ph i)
      (hcur : (G.table i).curMsg = some r) (hcall : e.inCall = false)
      (hret : o.ret < 0) :
      WorkerTrans c e G o (G.goto (.resetMsg ph i)) [.drop i r]
  | beforeStart {G o ph i r fn} (h : G.worker = .hookBefore ph i)
      (hcur : (G.table i).curMsg = some r) (hcall : e.inCall = false)
      (hret : 0 ≤ o.ret) (hfn : handlerOf e.msg r = some fn) :
      WorkerTrans c e G o (G.goto (handlerPc ph i fn)) [.start i r fn]
  | handlerReturn {G o ph i} (h : G.worker = .inHandler ph i)
      (hcall : e.inCall = false) :
      WorkerTrans c e G o
        { G.setService i { G.table i with
            branch := if o.yield then o.branch else (G.table i).branch } with
          cc0 := o.yield, worker := .handled ph i } []
  | handledYield {G o ph i r} (h : G.worker = .handled ph i)
      (hcur : (G.table i).curMsg = some r) (hcc : G.cc0 = true) :
      WorkerTrans c e G o ((G.setState i .yield).goto (.hookYield ph i))
        [.suspend i r]
  | handledFinish {G o ph i r} (h : G.worker = .handled ph i)
      (hcur : (G.table i).curMsg = some r) (hcc : G.cc0 = false) :
      WorkerTrans c e G o (G.goto (.hookAfter ph i)) [.finish i r]
  | yieldDone {G o ph i} (h : G.worker = .hookYield ph i)
      (hcall : e.inCall = false) :
      WorkerTrans c e G o (G.goto (.loopTest ph)) []
  | afterDone {G o ph i} (h : G.worker = .hookAfter ph i)
      (hcall : e.inCall = false) :
      WorkerTrans c e G o (G.goto (.resetMsg ph i)) []
  | reset {G o ph i r} (h : G.worker = .resetMsg ph i)
      (hcur : (G.table i).curMsg = some r) :
      WorkerTrans c e G o
        ((G.setService i
          { G.table i with branch := 0, curMsg := none }).goto
            (.loopTest ph)) [.release i r]
  | tdEnter {G o} (h : G.worker = .tdTest) (hctx : e.ctx = .teardown) :
      WorkerTrans c e G o (G.goto (.tdScan 0)) []
  | tdPass {G o} (h : G.worker = .tdTest) (hctx : e.ctx ≠ .teardown) :
      WorkerTrans c e G o (G.goto (.loopTest .teardown)) []
  | tdSkip {G o i} (h : G.worker = .tdScan i) (hlt : i < c.size)
      (hskip : (c.row i).alive = true ∨ ¬ c.Registered i) :
      WorkerTrans c e G o (G.goto (.tdScan (i + 1))) []
  | tdExit0 {G o i} (h : G.worker = .tdScan i)
      (halive : (c.row i).alive = false) (hreg : c.Registered i) :
      WorkerTrans c e G o ((G.setState i .exit0).goto (.tdInExit i))
        [.exitStart i]
  | tdEnd {G o i} (h : G.worker = .tdScan i) (hge : c.size ≤ i) :
      WorkerTrans c e G o (G.goto (.loopTest .teardown)) []
  | tdExitedIdle {G o i} (h : G.worker = .tdInExit i)
      (hcall : e.inCall = false) (hcur : (G.table i).curMsg = none) :
      WorkerTrans c e G o (G.goto (.tdPop i)) [.exitDone i]
  | tdExitedCur {G o i r} (h : G.worker = .tdInExit i)
      (hcall : e.inCall = false) (hcur : (G.table i).curMsg = some r) :
      WorkerTrans c e G o (G.goto (.tdMsg i r true)) [.exitDone i, .cancel i r]
  | tdAnswer {G o i r cur m} (h : G.worker = .tdMsg i r cur)
      (hmsg : e.msg r.msg = some m) (htype : msgGetType m = .req)
      (hok : o.ok = true) :
      WorkerTrans c e G o (G.goto (.tdSend i r e.nextMsg cur))
        [.answer i r e.nextMsg]
  | tdNoAnswer {G o i r cur m} (h : G.worker = .tdMsg i r cur)
      (hmsg : e.msg r.msg = some m) (htype : msgGetType m = .rsp) :
      WorkerTrans c e G o (G.goto (.tdFree i r cur)) []
  | tdSent {G o i r rsp cur code} (h : G.worker = .tdSend i r rsp cur)
      (hret : e.callRet = some code) :
      WorkerTrans c e G o (G.goto (.tdFree i r cur)) [.answered i r rsp code]
  | tdFreeCur {G o i r} (h : G.worker = .tdFree i r true) :
      WorkerTrans c e G o
        ((G.setService i { G.table i with curMsg := none }).goto (.tdPop i))
        [.release i r]
  | tdFreeQueued {G o i r} (h : G.worker = .tdFree i r false) :
      WorkerTrans c e G o (G.goto (.tdPop i)) [.release i r]
  | tdPopNone {G o i} (h : G.worker = .tdPop i)
      (hq : (G.table i).queue = []) :
      WorkerTrans c e G o (G.goto (.tdExit1 i)) []
  | tdPopSome {G o i r rest} (h : G.worker = .tdPop i)
      (hq : (G.table i).queue = r :: rest) :
      WorkerTrans c e G o
        ((G.setService i { G.table i with queue := rest }).goto
          (.tdMsg i r false)) [.flush i r]
  | tdSetExit1 {G o i} (h : G.worker = .tdExit1 i) :
      WorkerTrans c e G o ((G.setState i .exit1).goto (.tdScan (i + 1))) []
  | exitEnd {G o} (h : G.worker = .exitScan 0) :
      WorkerTrans c e G o (G.goto (.returned .finished)) []
  | exitSkip {G o i} (h : G.worker = .exitScan (i + 1))
      (hskip : (G.table i).state = .exit1 ∨ ¬ c.Registered i) :
      WorkerTrans c e G o (G.goto (.exitScan i)) []
  | exitExit0 {G o i} (h : G.worker = .exitScan (i + 1))
      (hst : (G.table i).state ≠ .exit1) (hreg : c.Registered i) :
      WorkerTrans c e G o
        { G.setState i .exit0 with curRun := some i, worker := .exInExit i }
        [.exitStart i]
  | exitExit1 {G o i} (h : G.worker = .exInExit i)
      (hcall : e.inCall = false) :
      WorkerTrans c e G o ((G.setState i .exit1).goto (.exitScan i))
        [.exitDone i]

/-- Every step of the program is one of the listed transitions. -/
theorem workerStep_trans {c : GroupTable} {e : Env} {G G' : Group}
    {o : Outcome} {events : List GroupEvent}
    (hstep : workerStep c e G o = some (G', events)) :
    WorkerTrans c e G o G' events := by
  -- read the branch off the program text, then name the transition
  cases h : G.worker <;> simp only [workerStep, h] at hstep
  case enter =>
    cases hok : o.ok <;> simp [hok] at hstep <;> obtain ⟨rfl, rfl⟩ := hstep
    · exact .enterFail h hok
    · exact .enterOk h hok
  case startTest =>
    by_cases hctx : e.ctx = .init <;> simp [hctx] at hstep <;>
      obtain ⟨rfl, rfl⟩ := hstep
    · exact .startWait h hctx
    · exact .startGo h hctx
  case startPend =>
    simp at hstep
    obtain ⟨hsem, rfl, rfl⟩ := hstep
    exact .startWake h (Nat.pos_of_ne_zero hsem)
  case startCheck =>
    by_cases hctx : e.ctx = .busy <;> simp [hctx] at hstep <;>
      obtain ⟨rfl, rfl⟩ := hstep
    · exact .startBusy h hctx
    · exact .startNotBusy h hctx
  case initScan idx counter =>
    by_cases hlt : idx < c.size
    · by_cases hst : (G.table idx).state = .init1 <;>
        simp [hlt, hst] at hstep <;> obtain ⟨rfl, rfl⟩ := hstep
      · exact .scanInit h hlt hst
      · exact .scanSkip h hlt hst
    · simp [hlt] at hstep
      obtain ⟨rfl, rfl⟩ := hstep
      exact .scanEnd h (Nat.le_of_not_lt hlt)
  case inInit idx caller =>
    simp at hstep
    obtain ⟨⟨hcall, hyield⟩, rfl, rfl⟩ := hstep
    exact .initDone h hcall hyield
  case postReady n =>
    simp only [Option.some.injEq, Prod.mk.injEq] at hstep
    obtain ⟨rfl, rfl⟩ := hstep
    by_cases hn : n ≤ 0
    · rw [if_pos hn]
      exact .readyNone h hn
    · rw [if_neg hn, if_neg (by omega)]
      exact .readySome h (by omega)
  case loopTest ph =>
    by_cases hctx : e.ctx = ph.ctx
    · simp [hctx] at hstep
      obtain ⟨rfl, rfl⟩ := hstep
      exact .loopGo h hctx
    · cases ph <;> simp [hctx] at hstep <;> obtain ⟨rfl, rfl⟩ := hstep
      · exact .loopBusyEnd h hctx
      · exact .loopTeardownEnd h hctx
  case pickBusy ph =>
    cases hlist : G.busyList <;> simp [Group.firstBusy, hlist] at hstep <;>
      obtain ⟨rfl, rfl⟩ := hstep
    · exact .pickNone h hlist
    · exact .pickSome h hlist
  case semPend ph =>
    simp at hstep
    obtain ⟨hsem, rfl, rfl⟩ := hstep
    exact .pend h (Nat.pos_of_ne_zero hsem)
  case semTryPend ph i =>
    simp at hstep
    obtain ⟨rfl, rfl⟩ := hstep
    exact .tryPend h
  case handle ph i =>
    by_cases hst : (G.table i).state = .init1 <;> simp [hst] at hstep <;>
      obtain ⟨rfl, rfl⟩ := hstep
    · exact .handleInit h hst
    · exact .handleGo h hst
  case dispatch ph i =>
    by_cases hst : (G.table i).state = .busy
    · cases hcur : (G.table i).curMsg with
      | none =>
          simp [hst, hcur] at hstep
          obtain ⟨rfl, rfl⟩ := hstep
          exact .dispatchPop h hst hcur
      | some r =>
          cases hfn : handlerOf e.msg r <;> simp [hst, hcur, hfn] at hstep
          obtain ⟨rfl, rfl⟩ := hstep
          exact .dispatchReenter h hst hcur hfn
    · simp [hst] at hstep
  case popMsg ph i =>
    cases hq : (G.table i).queue <;> simp [hq] at hstep <;>
      obtain ⟨rfl, rfl⟩ := hstep
    · exact .popNone h hq
    · exact .popSome h hq
  case hookBefore ph i =>
    cases hcur : (G.table i).curMsg with
    | none => simp [hcur] at hstep
    | some r =>
        cases hcall : e.inCall <;> simp [hcur, hcall] at hstep
        by_cases hret : o.ret < 0
        · simp [hret] at hstep
          obtain ⟨rfl, rfl⟩ := hstep
          exact .beforeDrop h hcur hcall hret
        · cases hfn : handlerOf e.msg r <;> simp [hret, hfn] at hstep
          obtain ⟨rfl, rfl⟩ := hstep
          exact .beforeStart h hcur hcall (Int.not_lt.mp hret) hfn
  case inHandler ph i =>
    cases hcall : e.inCall <;> simp [hcall] at hstep
    obtain ⟨rfl, rfl⟩ := hstep
    exact .handlerReturn h hcall
  case handled ph i =>
    cases hcur : (G.table i).curMsg with
    | none => simp [hcur] at hstep
    | some r =>
        cases hcc : G.cc0 <;> simp [hcur, hcc] at hstep <;>
          obtain ⟨rfl, rfl⟩ := hstep
        · exact .handledFinish h hcur hcc
        · exact .handledYield h hcur hcc
  case hookYield ph i =>
    cases hcall : e.inCall <;> simp [hcall] at hstep
    obtain ⟨rfl, rfl⟩ := hstep
    exact .yieldDone h hcall
  case hookAfter ph i =>
    cases hcall : e.inCall <;> simp [hcall] at hstep
    obtain ⟨rfl, rfl⟩ := hstep
    exact .afterDone h hcall
  case resetMsg ph i =>
    cases hcur : (G.table i).curMsg <;> simp [hcur] at hstep
    obtain ⟨rfl, rfl⟩ := hstep
    exact .reset h hcur
  case tdTest =>
    by_cases hctx : e.ctx = .teardown <;> simp [hctx] at hstep <;>
      obtain ⟨rfl, rfl⟩ := hstep
    · exact .tdEnter h hctx
    · exact .tdPass h hctx
  case tdScan i =>
    by_cases hlt : i < c.size
    · by_cases hskip : (c.row i).alive = true ∨ ¬ c.Registered i
      · rw [if_pos hlt, if_pos hskip] at hstep
        simp at hstep
        obtain ⟨rfl, rfl⟩ := hstep
        exact .tdSkip h hlt hskip
      · rw [if_pos hlt, if_neg hskip] at hstep
        simp only [Option.some.injEq, Prod.mk.injEq] at hstep
        obtain ⟨rfl, rfl⟩ := hstep
        simp only [not_or, Bool.not_eq_true, not_not] at hskip
        exact .tdExit0 h hskip.1 hskip.2
    · simp [hlt] at hstep
      obtain ⟨rfl, rfl⟩ := hstep
      exact .tdEnd h (Nat.le_of_not_lt hlt)
  case tdInExit i =>
    cases hcall : e.inCall <;> simp [hcall] at hstep
    cases hcur : (G.table i).curMsg <;> simp [hcur] at hstep <;>
      obtain ⟨rfl, rfl⟩ := hstep
    · exact .tdExitedIdle h hcall hcur
    · exact .tdExitedCur h hcall hcur
  case tdMsg i r cur =>
    cases hmsg : e.msg r.msg with
    | none => simp [hmsg] at hstep
    | some m =>
        cases htype : msgGetType m <;> simp [hmsg, htype] at hstep
        · obtain ⟨hok, rfl, rfl⟩ := hstep
          exact .tdAnswer h hmsg htype hok
        · obtain ⟨rfl, rfl⟩ := hstep
          exact .tdNoAnswer h hmsg htype
  case tdSend i r rsp cur =>
    cases hret : e.callRet <;> simp [hret] at hstep
    obtain ⟨rfl, rfl⟩ := hstep
    exact .tdSent h hret
  case tdFree i r cur =>
    simp only [Option.some.injEq, Prod.mk.injEq] at hstep
    obtain ⟨rfl, rfl⟩ := hstep
    cases cur
    · exact .tdFreeQueued h
    · exact .tdFreeCur h
  case tdPop i =>
    cases hq : (G.table i).queue <;> simp [hq] at hstep <;>
      obtain ⟨rfl, rfl⟩ := hstep
    · exact .tdPopNone h hq
    · exact .tdPopSome h hq
  case tdExit1 i =>
    simp at hstep
    obtain ⟨rfl, rfl⟩ := hstep
    exact .tdSetExit1 h
  case exitScan k =>
    cases k with
    | zero =>
        simp at hstep
        obtain ⟨rfl, rfl⟩ := hstep
        exact .exitEnd h
    | succ i =>
        by_cases hskip : (G.table i).state = .exit1 ∨ ¬ c.Registered i
        · simp only [if_pos hskip, Option.some.injEq, Prod.mk.injEq] at hstep
          obtain ⟨rfl, rfl⟩ := hstep
          exact .exitSkip h hskip
        · simp only [if_neg hskip, Option.some.injEq, Prod.mk.injEq] at hstep
          obtain ⟨rfl, rfl⟩ := hstep
          simp only [not_or, not_not] at hskip
          exact .exitExit0 h hskip.1 hskip.2
  case exInExit i =>
    cases hcall : e.inCall <;> simp [hcall] at hstep
    obtain ⟨rfl, rfl⟩ := hstep
    exact .exitExit1 h hcall
  case returned site => simp at hstep

end Core
end Eaf
