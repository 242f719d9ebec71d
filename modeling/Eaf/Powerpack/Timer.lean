import Eaf.Core.Message
import Eaf.Foundation.LabelledRun

/-!
# Timers

`powerpack/timer.c`.  The timer service makes a record of each delay request, and the
thread of `libuv` starts a timer for it, answers the request when the timer expires,
and frees the record when the timer is closed.

`_timer_on_exit` reads the sizes of the queues without the lock.  So a step of the
thread of `libuv` changes one queue at most, also within a locked section, and to free
a record is a step of its own; its calls into `libuv` and its responses are joined to
such steps.  A record that it has taken out of a queue is in its hands until it puts it
into the next queue or frees it.  A locked section of the service is one step, for it is
the same thread that reads the sizes.

A record is known by its address.  An access to a record that has been freed, the
removal of a record from a queue it is not in, and a second `uv_close` are undefined:
there is no next state.
-/

namespace Eaf
namespace Powerpack

open Core

/-- `timer_record_t` -/
structure TimerRecord where
  /-- which of the requests `data.req` is -/
  req : Nat
  /-- `data.req.from` -/
  src : UInt32
  /-- `data.msec` -/
  msec : UInt32
  deriving DecidableEq, Repr

/-- The queues of `timer_ctx_t`. -/
inductive TimerQueue
  | busy
  | idle
  | dead
  deriving DecidableEq, Repr

/-- Where the thread of the timer service is. -/
inductive TimerPoint
  /-- before `_timer_on_init` -/
  | waiting
  /-- between two callbacks -/
  | serving
  /-- in `_timer_on_exit`, before `uv_async_send` -/
  | leaving
  /-- there, before the condition of its loop is evaluated -/
  | asleep
  /-- within that condition; the sizes read so far are zero, and those of the queues
  `unread` have not been read -/
  | reading (unread : List TimerQueue)
  /-- `_timer_on_exit` has returned -/
  | exited
  deriving DecidableEq, Repr

/-- Where the thread of `libuv` is. -/
inductive TimerUvPoint
  /-- between two callbacks -/
  | polling
  /-- in the loop of `_timer_on_uv_notify` -/
  | notified
  /-- in `_timer_handle_idle_record`, before `uv_timer_init` -/
  | starting (p : Nat)
  /-- there, after the response at `err_init_timer`, before `FREE` -/
  | refused (p : Nat)
  /-- there, before `uv_timer_start` -/
  | initialised (p : Nat)
  /-- there, at `err_start_timer`, between `busy_queue` and `dead_queue` -/
  | rollback (p : Nat)
  /-- in `_timer_on_active`, after the response -/
  | expired (p : Nat)
  /-- there, between `busy_queue` and `dead_queue` -/
  | retiring (p : Nat)
  /-- in `_timer_on_timer_close`, before `FREE` -/
  | closed (p : Nat)
  /-- in the first loop of `_timer_close_all_timer` -/
  | closingBusy
  /-- there, between `busy_queue` and `dead_queue` -/
  | stopping (p : Nat)
  /-- in the second one -/
  | closingIdle
  /-- there, before `FREE` -/
  | dropping (p : Nat)
  /-- after `_timer_on_libuv_loop_exit` -/
  | ended
  deriving DecidableEq, Repr

/-- The record that has been taken out of a queue, and is neither in the next one nor
freed. -/
def TimerUvPoint.hand? : TimerUvPoint → Option Nat
  | .starting p | .refused p | .rollback p | .retiring p | .closed p | .stopping p
  | .dropping p => some p
  | _ => none

/-- The record whose timer a callback is about to start or to close. -/
def TimerUvPoint.timer? : TimerUvPoint → Option Nat
  | .initialised p | .expired p => some p
  | _ => none

/-- The thread of `libuv` is in `_timer_close_all_timer`. -/
def TimerUvPoint.closes : TimerUvPoint → Bool
  | .closingBusy | .stopping _ | .closingIdle | .dropping _ => true
  | _ => false

/-- The thread of `libuv` holds `glock`. -/
def TimerUvPoint.locks : TimerUvPoint → Bool
  | .rollback _ | .retiring _ | .stopping _ => true
  | _ => false

/-- What can be seen of the timers. -/
inductive TimerEvent
  /-- a record was created for a request -/
  | create (req : Nat)
  /-- `_timer_send_delay_rsp` -/
  | answer (req : Nat) (dst : UInt32) (code : Int)
  /-- `uv_timer_start` has succeeded -/
  | start (req : Nat) (msec : UInt32)
  /-- `uv_close` of a timer -/
  | close (req : Nat)
  /-- the record was freed -/
  | release (req : Nat)
  /-- `_timer_on_exit` has reset `looping` -/
  | exitBegun
  /-- `_timer_on_libuv_loop_exit`, and whether its assertions hold -/
  | loopExit (asserted : Bool)
  deriving DecidableEq, Repr

/-- The request that is answered. -/
def TimerEvent.answered? : TimerEvent → Option Nat
  | .answer req _ _ => some req
  | _ => none

/-- `uv_timer_start` or `uv_close` of a timer. -/
def TimerEvent.touchesTimer : TimerEvent → Bool
  | .start _ _ | .close _ => true
  | _ => false

/-- `g_timer_ctx` with the records, `libuv` and the two threads. -/
structure TimerCtx where
  looping : Bool
  busyQueue : List Nat
  idleQueue : List Nat
  deadQueue : List Nat
  /-- the records that have not been freed -/
  heap : Nat → Option TimerRecord
  /-- `gnotifier` has been sent, and its callback has not been called since -/
  notifier : Bool
  /-- the timers that are started and have not expired -/
  active : List Nat
  /-- the timers passed to `uv_close` whose callback has not been called -/
  closing : List Nat
  service : TimerPoint
  uvThread : TimerUvPoint
  /-- how many requests there have been -/
  requests : Nat

/-- A step of one of the threads, with the results of the calls it makes. -/
inductive TimerStep
  | onInit
  /-- a request comes, `malloc` returns `p` and `uv_async_send` succeeds or not -/
  | reqDelay (src msec : UInt32) (p : Nat) (sent : Bool)
  | onExit
  /-- `uv_async_send` in `_timer_on_exit` succeeds or not -/
  | sendExit (sent : Bool)
  /-- the condition of the loop is evaluated in some order, up to the first size -/
  | evaluate (order : List TimerQueue)
  /-- the next size is read -/
  | readSize
  | onUvNotify
  | onActive (p : Nat)
  | onTimerClose (p : Nat)
  /-- the callback goes on; its next call into `libuv` succeeds or not -/
  | goOn (ok : Bool)
  | onLibuvLoopExit
  deriving DecidableEq, Repr

namespace TimerCtx

/-- After `eaf_timer_init` and the start of the loop. -/
def initial : TimerCtx where
  looping := false
  busyQueue := []
  idleQueue := []
  deadQueue := []
  heap := fun _ => none
  notifier := false
  active := []
  closing := []
  service := .waiting
  uvThread := .polling
  requests := 0

def queue (s : TimerCtx) : TimerQueue → List Nat
  | .busy => s.busyQueue
  | .idle => s.idleQueue
  | .dead => s.deadQueue

/-- `eaf_list_erase`, for a node that is in the list. -/
def eraseNode (l : List Nat) (p : Nat) : Option (List Nat) :=
  if p ∈ l then some (l.erase p) else none

/-- `uv_close`, which stops the timer and must not be called twice. -/
def uvClose (s : TimerCtx) (p : Nat) : Option TimerCtx :=
  if p ∈ s.closing then none
  else some { s with active := s.active.erase p, closing := s.closing ++ [p] }

/-- The thread of `libuv` goes to another point. -/
def goto (s : TimerCtx) (point : TimerUvPoint) : TimerCtx := { s with uvThread := point }

/-- The record is taken out of `busy_queue`. -/
def eraseBusy (s : TimerCtx) (p : Nat) (point : TimerUvPoint) : Option TimerCtx := do
  let busyQueue ← eraseNode s.busyQueue p
  some ({ s with busyQueue }.goto point)

/-- The record is put into `dead_queue`, and its timer closed. -/
def pushDead (s : TimerCtx) (p : Nat) (point : TimerUvPoint) : Option TimerCtx := do
  let s ← { s with deadQueue := s.deadQueue ++ [p] }.uvClose p
  some (s.goto point)

/-- `FREE` -/
def free (s : TimerCtx) (p : Nat) (point : TimerUvPoint) :
    Option (TimerCtx × List TimerEvent) := do
  let r ← s.heap p
  let s := { s with heap := Function.update s.heap p none }
  some (s.goto point, [.release r.req])

/-! ## The timer service -/

/-- `_timer_on_init` -/
def timerOnInit (s : TimerCtx) : TimerCtx :=
  { s with looping := true, service := .serving }

/-- `_timer_on_req_delay` -/
def timerOnReqDelay (s : TimerCtx) (src msec : UInt32) (p : Nat) (sent : Bool) :
    Option (TimerCtx × List TimerEvent) :=
  let req := s.requests
  let s := { s with requests := req + 1 }
  if s.looping then do
    let idleQueue := s.idleQueue ++ [p]
    if sent then
      some ({ s with
        heap := Function.update s.heap p (some { req, src, msec })
        idleQueue
        notifier := true }, [.create req])
    else
      let idleQueue ← eraseNode idleQueue p
      some ({ s with idleQueue },
        [.create req, .answer req src Errno.unknown, .release req])
  else some (s, [.answer req src Errno.state])

/-- `_timer_on_exit`, up to `uv_async_send` -/
def timerOnExit (s : TimerCtx) : TimerCtx :=
  { s with looping := false, service := .leaving }

/-- There, up to the loop -/
def timerSendExit (s : TimerCtx) (sent : Bool) : TimerCtx :=
  { s with notifier := s.notifier || sent, service := .asleep }

/-- The size of `q` is read; `unread` are the queues after it. -/
def readQueue (s : TimerCtx) (q : TimerQueue) (unread : List TimerQueue) : TimerCtx :=
  if s.queue q = [] then
    { s with service := if unread = [] then .exited else .reading unread }
  else { s with service := .asleep }

/-! ## The thread of `libuv` -/

/-- `_timer_on_uv_notify`, up to its loops -/
def timerOnUvNotify (s : TimerCtx) : TimerCtx :=
  { s with
    notifier := false
    uvThread := if s.looping then .notified else .closingBusy }

/-- `_timer_on_active`, up to the response -/
def timerOnActive (s : TimerCtx) (p : Nat) : Option (TimerCtx × List TimerEvent) := do
  let r ← s.heap p
  let s := { s with active := s.active.erase p }
  some (s.goto (.expired p), [.answer r.req r.src Errno.success])

/-- `_timer_on_timer_close`, up to `FREE` -/
def timerOnTimerClose (s : TimerCtx) (p : Nat) : Option (TimerCtx × List TimerEvent) := do
  let _ ← s.heap p
  let deadQueue ← eraseNode s.deadQueue p
  let s := { s with deadQueue, closing := s.closing.erase p }
  some (s.goto (.closed p), [])

/-- `_timer_on_libuv_loop_exit` -/
def timerOnLibuvLoopExit (s : TimerCtx) : TimerCtx × List TimerEvent :=
  (s.goto .ended,
    [.loopExit (s.busyQueue.length = 0 ∧ s.deadQueue.length = 0 ∧
      s.idleQueue.length = 0)])

/-- `uv_timer_init` and what follows, in `_timer_handle_idle_record`. -/
def timerInit (s : TimerCtx) (p : Nat) (ok : Bool) :
    Option (TimerCtx × List TimerEvent) := do
  let r ← s.heap p
  if ok then
    let s := { s with busyQueue := s.busyQueue ++ [p] }
    some (s.goto (.initialised p), [])
  else some (s.goto (.refused p), [.answer r.req r.src Errno.unknown])

/-- `uv_timer_start` and what follows. -/
def timerStart (s : TimerCtx) (p : Nat) (ok : Bool) :
    Option (TimerCtx × List TimerEvent) := do
  let r ← s.heap p
  if ok then
    let s := { s with active := s.active ++ [p] }
    some (s.goto .notified, [.start r.req r.msec])
  else
    let s ← s.eraseBusy p (.rollback p)
    some (s, [])

/-- The rest of `_timer_handle_idle_record` after `uv_timer_start` has failed. -/
def timerRollback (s : TimerCtx) (p : Nat) : Option (TimerCtx × List TimerEvent) := do
  let r ← s.heap p
  let s ← s.pushDead p .notified
  some (s, [.answer r.req r.src Errno.unknown, .close r.req])

/-- `_timer_on_active` after the response, up to `dead_queue`. -/
def timerExpired (s : TimerCtx) (p : Nat) : Option (TimerCtx × List TimerEvent) := do
  let _ ← s.heap p
  let s ← s.eraseBusy p (.retiring p)
  some (s, [])

/-- A record goes to `dead_queue`, in `_timer_on_active` and in the first loop of
`_timer_close_all_timer`. -/
def timerRetire (s : TimerCtx) (p : Nat) (point : TimerUvPoint) :
    Option (TimerCtx × List TimerEvent) := do
  let r ← s.heap p
  let s ← s.pushDead p point
  some (s, [.close r.req])

/-- The second loop of `_timer_close_all_timer`. -/
def timerCloseIdle (s : TimerCtx) : TimerCtx × List TimerEvent :=
  match s.idleQueue with
  | [] => (s.goto .polling, [])
  | p :: rest => ({ s with idleQueue := rest }.goto (.dropping p), [])

/-- The first loop of `_timer_close_all_timer`; it keeps the lock when it ends. -/
def timerCloseBusy (s : TimerCtx) : TimerCtx × List TimerEvent :=
  match s.busyQueue with
  | [] => s.timerCloseIdle
  | p :: rest => ({ s with busyQueue := rest }.goto (.stopping p), [])

/-- The next step of a callback. -/
def goOn (s : TimerCtx) (ok : Bool) : Option (TimerCtx × List TimerEvent) :=
  match s.uvThread with
  | .polling | .ended => none
  | .notified =>
      match s.idleQueue with
      | [] => some (s.goto .polling, [])
      | p :: rest => some ({ s with idleQueue := rest }.goto (.starting p), [])
  | .starting p => s.timerInit p ok
  | .refused p => s.free p .notified
  | .initialised p => s.timerStart p ok
  | .rollback p => s.timerRollback p
  | .expired p => s.timerExpired p
  | .retiring p => s.timerRetire p .polling
  | .closed p => s.free p .polling
  | .closingBusy => some s.timerCloseBusy
  | .stopping p => s.timerRetire p .closingBusy
  | .closingIdle => some s.timerCloseIdle
  | .dropping p => s.free p .closingIdle

/-! ## Runs -/

/-- A step of one of the threads. -/
def step (s : TimerCtx) : TimerStep → Option (TimerCtx × List TimerEvent)
  | .onInit => some (s.timerOnInit, [])
  | .reqDelay src msec p sent => s.timerOnReqDelay src msec p sent
  | .onExit => some (s.timerOnExit, [.exitBegun])
  | .sendExit sent => some (s.timerSendExit sent, [])
  | .evaluate [] => none
  | .evaluate (q :: unread) => some (s.readQueue q unread, [])
  | .readSize =>
      match s.service with
      | .reading (q :: unread) => some (s.readQueue q unread, [])
      | _ => none
  | .onUvNotify => some (s.timerOnUvNotify, [])
  | .onActive p => s.timerOnActive p
  | .onTimerClose p => s.timerOnTimerClose p
  | .goOn ok => s.goOn ok
  | .onLibuvLoopExit => some s.timerOnLibuvLoopExit

end TimerCtx

/-- The thread of the service is in the condition of `_timer_on_exit`. -/
def TimerPoint.isReading : TimerPoint → Bool
  | .reading _ => true
  | _ => false

/-- `_timer_on_exit` has been called. -/
def TimerPoint.begun : TimerPoint → Bool
  | .waiting | .serving => false
  | .leaving | .asleep | .reading _ | .exited => true

namespace TimerCtx

/-- Which steps can come next: those of the service one after the other, at an address
that `malloc` can return and with a lock that is free, and the callbacks of `libuv` one at a time.  It calls that
of the notifier after a send, that of a timer once after its start and not after
`uv_close`, and a close callback once after `uv_close`.  The loop ends after the
services. -/
def Enabled (s : TimerCtx) : TimerStep → Prop
  | .onInit => s.service = .waiting
  | .reqDelay _ _ p _ =>
      (s.service = .waiting ∨ s.service = .serving ∨ s.service = .exited) ∧
        s.heap p = none ∧ (s.looping = true → s.uvThread.locks = false)
  | .onExit => s.service = .waiting ∨ s.service = .serving
  | .sendExit _ => s.service = .leaving
  | .evaluate order => s.service = .asleep ∧ order.Perm [.busy, .idle, .dead]
  | .readSize => s.service.isReading = true
  | .onUvNotify => s.uvThread = .polling ∧ s.notifier = true
  | .onActive p => s.uvThread = .polling ∧ p ∈ s.active
  | .onTimerClose p => s.uvThread = .polling ∧ p ∈ s.closing
  | .goOn _ => s.uvThread ≠ .polling ∧ s.uvThread ≠ .ended
  | .onLibuvLoopExit => s.uvThread = .polling ∧ s.service = .exited

instance (s : TimerCtx) (a : TimerStep) : Decidable (s.Enabled a) := by
  cases a <;> unfold Enabled <;> infer_instance

/-- Runs of the two threads, in any order of their steps. -/
abbrev TimerRun (ok : TimerCtx → TimerStep → Prop) (tr : List TimerEvent)
    (s : TimerCtx) : Prop :=
  LabelledRun.Run (LabelledRun.Guarded step ok) initial tr s

/-- Steps that can be executed one after the other are a run. -/
theorem exists_run (ok : TimerCtx → TimerStep → Prop) [∀ s a, Decidable (ok s a)]
    (actions : List TimerStep) (check : TimerCtx × List TimerEvent → Bool)
    (h : (LabelledRun.replay step ok initial actions).any check = true) :
    ∃ tr s, TimerRun ok tr s ∧ check (s, tr) = true := by
  obtain ⟨s, tr, hrun, hcheck⟩ := LabelledRun.exists_run_of_replay h
  exact ⟨tr, s, hrun, hcheck⟩

/-- The queues and the record in the hands of the thread of `libuv`. -/
def places (s : TimerCtx) : List Nat :=
  s.idleQueue ++ s.busyQueue ++ s.deadQueue ++ s.uvThread.hand?.toList

end TimerCtx

end Powerpack
end Eaf
