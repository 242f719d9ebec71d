import Eaf.Core.Message
import Eaf.Foundation.KeyedTable
import Eaf.Foundation.LabelledRun

/-!
# Waiting for a socket

`powerpack/net.c`.  A service that waits for a socket has a record with two
`libuv` handles, a `uv_poll` and a `uv_timer`.  The services set records up and
start the handles, and the thread of `libuv` resumes a service when one of its
handles fires and runs the close callbacks, one callback at a time.

A record is known by its address.  The memory that `malloc` has given out for
records is disjoint, and an access to memory that is no record any more, or a
call that `libuv` asserts against, is undefined: there is no next state.
-/

namespace Eaf
namespace Powerpack

open Core KeyedTable LabelledRun

/-! ## Events of a socket -/

/-- `eaf_socket_event_in` -/
def socketEventIn : UInt32 := 0x01

/-- `eaf_socket_event_out` -/
def socketEventOut : UInt32 := 0x02

/-- `eaf_socket_event_timeout` -/
def socketEventTimeout : UInt32 := 0x04

/-- `eaf_socket_event_error` -/
def socketEventError : UInt32 := 0x08

/-- `UV_READABLE` -/
def uvReadable : UInt32 := 1

/-- `UV_WRITABLE` -/
def uvWritable : UInt32 := 2

/-- The events `uv_poll_start` is asked for. -/
def uvEvents (evts : UInt32) : UInt32 :=
  (if evts &&& socketEventIn ≠ 0 then uvReadable else 0) |||
    if evts &&& socketEventOut ≠ 0 then uvWritable else 0

/-- What `_powerpack_net_on_uv_poll` tells the service. -/
def socketEvents (status : Int) (events : UInt32) : UInt32 :=
  ((if status < 0 then socketEventError else 0) |||
    if events &&& uvReadable ≠ 0 then socketEventIn else 0) |||
    if events &&& uvWritable ≠ 0 then socketEventOut else 0

/-! ## Records -/

/-- The two handles of a record. -/
inductive PollMember
  | uvPoll
  | uvTimer
  deriving DecidableEq, Repr

/-- The size of `powerpack_poll_record_t` and where its handles are. -/
structure PollLayout where
  uvPoll : Nat
  uvTimer : Nat
  size : Nat
  uvPoll_lt_uvTimer : uvPoll < uvTimer
  uvTimer_lt_size : uvTimer < size

/-- `offsetof` a handle. -/
def PollLayout.offset (L : PollLayout) : PollMember → Nat
  | .uvPoll => L.uvPoll
  | .uvTimer => L.uvTimer

/-- A handle of `libuv`. -/
structure UvHandle where
  /-- it has passed `uv_timer_init` or `uv_poll_init_socket` -/
  initialised : Bool
  /-- what it was started with: the events, or the timeout -/
  active : Option UInt32
  /-- it was passed to `uv_close` -/
  closing : Bool
  /-- its close callback has been called -/
  closed : Bool
  deriving DecidableEq, Repr

/-- A handle before it is started. -/
def UvHandle.unused (initialised : Bool) : UvHandle where
  initialised := initialised
  active := none
  closing := false
  closed := false

/-- `powerpack_poll_record_t`; of `data.local` the record knows whether it has
been set. -/
structure PollRecord where
  uvPoll : UvHandle
  uvTimer : UvHandle
  refcnt : UInt32
  hasLocal : Bool
  id : UInt32
  evts : UInt32
  timeout : UInt32
  deriving DecidableEq, Repr

namespace PollRecord

def handle (r : PollRecord) : PollMember → UvHandle
  | .uvPoll => r.uvPoll
  | .uvTimer => r.uvTimer

def setHandle (r : PollRecord) (h : UvHandle) : PollMember → PollRecord
  | .uvPoll => { r with uvPoll := h }
  | .uvTimer => { r with uvTimer := h }

/-- `uv_poll_stop` and `uv_timer_stop`. -/
def stop (r : PollRecord) : PollRecord where
  uvPoll := { r.uvPoll with active := none }
  uvTimer := { r.uvTimer with active := none }
  refcnt := r.refcnt
  hasLocal := r.hasLocal
  id := r.id
  evts := r.evts
  timeout := r.timeout

/-- A record before it comes into the table or into `queue_gc`. -/
def fresh (id evts timeout : UInt32) (pollInit : Bool) : PollRecord where
  uvPoll := .unused pollInit
  uvTimer := .unused true
  refcnt := if pollInit then 2 else 1
  hasLocal := false
  id := id
  evts := evts
  timeout := timeout

end PollRecord

/-! ## The state -/

/-- How far `eaf_powerpack_net_socket_wait_commit` is for a service.  It is the
hook of the yield that follows a successful setup. -/
inductive CommitPoint
  | idle
  /-- the service has been set up and yields -/
  | ready
  /-- the record was found in the table -/
  | found (p : Nat)
  /-- `uv_poll_start` has succeeded -/
  | polling (p : Nat)
  /-- a handle could not be started -/
  | failed (p : Nat)
  /-- `_powerpack_net_cleanup` has returned -/
  | cleaned (p : Nat)
  deriving DecidableEq, Repr

/-- The record that commit works on. -/
def CommitPoint.record? : CommitPoint → Option Nat
  | .idle | .ready => none
  | .found p | .polling p | .failed p | .cleaned p => some p

/-- `powerpack_net_ctx_t` with the records, `libuv` and the services. -/
structure Net where
  /-- the records that have not been freed -/
  heap : Nat → Option PollRecord
  tablePoll : Table UInt32 Nat
  queueGc : List Nat
  /-- handles passed to `uv_close` whose callback has not been called -/
  pending : List (Nat × PollMember)
  /-- the record whose callback has called `eaf_resume` and not yet
  `_powerpack_net_cleanup` -/
  uvThread : Option Nat
  commit : UInt32 → CommitPoint
  /-- `unsafe[0].v_d32` of the local storage of each service -/
  unsafe0 : UInt32 → UInt32
  /-- the waits that have not resumed their service -/
  waits : List (UInt32 × Nat)

namespace Net

/-- After `eaf_powerpack_net_init`. -/
def initial (unsafe0 : UInt32 → UInt32) : Net where
  heap := fun _ => none
  tablePoll := fun _ => none
  queueGc := []
  pending := []
  uvThread := none
  commit := fun _ => .idle
  unsafe0 := unsafe0
  waits := []

def setRecord (n : Net) (p : Nat) (r : PollRecord) : Net :=
  { n with heap := Function.update n.heap p (some r) }

/-- A service comes to another point of commit. -/
def setCommit (n : Net) (id : UInt32) (c : CommitPoint) : Net :=
  { n with commit := Function.update n.commit id c }

/-- The record of a wait resumes its service. -/
def resume (n : Net) (id : UInt32) (p : Nat) : Net :=
  { n with waits := n.waits.filter (· ≠ (id, p)) }

/-- `uv_close`, which must not be called twice. -/
def uvClose (n : Net) (p : Nat) (m : PollMember) : Option Net := do
  let r ← n.heap p
  if (r.handle m).closing then none
  else
    let r := r.setHandle { r.handle m with closing := true } m
    some { n with
      heap := Function.update n.heap p (some r)
      pending := n.pending ++ [(p, m)] }

/-- Both handles are closed. -/
def uvCloseBoth (n : Net) (p : Nat) : Option Net := do
  let n ← n.uvClose p .uvPoll
  n.uvClose p .uvTimer

/-- `_powerpack_net_append_to_gc_lock` -/
def appendToGc (n : Net) (p : Nat) : Net := { n with queueGc := n.queueGc ++ [p] }

/-- `_powerpack_net_move_to_gc_queue_lock`: the node of the table becomes the
node of the queue, so the record must be in the table. -/
def moveToGcQueue (n : Net) (p : Nat) (id : UInt32) : Option Net := do
  let table ← n.tablePoll.erase id p
  some { n with tablePoll := table, queueGc := n.queueGc ++ [p] }

/-- `_powerpack_net_cleanup` -/
def cleanup (n : Net) (p : Nat) : Option Net := do
  let r ← n.heap p
  let n ← n.moveToGcQueue p r.id
  (n.setRecord p r.stop).uvCloseBoth p

/-- `_powerpack_net_on_poll_close`.  Where the address taken for a record is
none, memory outside of the records is decremented; `harmful` says that it
becomes zero, so that it is erased from a list and freed, or that it was in
use. -/
def onPollClose (L : PollLayout) (n : Net) (handle : Nat) (harmful : Bool) :
    Option Net :=
  let p := handle - L.uvPoll
  match n.heap p with
  | none => if harmful then none else some n
  | some r =>
      let refcnt := r.refcnt - 1
      if refcnt ≠ 0 then some (n.setRecord p { r with refcnt := refcnt })
      else if p ∈ n.queueGc then
        some { n with
          queueGc := n.queueGc.erase p
          heap := Function.update n.heap p none }
      else none

/-- The callbacks of the handles, up to `eaf_resume`. -/
def onUvFire (n : Net) (p : Nat) (result : UInt32) : Option Net := do
  let r ← n.heap p
  if r.hasLocal then
    let n := { n with unsafe0 := Function.update n.unsafe0 r.id result }
    some { n.resume r.id p with uvThread := some p }
  else none

/-- `_powerpack_net_on_uv_poll`, up to `eaf_resume` -/
def onUvPoll (n : Net) (p : Nat) (status : Int) (events : UInt32) : Option Net :=
  n.onUvFire p (socketEvents status events)

/-- `_powerpack_net_on_timer`, up to `eaf_resume` -/
def onTimer (n : Net) (p : Nat) : Option Net := n.onUvFire p socketEventTimeout

end Net

/-- How the calls end that `eaf_powerpack_net_socket_wait_setup` makes before it
looks at the table. -/
inductive SetupOutcome
  /-- `malloc` fails -/
  | noMemory
  /-- `uv_timer_init` fails -/
  | noTimer
  /-- `uv_poll_init_socket` fails for the record at `p` -/
  | noPoll (p : Nat)
  /-- both handles of the record at `p` are initialised -/
  | ready (p : Nat)
  deriving DecidableEq, Repr

/-- The record with an initialised timer. -/
def SetupOutcome.record? : SetupOutcome → Option Nat
  | .noMemory | .noTimer => none
  | .noPoll p | .ready p => some p

namespace Net

/-- `eaf_powerpack_net_socket_wait_setup`.  The record is nobody else's until
it is in the table or closed. -/
def socketWaitSetup (n : Net) (id evts timeout : UInt32) :
    SetupOutcome → Option (Net × Int)
  | .noMemory => some (n, Errno.memory)
  | .noTimer => some (n, Errno.unknown)
  | .noPoll p => do
      let n := n.setRecord p (.fresh id evts timeout false)
      -- `uv_poll` is closed, though `uv_timer` is the one initialised
      let n ← (n.appendToGc p).uvClose p .uvPoll
      some (n, Errno.unknown)
  | .ready p =>
      let n := n.setRecord p (.fresh id evts timeout true)
      match n.tablePoll.insert id p with
      | some table =>
          -- the service yields next, with commit as the hook
          let n := { n with tablePoll := table, waits := n.waits ++ [(id, p)] }
          some (n.setCommit id .ready, Errno.success)
      | none => do
          let n ← (n.appendToGc p).uvCloseBoth p
          some (n, Errno.duplicate)

/-- `eaf_powerpack_net_socket_wait_commit`: the record is looked up.  Without
one the service is resumed at once. -/
def commitFind (n : Net) (id : UInt32) : Option Net :=
  match n.tablePoll id with
  | none => some (n.setCommit id .idle)
  | some p => do
      let r ← n.heap p
      some ((n.setRecord p { r with hasLocal := true }).setCommit id (.found p))

/-- `uv_poll_start`, which must not be called for a closing handle. -/
def commitPollStart (n : Net) (id : UInt32) (p : Nat) (ok : Bool) :
    Option Net := do
  let r ← n.heap p
  if r.uvPoll.closing then none
  else if ok then
    let started := { r.uvPoll with active := some (uvEvents r.evts) }
    some ((n.setRecord p { r with uvPoll := started }).setCommit id (.polling p))
  else some (n.setCommit id (.failed p))

/-- `uv_timer_start`, which fails for a closing handle. -/
def commitTimerStart (n : Net) (id : UInt32) (p : Nat) (ok : Bool) :
    Option Net := do
  let r ← n.heap p
  if ok ∧ r.uvTimer.closing = false then
    let started := { r.uvTimer with active := some r.timeout }
    some ((n.setRecord p { r with uvTimer := started }).setCommit id .idle)
  else some (n.setCommit id (.failed p))

end Net

/-! ## Steps -/

/-- What a thread does next. -/
inductive NetStep
  /-- a service calls `eaf_powerpack_net_socket_wait_setup` -/
  | setup (id evts timeout : UInt32) (outcome : SetupOutcome)
  | commitFind (id : UInt32)
  | commitPollStart (id : UInt32) (p : Nat) (ok : Bool)
  | commitTimerStart (id : UInt32) (p : Nat) (ok : Bool)
  /-- commit cleans up -/
  | commitCleanup (id : UInt32) (p : Nat)
  /-- and resumes the service -/
  | commitResume (id : UInt32) (p : Nat)
  /-- the `uv_poll` of a record fires -/
  | onUvPoll (p : Nat) (status : Int) (events : UInt32)
  /-- the `uv_timer` of a record fires -/
  | onTimer (p : Nat)
  /-- the callback of a handle cleans up after `eaf_resume` -/
  | uvCleanup (p : Nat)
  /-- `libuv` runs the close callback of a handle -/
  | closeCallback (p : Nat) (m : PollMember) (harmful : Bool)
  deriving DecidableEq, Repr

namespace Net

variable (L : PollLayout)

/-- `libuv` marks a handle as closed and runs its callback. -/
def closeCallback (n : Net) (p : Nat) (m : PollMember) (harmful : Bool) :
    Option Net := do
  let r ← n.heap p
  let n := n.setRecord p (r.setHandle { r.handle m with closed := true } m)
  let n := { n with pending := n.pending.erase (p, m) }
  n.onPollClose L (p + L.offset m) harmful

/-- The next state, unless the step is undefined. -/
def step (n : Net) : NetStep → Option Net
  | .setup id evts timeout outcome =>
      (n.socketWaitSetup id evts timeout outcome).map Prod.fst
  | .commitFind id => n.commitFind id
  | .commitPollStart id p ok => n.commitPollStart id p ok
  | .commitTimerStart id p ok => n.commitTimerStart id p ok
  | .commitCleanup id p => (n.cleanup p).map (·.setCommit id (.cleaned p))
  | .commitResume id p => some ((n.resume id p).setCommit id .idle)
  | .onUvPoll p status events => n.onUvPoll p status events
  | .onTimer p => n.onTimer p
  | .uvCleanup p => (n.cleanup p).map fun n => { n with uvThread := none }
  | .closeCallback p m harmful => n.closeCallback L p m harmful

/-- `malloc` may give this block out. -/
def Fresh (n : Net) (p : Nat) : Prop :=
  ∀ q r, n.heap q = some r → p + L.size ≤ q ∨ q + L.size ≤ p

/-- A handle of a record may fire. -/
def Fires (n : Net) (p : Nat) (m : PollMember) : Prop :=
  n.uvThread = none ∧
    ∃ r, n.heap p = some r ∧ (r.handle m).active.isSome = true

/-- Who may step: a service is at one place of its code, the thread of `libuv`
runs one callback at a time, of a handle that was started, and the close
callback of each handle passed to `uv_close` once. -/
def Enabled (n : Net) : NetStep → Prop
  | .setup id _ _ outcome =>
      n.commit id = .idle ∧ ∀ p ∈ outcome.record?, n.Fresh L p
  | .commitFind id => n.commit id = .ready
  | .commitPollStart id p _ => n.commit id = .found p
  | .commitTimerStart id p _ => n.commit id = .polling p
  | .commitCleanup id p => n.commit id = .failed p
  | .commitResume id p => n.commit id = .cleaned p
  | .onUvPoll p _ _ => n.Fires p .uvPoll
  | .onTimer p => n.Fires p .uvTimer
  | .uvCleanup p => n.uvThread = some p
  | .closeCallback p m _ => n.uvThread = none ∧ (p, m) ∈ n.pending

end Net

/-- A step of a run: the state before it, the step, and the state after it
unless the step was undefined. -/
structure NetEvent where
  before : Net
  step : NetStep
  after : Option Net

/-- A run ends at a step that is undefined. -/
def NetMoves (L : PollLayout) (s : Option Net) (events : List NetEvent)
    (t : Option Net) : Prop :=
  ∃ n a, s = some n ∧ n.Enabled L a ∧ t = n.step L a ∧ events = [⟨n, a, t⟩]

/-- The services and `libuv` run, from `eaf_powerpack_net_init` on. -/
abbrev NetRun (L : PollLayout) (unsafe0 : UInt32 → UInt32) (tr : List NetEvent)
    (t : Option Net) : Prop :=
  Run (NetMoves L) (some (.initial unsafe0)) tr t

end Powerpack
end Eaf
