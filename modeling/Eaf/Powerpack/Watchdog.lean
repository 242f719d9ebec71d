import Eaf.Core.Message
import Eaf.Foundation.LabelledRun
import Eaf.Foundation.SortedMap
import Eaf.Powerpack.Clock
import Mathlib.Tactic.Simps.Basic

/-!
# The watchdog

`watchdog.c` sends heartbeats to the services of a watch list.  The record of a
service is in `idle_stack` until its next heartbeat is sent, and in
`busy_stack` and `busy_table` until the response is there.

A record is known by its index.  A map is the list of its records in their
order, and the comparison functions read the records as they are.  A record
has one node for the two stacks and one for the table; to put a node into a map
while it is in one is undefined behaviour, as is a failed assertion, and then
there is no result.

The code is written down statement by statement, so that one can look at the
context in which each of them is executed.
-/

namespace Eaf
namespace Powerpack

open Core LabelledRun

/-- `eaf_watchdog_watch_list_t` -/
structure WatchItem where
  sid : UInt32
  interval : UInt32
  timeout : UInt32
  jitter : UInt32
  deriving DecidableEq, Repr, Inhabited

/-- `eaf_watchdog_record_t` without its nodes. -/
structure WatchdogRecord where
  /-- `data.begin` -/
  beginTime : ClockTime
  /-- `data.end` -/
  endTime : ClockTime
  cerrc : UInt64
  token : Int
  /-- `data.rec`: `0` is `NULL`, and `i + 1` is the address of `table[i]` -/
  recAt : Nat
  deriving DecidableEq, Repr, Inhabited

/-- A record as `calloc` makes it. -/
def WatchdogRecord.zero : WatchdogRecord := ⟨⟨0, 0⟩, ⟨0, 0⟩, 0, 0, 0⟩

/-- `eaf_watchdog_ctx_t` -/
structure Watchdog where
  idleStack : List Nat
  busyStack : List Nat
  busyTable : List Nat
  /-- `data.records`, which may be `NULL` -/
  records : Option (List WatchdogRecord)
  /-- `data.size` -/
  size : Nat
  /-- `cb.fn` -/
  fn : Fn
  /-- `cb.arg` -/
  arg : Nat
  deriving DecidableEq, Repr

/-- The three maps. -/
inductive MapName
  | idleStack
  | busyStack
  | busyTable
  deriving DecidableEq, Repr

/-- A statement that acts on the context, sends a heartbeat or reports an
error. -/
inductive Stmt
  /-- `eaf_map_insert` -/
  | insert (m : MapName) (r : Nat)
  /-- `eaf_map_erase` -/
  | erase (m : MapName) (r : Nat)
  | setRec (r : Nat) (recAt : Nat)
  | setToken (r : Nat) (token : Int)
  | setBegin (r : Nat) (t : ClockTime)
  | setEnd (r : Nat) (t : ClockTime)
  | setCerrc (r : Nat) (cerrc : UInt64)
  /-- `eaf_send_req` of a heartbeat, and its result -/
  | send (r : Nat) (req : Msg) (ret : Int)
  /-- `cb.fn(sid, cb.arg)` -/
  | error (sid : UInt32)
  deriving DecidableEq, Repr

/-- How the send of a heartbeat turns out: the address of the request, and the
code of `eaf_send_req`. -/
structure SendResult where
  addr : MsgRef
  ret : Int
  deriving DecidableEq, Repr

/-- A statement with the context in which it was executed. -/
abbrev Executed := Watchdog × Stmt

namespace Watchdog

/-- `g_watchdog_ctx` at the start of the program. -/
def initial : Watchdog := ⟨[], [], [], none, 0, 0, 0⟩

def record (s : Watchdog) (r : Nat) : WatchdogRecord :=
  (s.records.getD []).getD r .zero

/-- `*data.rec` of a record. -/
def item (T : List WatchItem) (s : Watchdog) (r : Nat) : WatchItem :=
  T.getD ((s.record r).recAt - 1) default

/-- The records of a map, in order. -/
def map (s : Watchdog) : MapName → List Nat
  | .idleStack => s.idleStack
  | .busyStack => s.busyStack
  | .busyTable => s.busyTable

def setMap (s : Watchdog) (m : MapName) (xs : List Nat) : Watchdog :=
  match m with
  | .idleStack => { s with idleStack := xs }
  | .busyStack => { s with busyStack := xs }
  | .busyTable => { s with busyTable := xs }

/-- `_watchdog_on_cmp_begin` -/
def cmpBegin (T : List WatchItem) (s : Watchdog) (rec1 rec2 : Nat) : Int :=
  let ret := (timeDiffclock (s.record rec1).beginTime
    (s.record rec2).beginTime).1
  if ret ≠ 0 then ret
  else if (s.item T rec1).sid = (s.item T rec2).sid then 0
  else if (s.item T rec1).sid < (s.item T rec2).sid then -1 else 1

/-- `_watchdog_on_cmp_end` -/
def cmpEnd (s : Watchdog) (rec1 rec2 : Nat) : Int :=
  let ret := (timeDiffclock (s.record rec1).endTime (s.record rec2).endTime).1
  if ret ≠ 0 then ret
  else if (s.record rec1).recAt = (s.record rec2).recAt then 0
  else if (s.record rec1).recAt < (s.record rec2).recAt then -1 else 1

/-- `_watchdog_on_cmp_token` -/
def cmpToken (s : Watchdog) (rec1 rec2 : Nat) : Int :=
  (s.record rec1).token - (s.record rec2).token

/-- The comparison function of a map. -/
def cmp (T : List WatchItem) (s : Watchdog) : MapName → Nat → Nat → Int
  | .idleStack => s.cmpBegin T
  | .busyStack => s.cmpEnd
  | .busyTable => s.cmpToken

/-- The node of the record that goes into the map is in a map. -/
def linked (s : Watchdog) (r : Nat) : MapName → Bool
  | .idleStack | .busyStack => r ∈ s.idleStack || r ∈ s.busyStack
  | .busyTable => r ∈ s.busyTable

/-- `eaf_map_insert`; `none` also when the key is there. -/
def insert (T : List WatchItem) (s : Watchdog) (m : MapName) (r : Nat) :
    Option Watchdog :=
  if s.linked r m then none
  else (SortedMap.insert (s.cmp T m) r (s.map m)).map (s.setMap m)

/-- `eaf_map_erase` -/
def erase (s : Watchdog) (m : MapName) (r : Nat) : Option Watchdog :=
  if r ∈ s.map m then some (s.setMap m ((s.map m).erase r)) else none

/-- A record changes. -/
def setRecord (s : Watchdog) (r : Nat)
    (f : WatchdogRecord → WatchdogRecord) : Option Watchdog :=
  match s.records with
  | none => none
  | some records =>
      if r < records.length then
        some { s with records := some (records.modify r f) }
      else none

/-- One statement. -/
def exec (T : List WatchItem) (s : Watchdog) : Stmt → Option Watchdog
  | .insert m r => s.insert T m r
  | .erase m r => s.erase m r
  | .setRec r recAt => s.setRecord r fun x => { x with recAt := recAt }
  | .setToken r token => s.setRecord r fun x => { x with token := token }
  | .setBegin r t => s.setRecord r fun x => { x with beginTime := t }
  | .setEnd r t => s.setRecord r fun x => { x with endTime := t }
  | .setCerrc r cerrc => s.setRecord r fun x => { x with cerrc := cerrc }
  | .send _ _ _ | .error _ => some s

/-- Statements one after the other. -/
def run (T : List WatchItem) (s : Watchdog) :
    List Stmt → Option (Watchdog × List Executed)
  | [] => some (s, [])
  | c :: rest =>
      match s.exec T c with
      | none => none
      | some s' =>
          (s'.run T rest).map fun out => (out.1, (s, c) :: out.2)

/-! ## Init and exit -/

/-- The loop of `_watchdog_cleanup_idle_stack` and of
`_watchdog_cleanup_busy_stack`, with `node`. -/
def cleanupLoop (m : MapName) : Nat → Option Nat → Watchdog → Option Watchdog
  | _, none, s => some s
  | 0, some _, _ => none
  | turns + 1, some r, s =>
      match s.erase m r with
      | none => none
      | some s' => cleanupLoop m turns (SortedMap.next r (s.map m)) s'

def cleanup (m : MapName) (s : Watchdog) : Option Watchdog :=
  cleanupLoop m (s.map m).length (s.map m).head? s

/-- `_watchdog_free_records` -/
def freeRecords (s : Watchdog) : Watchdog :=
  { s with records := none, size := 0 }

/-- `_watchdog_reset_callback` -/
def resetCallback (s : Watchdog) : Watchdog := { s with fn := 0, arg := 0 }

/-- `(int)size`, as the bound of a loop from zero. -/
def intSize (size : Nat) : Nat :=
  if size % 2 ^ 32 < 2 ^ 31 then size % 2 ^ 32 else 0

/-- The loop of `eaf_watchdog_init`: false when it goes to `err_register`. -/
def initLoop (T : List WatchItem) :
    Nat → Nat → Watchdog → Option (Watchdog × Bool × List Executed)
  | 0, _, s => some (s, true, [])
  | turns + 1, i, s =>
      match s.run T [.setRec i (i + 1), .setToken i i] with
      | none => none
      | some (s, log) =>
          match s.insert T .idleStack i with
          | none => some (s, false, log)
          | some s' =>
              (initLoop T turns (i + 1) s').map fun out =>
                (out.1, out.2.1, log ++ (s, .insert .idleStack i) :: out.2.2)

/-- The label `err_register` of `eaf_watchdog_init`. -/
def errRegister (s : Watchdog) : Option Watchdog :=
  (s.cleanup .idleStack).map fun s => s.freeRecords.resetCallback

/-- The result of `calloc` is stored. -/
def allocated (T : List WatchItem) (s : Watchdog) : Watchdog :=
  { s with
    records := some (List.replicate T.length .zero)
    size := T.length }

/-- `eaf_watchdog_init`: `memory` is the result of `calloc`, and `registered`
that of `eaf_register`. -/
def eafWatchdogInit (T : List WatchItem) (fn : Fn) (arg : Nat) (memory : Bool)
    (registered : Int) (s : Watchdog) :
    Option (Watchdog × Int × List Executed) :=
  if s.fn ≠ 0 then some (s, Errno.duplicate, [])
  else if ¬ memory then some ({ s with records := none }, Errno.memory, [])
  else
    match (s.allocated T).initLoop T (intSize T.length) 0 with
    | none => none
    | some (s, false, log) =>
        s.errRegister.map fun s => (s, Errno.duplicate, log)
    | some (s, true, log) =>
        let s := { s with fn := fn, arg := arg }
        if registered ≠ Errno.success then
          s.errRegister.map fun s => (s, registered, log)
        else some (s, registered, log)

/-- `eaf_watchdog_exit` -/
def eafWatchdogExit (s : Watchdog) : Option Watchdog :=
  if s.fn = 0 then some s
  else
    ((s.cleanup .idleStack).bind (·.cleanup .busyStack)).map fun s =>
      s.freeRecords.resetCallback

/-! ## Heartbeats -/

/-- `EAF_WATCHDOG_MSG_HEARTBEAT_REQ` -/
def heartbeatReq : UInt32 := 0x00020003

/-- `sizeof(eaf_watchdog_heartbeat_req_t)` -/
def heartbeatReqSize : Nat := 16

/-- `sizeof(eaf_watchdog_heartbeat_rsp_t)` -/
def heartbeatRspSize : Nat := 4

/-- The address of `_watchdog_on_heartbeat_rsp`. -/
def onHeartbeatRspAddress : Fn := 1

/-- The request that `_watchdog_send_request` makes at address `addr`. -/
def request (s : Watchdog) (r : Nat) (addr : MsgRef) : Msg :=
  msgSetToken (msgCreateReq addr heartbeatReq heartbeatReqSize
    onHeartbeatRspAddress) (s.record r).token

/-- `_watchdog_find_record_by_token` -/
def findRecordByToken (s : Watchdog) (token : Int) : Option Nat :=
  s.busyTable.find? fun r => token - (s.record r).token = 0

/-- The end time that `_watchdog_check_idle` calculates. -/
def nextEnd (T : List WatchItem) (now : ClockTime) (s : Watchdog) (r : Nat) :
    ClockTime :=
  let dif := (timeAddclockMsec ⟨0, 0⟩ (s.item T r).timeout.toUInt64).1
  (timeAddclockExt (s.record r).endTime now dif timeIgnoreOverflow).1

/-- One turn of the loop of `_watchdog_check_idle`, for a record whose time has
come. -/
def idleTurn (T : List WatchItem) (now : ClockTime) (sent : SendResult)
    (s : Watchdog) (r : Nat) : List Stmt :=
  [.erase .idleStack r, .setBegin r now, .setEnd r (s.nextEnd T now r),
    .send r (s.request r sent.addr) sent.ret] ++
    if sent.ret < 0 then []
    else [.insert .busyStack r, .insert .busyTable r]

/-- The loop of `_watchdog_check_idle`, with `it`. -/
def idleLoop (T : List WatchItem) (now : ClockTime)
    (sends : Nat → SendResult) :
    Nat → Option Nat → Watchdog → Option (Watchdog × List Executed)
  | _, none, s => some (s, [])
  | 0, some _, _ => none
  | turns + 1, some r, s =>
      if (timeDiffclock now (s.record r).beginTime).1 < 0 then some (s, [])
      else
        match s.run T (s.idleTurn T now (sends r) r) with
        | none => none
        | some (s', log) =>
            (idleLoop T now sends turns (SortedMap.next r s.idleStack) s').map
              fun out => (out.1, log ++ out.2)

/-- `_watchdog_check_idle` -/
def checkIdle (T : List WatchItem) (now : ClockTime)
    (sends : Nat → SendResult) (s : Watchdog) :
    Option (Watchdog × List Executed) :=
  s.idleLoop T now sends s.idleStack.length s.idleStack.head?

/-- The body of the loop of `_watchdog_check_busy`: does it report an error? -/
def busyError (T : List WatchItem) (s : Watchdog) (r : Nat) : Bool :=
  let x := s.item T r
  let cmp := (timeAddclockMsec (s.record r).endTime
    (x.timeout * x.jitter).toUInt64).1
  (timeDiffclock (s.record r).endTime cmp).1 > 0

/-- The loop of `_watchdog_check_busy`, with `it`. -/
def busyLoop (T : List WatchItem) (now : ClockTime) (s : Watchdog) :
    Nat → Option Nat → List Executed
  | _, none => []
  | 0, some _ => []
  | turns + 1, some r =>
      if (timeDiffclock now (s.record r).endTime).1 < 0 then []
      else
        (if s.busyError T r then [(s, .error (s.item T r).sid)] else []) ++
          busyLoop T now s turns (SortedMap.next r s.busyStack)

/-- `_watchdog_check_busy` -/
def checkBusy (T : List WatchItem) (now : ClockTime) (s : Watchdog) :
    List Executed :=
  s.busyLoop T now s.busyStack.length s.busyStack.head?

/-- `_watchdog_on_timer`, which reads the clock at `now` and lets the timer
call it again. -/
def onTimer (T : List WatchItem) (now : ClockTime) (sends : Nat → SendResult)
    (s : Watchdog) : Option (Watchdog × List Executed) :=
  (s.checkIdle T now sends).map fun out =>
    (out.1, out.2 ++ out.1.checkBusy T now)

/-- `record->data.cerrc` after a response at `now`. -/
def nextCerrc (now : ClockTime) (x : WatchdogRecord) : UInt64 :=
  if (timeDiffclock now x.endTime).1 > 0 then x.cerrc + 1 else 0

/-- `_watchdog_on_heartbeat_rsp` for the record that has been found, with the
clock at `now`. -/
def rspStmts (T : List WatchItem) (now : ClockTime) (s : Watchdog) (r : Nat) :
    List Stmt :=
  let cerrc := nextCerrc now (s.record r)
  [.erase .busyTable r, .erase .busyStack r, .setBegin r now,
    .setCerrc r cerrc] ++
    (if cerrc.toNat > (s.item T r).jitter.toNat then
      [.error (s.item T r).sid] else []) ++
    [.setBegin r (timeAddclockMsec now (s.item T r).interval.toUInt64).1,
      .insert .idleStack r]

/-- `_watchdog_on_heartbeat_rsp`; `none` when the assertion on the record
fails. -/
def onHeartbeatRsp (T : List WatchItem) (now : ClockTime) (msg : Msg)
    (s : Watchdog) : Option (Watchdog × List Executed) :=
  match s.findRecordByToken (msgGetToken msg) with
  | none => none
  | some r => s.run T (s.rspStmts T now r)

end Watchdog

/-! ## Runs -/

/-- What the watchdog has to handle. -/
inductive WatchdogAct
  /-- the timer -/
  | tick (now : ClockTime) (sends : Nat → SendResult)
  /-- a response that comes from a service -/
  | rsp (sender : UInt32) (msg : Msg) (now : ClockTime)

/-- What has been handled, in which context, and the statements of it. -/
structure Handled where
  act : WatchdogAct
  before : Watchdog
  log : List Executed

namespace Watchdog

/-- One step. -/
def step (T : List WatchItem) (s : Watchdog) (a : WatchdogAct) :
    Option (Watchdog × List Handled) :=
  let out := match a with
    | .tick now sends => s.onTimer T now sends
    | .rsp _ msg now => s.onHeartbeatRsp T now msg
  out.map fun out => (out.1, [⟨a, s, out.2⟩])

end Watchdog

/-- Runs of the watchdog, from some context on. -/
abbrev WatchdogRun (T : List WatchItem) (start : Watchdog) (tr : List Handled)
    (s : Watchdog) : Prop :=
  Run (Guarded (Watchdog.step T) fun _ _ => True) start tr s

end Powerpack
end Eaf
