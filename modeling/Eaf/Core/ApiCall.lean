import Eaf.Core.GroupWorker

/-!
# API calls in progress

The public functions of `core/service.c` that threads call while the system
runs.  A call in progress is a program point together with its arguments; the
constructors of `Call` name the next thing the call will do, one access to
shared data each.  A thread has one call in progress at most.  The thread of
a group worker makes calls too, from inside the callbacks it runs.
-/

namespace Eaf
namespace Core

/-- The threads that make API calls. -/
inductive Tid
  | client (t : Nat)
  | worker (g : Nat)
  deriving DecidableEq, Repr

/-- The public functions whose results are observed. -/
inductive Api
  | sendReq
  | sendRsp
  | resume
  | teardown
  | exit
  | load
  | cleanup
  | init
  deriving DecidableEq, Repr

/-- `eaf_send_req` or `eaf_send_rsp`. -/
inductive SendKind
  | req
  | rsp
  deriving DecidableEq, Repr

def SendKind.api : SendKind → Api
  | .req => .sendReq
  | .rsp => .sendRsp

theorem SendKind.api_injective : Function.Injective SendKind.api := by
  intro k k' h
  cases k <;> cases k' <;> first | rfl | cases h

/-- The arguments of a send.  With `loan` the caller holds no reference of its
own: it sends the message that its handler was entered with. -/
structure SendArgs where
  kind : SendKind
  /-- `from` -/
  src : UInt32
  /-- `to` -/
  dst : UInt32
  msg : MsgRef
  loan : Bool
  deriving DecidableEq, Repr

/-- An API call in progress, or the result of the last one. -/
inductive Call
  | idle
  | done (code : Int)
  /-- the test of the context state in `eaf_send_req` / `eaf_send_rsp` -/
  | sendTest (a : SendArgs)
  /-- `on_message_send_before` -/
  | sendHook (a : SendArgs)
  /-- lookup of the service and of the request handler -/
  | sendFind (a : SendArgs)
  /-- the capacity test of `_eaf_service_push_msg` -/
  | pushTest (a : SendArgs) (g i : Nat) (fn : Option Fn)
  /-- allocation of the record and `eaf_msg_add_ref` -/
  | pushAlloc (a : SendArgs) (g i : Nat) (fn : Option Fn)
  /-- the locked part -/
  | pushLock (a : SendArgs) (g i : Nat) (r : MsgqRecord)
  /-- the roll-back after the locked part refused the record -/
  | pushRevert (a : SendArgs) (r : MsgqRecord)
  /-- about to post the group's semaphore -/
  | pushPost (a : SendArgs) (g : Nat)
  /-- `on_message_send_after` -/
  | sendAfter (a : SendArgs) (code : Int)
  /-- lookup in `eaf_resume` -/
  | resumeFind (id : UInt32)
  /-- its locked part -/
  | resumeLock (g i : Nat)
  /-- about to post the group's semaphore -/
  | resumePost (g : Nat)
  /-- the guard of `eaf_teardown` or `eaf_exit` -/
  | exitTest (td : Bool) (reason : Int)
  /-- `on_exit_before` in `_eaf_exit` -/
  | exitHook (td : Bool) (reason : Int)
  /-- the stores of `_eaf_exit` -/
  | exitWrite (td : Bool) (reason : Int)
  /-- its loop over the groups -/
  | exitPost (td : Bool) (k : Nat)
  /-- the guard of `eaf_load` -/
  | loadTest
  /-- `on_load_before` -/
  | loadHook
  /-- `_eaf_load_fix_state` at group `k` -/
  | loadFix (k : Nat)
  /-- the store `state = busy` -/
  | loadWrite
  /-- the posts that start the workers -/
  | loadPost (k : Nat)
  /-- the waits for `ready`; `k` of them are over -/
  | loadPend (k : Nat)
  /-- `on_load_after` -/
  | loadAfter (code : Int)
  /-- the guard of `eaf_cleanup` -/
  | cleanTest
  /-- waiting for the thread of group `k` -/
  | cleanJoin (k : Nat)
  /-- `_eaf_cleanup_msgq` on service `i` of group `k` -/
  | cleanMsgq (k i : Nat)
  /-- about to free the context -/
  | cleanFree
  /-- the guard of `eaf_init` -/
  | initTest
  deriving DecidableEq, Repr

namespace Call

/-- The thread is outside the API. -/
def free : Call → Bool
  | .idle | .done _ => true
  | _ => false

/-- The call is at a guard, which also tests that the context exists. -/
def atGuard : Call → Bool
  | .sendTest _ | .exitTest _ _ | .loadTest | .cleanTest | .initTest => true
  | _ => false

/-- The call is one of `eaf_load` or `eaf_cleanup`. -/
def ofMain : Call → Bool
  | .loadTest | .loadHook | .loadFix _ | .loadWrite | .loadPost _ | .loadPend _
  | .loadAfter _ | .cleanTest | .cleanJoin _ | .cleanMsgq _ _ | .cleanFree =>
      true
  | _ => false

/-- The arguments of a send in progress. -/
def send? : Call → Option SendArgs
  | .sendTest a | .sendHook a | .sendFind a | .pushTest a _ _ _
  | .pushAlloc a _ _ _ | .pushLock a _ _ _ | .pushRevert a _
  | .pushPost a _ | .sendAfter a _ => some a
  | _ => none

/-- The message a hook of the send is being shown. -/
def hooked? : Call → Option MsgRef
  | .sendHook a | .sendAfter a _ => some a.msg
  | _ => none

end Call

/-- A call of a public function. -/
inductive Request
  | send (a : SendArgs)
  | resume (id : UInt32)
  | teardown
  | exit (reason : Int)
  | load
  | cleanup
  | init
  deriving DecidableEq, Repr

/-- The first program point of a call. -/
def Request.start : Request → Call
  | .send a => .sendTest a
  | .resume id => .resumeFind id
  | .teardown => .exitTest true 0
  | .exit reason => .exitTest false reason
  | .load => .loadTest
  | .cleanup => .cleanTest
  | .init => .initTest

/-- Program points at which the worker runs user code, from which API calls
can be made. -/
def Pc.inCallback : Pc → Bool
  | .inInit _ _ | .hookBefore _ _ | .inHandler _ _ | .hookYield _ _
  | .hookAfter _ _ | .tdInExit _ | .exInExit _ => true
  | _ => false

/-- The message that the user code the worker is running was handed. -/
def Group.current? (G : Group) : Option MsgRef :=
  match G.worker with
  | .hookBefore _ i | .inHandler _ i | .hookAfter _ i =>
      (G.table i).curMsg.map (·.msg)
  | _ => none

end Core
end Eaf
