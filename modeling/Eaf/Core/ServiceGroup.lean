import Mathlib.Logic.Function.Basic
import Mathlib.Tactic.Simps.Basic
import Eaf.Core.Layout

/-!
# Service groups

The run-time part of `eaf_group_t` and `eaf_service_t`, and the operations of
`core/service.c` on them that run under the group lock.  Each of them is one
step of the running system.  The two coroutine lists hold the indices of the
services whose nodes are linked into them.
-/

namespace Eaf
namespace Core

/-- `eaf_ctx_state_t` -/
inductive CtxState
  | init
  | busy
  | teardown
  | exit
  deriving DecidableEq, Repr

/-- `eaf_service_state_t` -/
inductive ServiceState
  | init0
  | init1
  | init2
  | idle
  | busy
  | yield
  | exit0
  | exit1
  deriving DecidableEq, Repr

/-- The states whose services are kept on `busy_list`; all others are kept on
`wait_list`. -/
def ServiceState.onBusyList : ServiceState → Bool
  | .init1 | .busy | .exit0 => true
  | .init0 | .init2 | .idle | .yield | .exit1 => false

/-- The mutable part of `eaf_service_t`. -/
structure Service where
  /-- `runtime.local.state` -/
  state : ServiceState
  /-- `runtime.local.branch` -/
  branch : Nat
  /-- `msgq.cur_msg` -/
  curMsg : Option MsgqRecord
  /-- `msgq.queue` -/
  queue : List MsgqRecord
  deriving DecidableEq, Repr

/-- A service as `_eaf_init_service` leaves it. -/
def Service.initial : Service := ⟨.init0, 0, none, []⟩

/-- The two event loops of `_eaf_thread`. -/
inductive Phase
  | busy
  | teardown
  deriving DecidableEq, Repr

/-- The context state in which an event loop goes on. -/
def Phase.ctx : Phase → CtxState
  | .busy => .busy
  | .teardown => .teardown

/-- The return statements of `_eaf_thread`: thread storage failed, the context
was not busy after the wait, no service was initialised, end of function. -/
inductive ReturnSite
  | storage
  | notBusy
  | noService
  | finished
  deriving DecidableEq, Repr

/-- Who called `_eaf_do_service_init`: `_eaf_group_init_necessary` with its
counter, or the event loop. -/
inductive InitCaller
  | scan (counter : Int)
  | loop (ph : Phase)
  deriving DecidableEq, Repr

/-- Where a group's worker thread is.  A worker at `inInit`, `inHandler`,
`tdInExit`, `exInExit` or one of the `hook…` points is running user code. -/
inductive Pc
  /-- before `eaf_thread_storage_set` -/
  | enter
  /-- the test of `while (state == init)` -/
  | startTest
  /-- the wait in that loop -/
  | startPend
  /-- `if (state != busy)` -/
  | startCheck
  /-- `_eaf_group_init_necessary` at index `idx` -/
  | initScan (idx : Nat) (counter : Int)
  /-- inside `on_init` -/
  | inInit (idx : Nat) (caller : InitCaller)
  /-- about to post `ready` -/
  | postReady (initCount : Int)
  /-- the test of an event loop -/
  | loopTest (ph : Phase)
  /-- `_eaf_get_first_busy_service_lock` -/
  | pickBusy (ph : Phase)
  /-- the unbounded wait of the event loop -/
  | semPend (ph : Phase)
  /-- the wait with timeout zero -/
  | semTryPend (ph : Phase) (i : Nat)
  /-- entry of `_eaf_handle_new_message` -/
  | handle (ph : Phase) (i : Nat)
  /-- its assertion and the test of `cur_msg` -/
  | dispatch (ph : Phase) (i : Nat)
  /-- the locked pop -/
  | popMsg (ph : Phase) (i : Nat)
  /-- `on_message_handle_before` -/
  | hookBefore (ph : Phase) (i : Nat)
  /-- inside a request or response handler -/
  | inHandler (ph : Phase) (i : Nat)
  /-- the test of the yield bit -/
  | handled (ph : Phase) (i : Nat)
  /-- the yield hooks -/
  | hookYield (ph : Phase) (i : Nat)
  /-- `on_message_handle_after` -/
  | hookAfter (ph : Phase) (i : Nat)
  /-- `_eaf_service_reset` -/
  | resetMsg (ph : Phase) (i : Nat)
  /-- `if (state == teardown)` -/
  | tdTest
  /-- `_eaf_service_teardown` at index `i` -/
  | tdScan (i : Nat)
  /-- inside `on_exit`, called from there -/
  | tdInExit (i : Nat)
  /-- `_eaf_service_teardown_hanle_message_nolock`; `cur` tells whether the
  record is `cur_msg` or was popped from the queue -/
  | tdMsg (i : Nat) (r : MsgqRecord) (cur : Bool)
  /-- inside `eaf_send_rsp`, called from there -/
  | tdSend (i : Nat) (r : MsgqRecord) (rsp : MsgRef) (cur : Bool)
  /-- about to destroy the record -/
  | tdFree (i : Nat) (r : MsgqRecord) (cur : Bool)
  /-- the locked pop of `_eaf_service_teardown_cleanup_msgq` -/
  | tdPop (i : Nat)
  /-- about to set `exit1` -/
  | tdExit1 (i : Nat)
  /-- `_eaf_group_exit`; the services from `k` on are done -/
  | exitScan (k : Nat)
  /-- inside `on_exit`, called from there -/
  | exInExit (i : Nat)
  | returned (site : ReturnSite)
  deriving DecidableEq, Repr

/-- The mutable part of `eaf_group_t`. -/
structure Group where
  /-- `service.table` -/
  table : Nat → Service
  /-- `coroutine.busy_list` -/
  busyList : List Nat
  /-- `coroutine.wait_list` -/
  waitList : List Nat
  /-- `coroutine.cur_run` -/
  curRun : Option Nat
  /-- the yield bit of `coroutine.local.cc[0]` -/
  cc0 : Bool
  /-- `msgq.sem` -/
  sem : Nat
  /-- `working` -/
  worker : Pc

/-- A group as `_eaf_init_group` leaves it. -/
def Group.initial (c : GroupTable) : Group where
  table := fun _ => .initial
  busyList := []
  waitList := List.range c.size
  curRun := none
  cc0 := false
  sem := 0
  worker := .enter

namespace Group

/-- Let the worker go on at `pc`. -/
@[simps -fullyApplied]
def goto (G : Group) (pc : Pc) : Group := { G with worker := pc }

/-- Replace one service. -/
@[simps -fullyApplied]
def setService (G : Group) (i : Nat) (S : Service) : Group :=
  { G with table := Function.update G.table i S }

/-- `eaf_compat_sem_post(&group->msgq.sem)` -/
@[simps -fullyApplied]
def semPost (G : Group) : Group := { G with sem := G.sem + 1 }

/-- `_eaf_service_set_state_nolock`: unlink the node from the list of the old
state, append it to the list of the new state, store the new state. -/
@[simps -fullyApplied table curRun cc0 sem worker]
def setState (G : Group) (i : Nat) (st : ServiceState) : Group :=
  { G with
    busyList :=
      (if (G.table i).state.onBusyList then G.busyList.erase i
        else G.busyList) ++ if st.onBusyList then [i] else []
    waitList :=
      (if (G.table i).state.onBusyList then G.waitList
        else G.waitList.erase i) ++ if st.onBusyList then [] else [i]
    table := Function.update G.table i { G.table i with state := st } }

/-- `_eaf_get_first_busy_service_lock` -/
def firstBusy (G : Group) : Option Nat := G.busyList.head?

/-- `_eaf_group_finish_service_init_lock` -/
def finishServiceInit (G : Group) (i : Nat) : Group :=
  if ((G.setState i .idle).table i).queue.length > 0 then
    (G.setState i .idle).setState i .busy
  else G.setState i .idle

/-- The state `_eaf_load_fix_state` gives to a service. -/
def loadState (t : ServiceTable) : ServiceState :=
  if t.entry.isNone then .exit1
  else if t.lazyload then .init2
  else .init1

/-- `_eaf_load_fix_state` on one group. -/
def loadFixState (c : GroupTable) (G : Group) : Group :=
  (List.range c.size).foldl (fun G i => G.setState i (loadState (c.row i))) G

/-- What the locked part of `_eaf_service_push_msg` makes of a service state
other than `exit0`. -/
def pushState (G : Group) (i : Nat) : Group :=
  match (G.table i).state with
  | .init2 => G.setState i .init1
  | .idle => G.setState i .busy
  | _ => G

/-- The locked part of `_eaf_service_push_msg`; `none` when the record is
refused. -/
def pushMsg (G : Group) (i : Nat) (r : MsgqRecord) : Option Group :=
  if (G.table i).state = .exit0 then none
  else
    some ((G.pushState i).setService i
      { (G.pushState i).table i with queue := (G.table i).queue ++ [r] })

/-- The locked part of `eaf_resume`; `none` when the service has not
yielded. -/
def resumeService (G : Group) (i : Nat) : Option Group :=
  if (G.table i).state = .yield then some (G.setState i .busy) else none

end Group

/-! ## Derived facts about the composite operations -/

/-- Replacing one service does not bring a state about that the new service
does not have. -/
theorem state_of_update {T : Nat → Service} {S : Service} {i j : Nat}
    {st : ServiceState} (h : (Function.update T j S i).state = st)
    (hS : S.state = st → (T j).state = st) : (T i).state = st := by
  by_cases hij : i = j
  · subst hij
    exact hS (by simpa using h)
  · simpa [hij] using h

namespace Group

variable (G : Group) (i : Nat)

/-- The queue decides what a freshly initialised service turns to. -/
def initDoneState (S : Service) : ServiceState :=
  if S.queue.length > 0 then .busy else .idle

@[simp] theorem finishServiceInit_table :
    (G.finishServiceInit i).table =
      Function.update G.table i
        { G.table i with state := initDoneState (G.table i) } := by
  unfold finishServiceInit initDoneState
  split <;> simp_all

@[simp] theorem finishServiceInit_worker :
    (G.finishServiceInit i).worker = G.worker := by
  unfold finishServiceInit
  split <;> rfl

@[simp] theorem finishServiceInit_sem :
    (G.finishServiceInit i).sem = G.sem := by
  unfold finishServiceInit
  split <;> rfl

/-- The state a service has after a record was pushed. -/
def pushedState : ServiceState → ServiceState
  | .init2 => .init1
  | .idle => .busy
  | st => st

theorem pushState_table :
    (G.pushState i).table =
      Function.update G.table i
        { G.table i with state := pushedState (G.table i).state } := by
  unfold pushState
  cases hst : (G.table i).state <;> simp [pushedState, ← hst]

@[simp] theorem pushState_worker : (G.pushState i).worker = G.worker := by
  unfold pushState
  split <;> rfl

@[simp] theorem pushState_sem : (G.pushState i).sem = G.sem := by
  unfold pushState
  split <;> rfl

/-- A record is refused in `exit0` only; otherwise it is appended to the queue,
and nothing but the service and the lists changes. -/
theorem pushMsg_some {G G' : Group} {i : Nat} {r : MsgqRecord}
    (h : G.pushMsg i r = some G') :
    (G.table i).state ≠ .exit0 ∧
      G'.table = Function.update G.table i { G.table i with
        state := pushedState (G.table i).state
        queue := (G.table i).queue ++ [r] } ∧
      G'.worker = G.worker ∧ G'.sem = G.sem := by
  unfold pushMsg at h
  split at h
  · cases h
  next hst =>
    cases h
    exact ⟨hst, by simp [pushState_table], by simp, by simp⟩

/-- Only a yielded service is resumed, and only its state and the lists
change. -/
theorem resumeService_some {G G' : Group} {i : Nat}
    (h : G.resumeService i = some G') :
    (G.table i).state = .yield ∧ G' = G.setState i .busy := by
  unfold resumeService at h
  split at h
  next hst =>
    cases h
    exact ⟨hst, rfl⟩
  · cases h

/-- Fixing the states one after the other fixes all of them. -/
theorem foldl_setState_table (state : Nat → ServiceState) (indices : List Nat)
    (G : Group) (j : Nat) :
    (indices.foldl (fun G i => G.setState i (state i)) G).table j =
      if j ∈ indices then { G.table j with state := state j }
      else G.table j := by
  induction indices generalizing G with
  | nil => simp
  | cons i rest ih =>
      rw [List.foldl_cons, ih]
      by_cases hj : j = i
      · subst hj
        simp
      · simp [hj]

@[simp] theorem loadFixState_table (c : GroupTable) (G : Group) (j : Nat) :
    (G.loadFixState c).table j =
      if j < c.size then { G.table j with state := loadState (c.row j) }
      else G.table j := by
  simp [loadFixState, foldl_setState_table]

/-- What no change of a service state changes, fixing the states does not
change either. -/
theorem loadFixState_frame {α : Type*} (f : Group → α)
    (hf : ∀ G i st, f (setState G i st) = f G) (c : GroupTable) (G : Group) :
    f (G.loadFixState c) = f G := by
  unfold loadFixState
  generalize List.range c.size = indices
  induction indices generalizing G with
  | nil => rfl
  | cons i rest ih => rw [List.foldl_cons, ih, hf]

@[simp] theorem loadFixState_worker (c : GroupTable) (G : Group) :
    (G.loadFixState c).worker = G.worker :=
  loadFixState_frame Group.worker (fun _ _ _ => rfl) c G

@[simp] theorem loadFixState_sem (c : GroupTable) (G : Group) :
    (G.loadFixState c).sem = G.sem :=
  loadFixState_frame Group.sem (fun _ _ _ => rfl) c G

end Group

end Core
end Eaf
