import Eaf.Foundation.Completion
import Mathlib.Tactic.Simps.Basic

/-!
# The loop thread of PowerPack

`eaf_powerpack_init` starts a thread that waits until `eaf_load` dials the
initialise point, calls the `on_loop_init` callbacks, runs the libuv loop until
it is told to stop, and then answers the exit point.  The exit point is dialled
by the hook that `eaf_cleanup` calls and again by `eaf_powerpack_exit`.

The two threads take one step per access to what they share.  What `eaf_load`,
`eaf_exit` and `eaf_cleanup` do to the services in between does not touch the
loop thread and is one step here.  The handles that hooks add to the loop are
theirs to close in `on_loop_exit`, so the loop ends when its own async handle
is closed.
-/

namespace Eaf
namespace Powerpack

open LabelledRun

/-! ## `pp_sync_t` -/

/-- `pp_sync_t` -/
structure PpSync where
  haveReq : Bool
  haveRsp : Bool
  /-- `code.req` -/
  req : Int
  /-- `code.rsp` -/
  rsp : Int
  semReq : Nat
  semRsp : Nat
  deriving DecidableEq, Repr

namespace PpSync

/-- `pp_sync_init` -/
def init : PpSync := ⟨false, false, 0, 0, 0, 0⟩

/-- The lock section of `pp_sync_dial`. -/
@[simps -fullyApplied]
def request (p : PpSync) (req : Int) : PpSync :=
  { p with req := req, haveReq := true }

/-- The lock section of `pp_sync_answer`. -/
@[simps -fullyApplied]
def respond (p : PpSync) (rsp : Int) : PpSync :=
  { p with rsp := rsp, haveRsp := true }

/-- `uv_sem_post(&handle->sync.sem_req)` -/
@[simps -fullyApplied]
def postReq (p : PpSync) : PpSync := { p with semReq := p.semReq + 1 }

/-- `uv_sem_post(&handle->sync.sem_rsp)` -/
@[simps -fullyApplied]
def postRsp (p : PpSync) : PpSync := { p with semRsp := p.semRsp + 1 }

/-- A successful wait for a request. -/
@[simps -fullyApplied]
def takeReq (p : PpSync) : PpSync := { p with semReq := p.semReq - 1 }

/-- A successful wait for a response. -/
@[simps -fullyApplied]
def takeRsp (p : PpSync) : PpSync := { p with semRsp := p.semRsp - 1 }

end PpSync

/-! ## The two threads -/

/-- The callbacks of `eaf_powerpack_hook_t` that run in the loop thread: what
`on_loop_init` returns, and whether there is an `on_loop_exit`. -/
structure LoopHook where
  onLoopInit : Option Int
  onLoopExit : Bool
  deriving DecidableEq, Repr

/-- The hook does not stop the start of the loop. -/
def LoopHook.starts (h : LoopHook) : Bool :=
  match h.onLoopInit with
  | none => true
  | some ret => decide (0 ≤ ret)

/-- What the program does between `eaf_powerpack_init` and
`eaf_powerpack_exit`: the hooks it registers, and whether it calls
`eaf_load`. -/
structure LifeCycle where
  hooks : List LoopHook
  load : Bool
  deriving DecidableEq, Repr

/-- The calls of `pp_sync_dial_once`: `_pp_hook_on_load_before`, and
`_pp_notify_exit_thread` called from `_pp_hook_on_exit_after` or from
`_pp_exit_pp_ctx`. -/
inductive DialSite
  | load
  | cleanup
  | ppExit
  deriving DecidableEq, Repr

/-- Where the main thread is. -/
inductive MainPc
  /-- registering hooks; `k` are registered -/
  | register (k : Nat)
  /-- the lock section of `pp_sync_dial_once` -/
  | dialTest (d : DialSite)
  /-- the lock section of `pp_sync_dial` -/
  | dialReq (d : DialSite)
  /-- its post -/
  | dialPost (d : DialSite)
  /-- its wait for the response -/
  | dialWait (d : DialSite)
  /-- `eaf_load` behind its first hook -/
  | loadRest
  /-- `eaf_exit` -/
  | exit
  /-- `eaf_cleanup` up to its hook -/
  | cleanup
  /-- `looping = 0` in `_pp_notify_exit_thread` -/
  | stopLooping (d : DialSite)
  /-- `uv_is_active` and `uv_async_send` there -/
  | wakeLoop (d : DialSite)
  /-- `eaf_thread_destroy` -/
  | join
  /-- the end of `eaf_powerpack_exit` -/
  | close
  | returned
  deriving DecidableEq, Repr

/-- Where the loop thread is. -/
inductive LoopPc
  /-- `pp_sync_wait(&init_point)` -/
  | waitInit
  /-- `_pp_call_init` at hook `k` -/
  | callInit (k : Nat)
  /-- `_pp_call_exit(idx)` at hook `i`, after a failure -/
  | failExit (idx i : Nat)
  /-- the lock section of `pp_sync_answer(&init_point, …)` -/
  | answerInit (ok : Bool)
  /-- its post -/
  | postInit (ok : Bool)
  /-- in `uv_run` -/
  | loop
  /-- `_pp_call_exit` at hook `i`, in the async callback -/
  | callExit (i : Nat)
  /-- `uv_close` of the async handle -/
  | closeAsync
  /-- `pp_sync_wait(&exit_point)` -/
  | waitExit
  /-- the lock section of the answer -/
  | answerExit (req : Int)
  /-- its post -/
  | postExit
  /-- the thread is over; `ok` tells by which of its two ends -/
  | returned (ok : Bool)
  deriving DecidableEq, Repr

/-- The state the two threads share, and where they are. -/
structure Life where
  main : MainPc
  loop : LoopPc
  initPoint : PpSync
  exitPoint : PpSync
  /-- `hook.table` -/
  table : List LoopHook
  /-- `mask.looping` -/
  looping : Bool
  /-- `uv_is_active` of the async handle -/
  active : Bool
  /-- an `uv_async_send` the loop has not seen -/
  pending : Bool
  deriving DecidableEq, Repr

/-- A step of the main thread, a step of the loop thread, or a step of the loop
thread that calls a callback of hook `i`. -/
inductive LifeEvent
  | main
  | loop
  | loopInit (i : Nat)
  | loopExit (i : Nat)
  deriving DecidableEq, Repr

namespace Life

/-- After `eaf_powerpack_init`. -/
def initial : Life where
  main := .register 0
  loop := .waitInit
  initPoint := .init
  exitPoint := .init
  table := []
  looping := false
  active := true
  pending := false

@[simps -fullyApplied]
def setMain (s : Life) (pc : MainPc) : Life := { s with main := pc }

@[simps -fullyApplied]
def setLoop (s : Life) (pc : LoopPc) : Life := { s with loop := pc }

/-- The point that is dialled. -/
def point (s : Life) : DialSite → PpSync
  | .load => s.initPoint
  | .cleanup | .ppExit => s.exitPoint

/-- That point changes. -/
def setPoint (s : Life) (d : DialSite) (p : PpSync) : Life :=
  match d with
  | .load => { s with initPoint := p }
  | .cleanup | .ppExit => { s with exitPoint := p }

/-- Where the main thread goes on after the dial. -/
def afterDial : DialSite → MainPc
  | .load => .loadRest
  | .cleanup => .stopLooping .ppExit
  | .ppExit => .join

/-- The next step of the main thread. -/
def mainStep (c : LifeCycle) (s : Life) : Option Life :=
  match s.main with
  | .register k =>
      match c.hooks[k]? with
      | some hook =>
          some ({ s with table := s.table ++ [hook] }.setMain (.register (k + 1)))
      | none => some (s.setMain (if c.load then .dialTest .load else .exit))
  | .dialTest d =>
      some (s.setMain (if (s.point d).haveRsp then afterDial d else .dialReq d))
  | .dialReq d =>
      some ((s.setPoint d ((s.point d).request 0)).setMain (.dialPost d))
  | .dialPost d =>
      some ((s.setPoint d (s.point d).postReq).setMain (.dialWait d))
  | .dialWait d =>
      if (s.point d).semRsp = 0 then none
      else some ((s.setPoint d (s.point d).takeRsp).setMain (afterDial d))
  | .loadRest => some (s.setMain .exit)
  | .exit => some (s.setMain .cleanup)
  | .cleanup => some (s.setMain (.stopLooping .cleanup))
  | .stopLooping d => some ({ s with looping := false }.setMain (.wakeLoop d))
  | .wakeLoop d =>
      some ({ s with pending := s.pending || s.active }.setMain (.dialTest d))
  | .join =>
      match s.loop with
      | .returned _ => some (s.setMain .close)
      | _ => none
  | .close =>
      -- an async handle that is still open is closed by a run of the loop
      some ({ s with active := false, table := [] }.setMain .returned)
  | .returned => none

/-- The next step of the loop thread. -/
def loopStep (s : Life) : Option (Life × List LifeEvent) :=
  match s.loop with
  | .waitInit =>
      if s.initPoint.semReq = 0 then none
      else
        some ({ s with initPoint := s.initPoint.takeReq }.setLoop (.callInit 0),
          [.loop])
  | .callInit k =>
      match s.table[k]? with
      | none => some (s.setLoop (.answerInit true), [.loop])
      | some hook =>
          match hook.onLoopInit with
          | none => some (s.setLoop (.callInit (k + 1)), [.loop])
          | some ret =>
              some (s.setLoop (if ret < 0 then .failExit k 0
                else .callInit (k + 1)), [.loopInit k])
  | .failExit idx i =>
      match s.table[i]? with
      | none => some (s.setLoop (.answerInit false), [.loop])
      | some hook =>
          if i < idx then
            some (s.setLoop (.failExit idx (i + 1)),
              [if hook.onLoopExit then .loopExit i else .loop])
          else some (s.setLoop (.answerInit false), [.loop])
  | .answerInit ok =>
      some ({ s with
        initPoint := s.initPoint.respond (if ok then 0 else -1)
        }.setLoop (.postInit ok), [.loop])
  | .postInit ok =>
      some ({ s with initPoint := s.initPoint.postRsp }.setLoop
        (if ok then .loop else .returned false), [.loop])
  | .loop =>
      if s.active then
        if s.pending then
          some ({ s with pending := false }.setLoop
            (if s.looping then .loop else .callExit 0), [.loop])
        else none
      -- `uv_run` returns when nothing is active
      else some (s.setLoop .waitExit, [.loop])
  | .callExit i =>
      match s.table[i]? with
      | none => some (s.setLoop .closeAsync, [.loop])
      | some hook =>
          some (s.setLoop (.callExit (i + 1)),
            [if hook.onLoopExit then .loopExit i else .loop])
  | .closeAsync => some ({ s with active := false }.setLoop .loop, [.loop])
  | .waitExit =>
      if s.exitPoint.semReq = 0 then none
      else
        some ({ s with exitPoint := s.exitPoint.takeReq }.setLoop
          (.answerExit s.exitPoint.req), [.loop])
  | .answerExit req =>
      some ({ s with exitPoint := s.exitPoint.respond req }.setLoop .postExit,
        [.loop])
  | .postExit =>
      some ({ s with exitPoint := s.exitPoint.postRsp }.setLoop
        (.returned true), [.loop])
  | .returned _ => none

/-- One of the two threads moves. -/
def step (c : LifeCycle) (s : Life) : Bool → Option (Life × List LifeEvent)
  | true => (s.mainStep c).map fun t => (t, [.main])
  | false => s.loopStep

end Life

/-- The step relation of a life cycle. -/
abbrev LifeStep (c : LifeCycle) : Life → List LifeEvent → Life → Prop :=
  Guarded (Life.step c) fun _ _ => True

/-- The runs of a life cycle. -/
abbrev LifeRun (c : LifeCycle) (tr : List LifeEvent) (s : Life) : Prop :=
  Run (LifeStep c) .initial tr s

/-! ## The transitions -/

variable {c : LifeCycle} {s t : Life} {events : List LifeEvent}

/-- The transitions of the main thread. -/
inductive MainTrans (c : LifeCycle) (s : Life) : Life → Prop
  | registered {k hook} (h : s.main = .register k) (hk : c.hooks[k]? = some hook) :
      MainTrans c s
        ({ s with table := s.table ++ [hook] }.setMain (.register (k + 1)))
  | allRegistered {k} (h : s.main = .register k) (hk : c.hooks[k]? = none) :
      MainTrans c s (s.setMain (if c.load then .dialTest .load else .exit))
  | dialled {d} (h : s.main = .dialTest d) (hrsp : (s.point d).haveRsp = true) :
      MainTrans c s (s.setMain (Life.afterDial d))
  | dial {d} (h : s.main = .dialTest d) (hrsp : (s.point d).haveRsp = false) :
      MainTrans c s (s.setMain (.dialReq d))
  | request {d} (h : s.main = .dialReq d) :
      MainTrans c s
        ((s.setPoint d ((s.point d).request 0)).setMain (.dialPost d))
  | post {d} (h : s.main = .dialPost d) :
      MainTrans c s ((s.setPoint d (s.point d).postReq).setMain (.dialWait d))
  | answered {d} (h : s.main = .dialWait d) (hsem : 0 < (s.point d).semRsp) :
      MainTrans c s
        ((s.setPoint d (s.point d).takeRsp).setMain (Life.afterDial d))
  | loaded (h : s.main = .loadRest) : MainTrans c s (s.setMain .exit)
  | exited (h : s.main = .exit) : MainTrans c s (s.setMain .cleanup)
  | cleaned (h : s.main = .cleanup) :
      MainTrans c s (s.setMain (.stopLooping .cleanup))
  | stopped {d} (h : s.main = .stopLooping d) :
      MainTrans c s ({ s with looping := false }.setMain (.wakeLoop d))
  | woken {d} (h : s.main = .wakeLoop d) :
      MainTrans c s
        ({ s with pending := s.pending || s.active }.setMain (.dialTest d))
  | joined {ok} (h : s.main = .join) (hloop : s.loop = .returned ok) :
      MainTrans c s (s.setMain .close)
  | closed (h : s.main = .close) :
      MainTrans c s ({ s with active := false, table := [] }.setMain .returned)

/-- The list is complete. -/
theorem Life.mainStep_trans (h : s.mainStep c = some t) : MainTrans c s t := by
  cases hpc : s.main with
  | register k =>
      cases hk : c.hooks[k]? <;>
        simp only [mainStep, hpc, hk, Option.some.injEq] at h <;> subst h
      · exact .allRegistered hpc hk
      · exact .registered hpc hk
  | dialTest d =>
      cases hrsp : (s.point d).haveRsp <;>
        simp only [mainStep, hpc, hrsp, Bool.false_eq_true, reduceIte,
          Option.some.injEq] at h <;> subst h
      · exact .dial hpc hrsp
      · exact .dialled hpc hrsp
  | dialReq d =>
      simp only [mainStep, hpc, Option.some.injEq] at h
      subst h
      exact .request hpc
  | dialPost d =>
      simp only [mainStep, hpc, Option.some.injEq] at h
      subst h
      exact .post hpc
  | dialWait d =>
      by_cases hsem : (s.point d).semRsp = 0
      · simp [mainStep, hpc, hsem] at h
      · simp only [mainStep, hpc, if_neg hsem, Option.some.injEq] at h
        subst h
        exact .answered hpc (Nat.pos_of_ne_zero hsem)
  | loadRest =>
      simp only [mainStep, hpc, Option.some.injEq] at h
      subst h
      exact .loaded hpc
  | exit =>
      simp only [mainStep, hpc, Option.some.injEq] at h
      subst h
      exact .exited hpc
  | cleanup =>
      simp only [mainStep, hpc, Option.some.injEq] at h
      subst h
      exact .cleaned hpc
  | stopLooping d =>
      simp only [mainStep, hpc, Option.some.injEq] at h
      subst h
      exact .stopped hpc
  | wakeLoop d =>
      simp only [mainStep, hpc, Option.some.injEq] at h
      subst h
      exact .woken hpc
  | join =>
      cases hloop : s.loop <;>
        simp only [mainStep, hpc, hloop, Option.some.injEq, reduceCtorEq] at h
      subst h
      exact .joined hpc hloop
  | close =>
      simp only [mainStep, hpc, Option.some.injEq] at h
      subst h
      exact .closed hpc
  | returned => simp [mainStep, hpc] at h

/-- The transitions of the loop thread. -/
inductive LoopTrans (s : Life) : List LifeEvent → Life → Prop
  | asked (h : s.loop = .waitInit) (hsem : 0 < s.initPoint.semReq) :
      LoopTrans s [.loop]
        ({ s with initPoint := s.initPoint.takeReq }.setLoop (.callInit 0))
  | allInit {k} (h : s.loop = .callInit k) (hk : s.table[k]? = none) :
      LoopTrans s [.loop] (s.setLoop (.answerInit true))
  | initSkipped {k hook} (h : s.loop = .callInit k)
      (hk : s.table[k]? = some hook) (hnull : hook.onLoopInit = none) :
      LoopTrans s [.loop] (s.setLoop (.callInit (k + 1)))
  | initDone {k hook ret} (h : s.loop = .callInit k)
      (hk : s.table[k]? = some hook) (hret : hook.onLoopInit = some ret)
      (hok : 0 ≤ ret) :
      LoopTrans s [.loopInit k] (s.setLoop (.callInit (k + 1)))
  | initFailed {k hook ret} (h : s.loop = .callInit k)
      (hk : s.table[k]? = some hook) (hret : hook.onLoopInit = some ret)
      (hbad : ret < 0) :
      LoopTrans s [.loopInit k] (s.setLoop (.failExit k 0))
  | failExited {idx i e} (h : s.loop = .failExit idx i)
      (hi : i < s.table.length) (hidx : i < idx)
      (he : e = .loop ∨ e = .loopExit i) :
      LoopTrans s [e] (s.setLoop (.failExit idx (i + 1)))
  | failExitEnd {idx i} (h : s.loop = .failExit idx i) :
      LoopTrans s [.loop] (s.setLoop (.answerInit false))
  | initAnswered {ok} (h : s.loop = .answerInit ok) :
      LoopTrans s [.loop]
        ({ s with
          initPoint := s.initPoint.respond (if ok then 0 else -1)
          }.setLoop (.postInit ok))
  | initPosted {ok} (h : s.loop = .postInit ok) :
      LoopTrans s [.loop]
        ({ s with initPoint := s.initPoint.postRsp }.setLoop
          (if ok then .loop else .returned false))
  | notified (h : s.loop = .loop) (hactive : s.active = true)
      (hpending : s.pending = true) :
      LoopTrans s [.loop]
        ({ s with pending := false }.setLoop
          (if s.looping then .loop else .callExit 0))
  | loopEnded (h : s.loop = .loop) (hactive : s.active = false) :
      LoopTrans s [.loop] (s.setLoop .waitExit)
  | exitCalled {i e} (h : s.loop = .callExit i) (hi : i < s.table.length)
      (he : e = .loop ∨ e = .loopExit i) :
      LoopTrans s [e] (s.setLoop (.callExit (i + 1)))
  | allExited {i} (h : s.loop = .callExit i) (hi : s.table.length ≤ i) :
      LoopTrans s [.loop] (s.setLoop .closeAsync)
  | asyncClosed (h : s.loop = .closeAsync) :
      LoopTrans s [.loop] ({ s with active := false }.setLoop .loop)
  | exitAsked (h : s.loop = .waitExit) (hsem : 0 < s.exitPoint.semReq) :
      LoopTrans s [.loop]
        ({ s with exitPoint := s.exitPoint.takeReq }.setLoop
          (.answerExit s.exitPoint.req))
  | exitAnswered {req} (h : s.loop = .answerExit req) :
      LoopTrans s [.loop]
        ({ s with exitPoint := s.exitPoint.respond req }.setLoop .postExit)
  | exitPosted (h : s.loop = .postExit) :
      LoopTrans s [.loop]
        ({ s with exitPoint := s.exitPoint.postRsp }.setLoop (.returned true))

/-- The list is complete. -/
theorem Life.loopStep_trans (h : s.loopStep = some (t, events)) :
    LoopTrans s events t := by
  cases hpc : s.loop with
  | waitInit =>
      by_cases hsem : s.initPoint.semReq = 0
      · simp [loopStep, hpc, hsem] at h
      · simp only [loopStep, hpc, if_neg hsem, Option.some.injEq,
          Prod.mk.injEq] at h
        obtain ⟨rfl, rfl⟩ := h
        exact .asked hpc (Nat.pos_of_ne_zero hsem)
  | callInit k =>
      cases hk : s.table[k]? with
      | none =>
          simp only [loopStep, hpc, hk, Option.some.injEq, Prod.mk.injEq] at h
          obtain ⟨rfl, rfl⟩ := h
          exact .allInit hpc hk
      | some hook =>
          cases hret : hook.onLoopInit with
          | none =>
              simp only [loopStep, hpc, hk, hret, Option.some.injEq,
                Prod.mk.injEq] at h
              obtain ⟨rfl, rfl⟩ := h
              exact .initSkipped hpc hk hret
          | some ret =>
              by_cases hbad : ret < 0
              · simp only [loopStep, hpc, hk, hret, if_pos hbad,
                  Option.some.injEq, Prod.mk.injEq] at h
                obtain ⟨rfl, rfl⟩ := h
                exact .initFailed hpc hk hret hbad
              · simp only [loopStep, hpc, hk, hret, if_neg hbad,
                  Option.some.injEq, Prod.mk.injEq] at h
                obtain ⟨rfl, rfl⟩ := h
                exact .initDone hpc hk hret (Int.not_lt.mp hbad)
  | failExit idx i =>
      cases hi : s.table[i]? with
      | none =>
          simp only [loopStep, hpc, hi, Option.some.injEq, Prod.mk.injEq] at h
          obtain ⟨rfl, rfl⟩ := h
          exact .failExitEnd hpc
      | some hook =>
          have hlt : i < s.table.length :=
            (List.getElem?_eq_some_iff.mp hi).1
          by_cases hidx : i < idx
          · simp only [loopStep, hpc, hi, if_pos hidx, Option.some.injEq,
              Prod.mk.injEq] at h
            obtain ⟨rfl, rfl⟩ := h
            refine .failExited hpc hlt hidx ?_
            cases hook.onLoopExit <;> simp
          · simp only [loopStep, hpc, hi, if_neg hidx, Option.some.injEq,
              Prod.mk.injEq] at h
            obtain ⟨rfl, rfl⟩ := h
            exact .failExitEnd hpc
  | answerInit ok =>
      simp only [loopStep, hpc, Option.some.injEq, Prod.mk.injEq] at h
      obtain ⟨rfl, rfl⟩ := h
      exact .initAnswered hpc
  | postInit ok =>
      simp only [loopStep, hpc, Option.some.injEq, Prod.mk.injEq] at h
      obtain ⟨rfl, rfl⟩ := h
      exact .initPosted hpc
  | loop =>
      cases hactive : s.active
      · simp only [loopStep, hpc, hactive, Bool.false_eq_true, reduceIte,
          Option.some.injEq, Prod.mk.injEq] at h
        obtain ⟨rfl, rfl⟩ := h
        exact .loopEnded hpc hactive
      · cases hpending : s.pending
        · simp [loopStep, hpc, hactive, hpending] at h
        · simp only [loopStep, hpc, hactive, hpending, reduceIte,
            Option.some.injEq, Prod.mk.injEq] at h
          obtain ⟨rfl, rfl⟩ := h
          simpa only [hpc, hactive] using
            LoopTrans.notified hpc hactive hpending
  | callExit i =>
      cases hi : s.table[i]? with
      | none =>
          simp only [loopStep, hpc, hi, Option.some.injEq, Prod.mk.injEq] at h
          obtain ⟨rfl, rfl⟩ := h
          exact .allExited hpc (List.getElem?_eq_none_iff.mp hi)
      | some hook =>
          simp only [loopStep, hpc, hi, Option.some.injEq, Prod.mk.injEq] at h
          obtain ⟨rfl, rfl⟩ := h
          refine .exitCalled hpc (List.getElem?_eq_some_iff.mp hi).1 ?_
          cases hook.onLoopExit <;> simp
  | closeAsync =>
      simp only [loopStep, hpc, Option.some.injEq, Prod.mk.injEq] at h
      obtain ⟨rfl, rfl⟩ := h
      exact .asyncClosed hpc
  | waitExit =>
      by_cases hsem : s.exitPoint.semReq = 0
      · simp [loopStep, hpc, hsem] at h
      · simp only [loopStep, hpc, if_neg hsem, Option.some.injEq,
          Prod.mk.injEq] at h
        obtain ⟨rfl, rfl⟩ := h
        exact .exitAsked hpc (Nat.pos_of_ne_zero hsem)
  | answerExit req =>
      simp only [loopStep, hpc, Option.some.injEq, Prod.mk.injEq] at h
      obtain ⟨rfl, rfl⟩ := h
      exact .exitAnswered hpc
  | postExit =>
      simp only [loopStep, hpc, Option.some.injEq, Prod.mk.injEq] at h
      obtain ⟨rfl, rfl⟩ := h
      exact .exitPosted hpc
  | returned ok => simp [loopStep, hpc] at h

/-- One of the two threads has moved. -/
theorem LifeStep.cases (h : LifeStep c s events t) :
    (MainTrans c s t ∧ events = [.main]) ∨ LoopTrans s events t := by
  obtain ⟨a, -, hstep⟩ := h
  cases a with
  | true =>
      simp only [Life.step, Option.map_eq_some_iff, Prod.mk.injEq] at hstep
      obtain ⟨t', hmain, rfl, rfl⟩ := hstep
      exact .inl ⟨Life.mainStep_trans hmain, rfl⟩
  | false => exact .inr (Life.loopStep_trans hstep)

theorem LifeStep.length_eq_one (s : Life) (events : List LifeEvent) (t : Life)
    (h : LifeStep c s events t) : events.length = 1 := by
  rcases h.cases with ⟨-, rfl⟩ | h
  · rfl
  · cases h <;> rfl

end Powerpack
end Eaf
