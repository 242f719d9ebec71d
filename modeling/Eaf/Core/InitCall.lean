import Eaf.Core.Transitions
import Eaf.Foundation.Completion

/-!
# `eaf_init`

The call that builds the context and starts the group workers, with the
roll-back it makes when a lock, a semaphore or a thread cannot be created.
The workers that were started before run meanwhile; they execute the same
program as in the running system, `workerStep`.  How every call into the
platform turns out is a parameter of the run, so a statement about all these
parameters covers every position at which the creation can fail.
-/

namespace Eaf
namespace Core

open LabelledRun

/-- How the platform calls for one group turn out. -/
structure GroupFate where
  /-- `eaf_compat_lock_init` -/
  lock : Bool
  /-- `eaf_compat_sem_init` -/
  sem : Bool
  /-- `eaf_compat_thread_init` -/
  thread : Bool
  /-- `eaf_thread_storage_set` in the worker -/
  storage : Bool
  deriving DecidableEq, Repr

/-- Everything `_eaf_init_group` creates for the group can be created. -/
def GroupFate.creates (f : GroupFate) : Bool := f.lock && f.sem && f.thread

/-- How the platform calls of `eaf_init` turn out. -/
structure InitFate where
  /-- `EAF_CALLOC` -/
  memory : Bool
  /-- `eaf_compat_sem_init(&g_eaf_ctx->ready, 0)` -/
  ready : Bool
  /-- `eaf_thread_storage_init` -/
  tls : Bool
  group : Nat → GroupFate

/-- Where `eaf_init` is. -/
inductive InitPc
  /-- `if (g_eaf_ctx != NULL)` -/
  | guard
  /-- the allocation of the context -/
  | memory
  | readyInit
  | tlsInit
  /-- the head of the loop of `_eaf_init_group` and `eaf_compat_lock_init` -/
  | lockInit (idx : Nat)
  | semInit (idx : Nat)
  | threadInit (idx : Nat)
  /-- the post in the roll-back loop at group `i`, entered at `idx` -/
  | rollPost (idx i : Nat)
  /-- `eaf_compat_thread_exit` there -/
  | rollJoin (idx i : Nat)
  /-- the label `err` of `eaf_init` -/
  | release
  | returned (code : Int)
  deriving DecidableEq, Repr

/-- What `eaf_init` obtains from the platform. -/
inductive Resource
  | memory
  | ready
  | tls
  | lock (g : Nat)
  | sem (g : Nat)
  | thread (g : Nat)
  deriving DecidableEq, Repr

/-- A call of `eaf_init` in progress. -/
structure InitState where
  pc : InitPc
  /-- the context and its groups -/
  sys : Sys
  /-- what was obtained and not given back -/
  held : Resource → Bool

namespace InitState

/-- The call starts; nothing is held. -/
def enter (s : Sys) : InitState := ⟨.guard, s, fun _ => false⟩

@[simps -fullyApplied]
def goto (s : InitState) (pc : InitPc) : InitState := { s with pc := pc }

/-- A resource is obtained. -/
@[simps -fullyApplied]
def obtain (s : InitState) (r : Resource) : InitState :=
  { s with held := Function.update s.held r true }

/-- A resource is given back. -/
@[simps -fullyApplied]
def giveBack (s : InitState) (r : Resource) : InitState :=
  { s with held := Function.update s.held r false }

/-- The context changes. -/
@[simps -fullyApplied]
def setSys (s : InitState) (sys : Sys) : InitState := { s with sys := sys }

end InitState

/-- `EAF_CALLOC` and `g_eaf_ctx->state = eaf_ctx_state_init`: all groups are
zero. -/
def freshContext (s : Sys) : Sys :=
  { s with
    live := true
    ctx := .init
    ready := 0
    failure := false
    summary := ⟨false, 0⟩
    group := fun _ => .initial ⟨[]⟩ }

/-- The next step of `eaf_init`. -/
def initCallStep (L : Layout) (F : InitFate) (s : InitState) :
    Option InitState :=
  match s.pc with
  | .guard =>
      some (s.goto (if s.sys.live then .returned Errno.duplicate else .memory))
  | .memory =>
      if F.memory then
        some (((s.setSys (freshContext s.sys)).obtain .memory).goto .readyInit)
      else some (s.goto (.returned Errno.memory))
  | .readyInit =>
      if F.ready then some ((s.obtain .ready).goto .tlsInit)
      else
        some (((s.setSys { s.sys with live := false }).giveBack .memory).goto
          (.returned Errno.unknown))
  | .tlsInit =>
      if F.tls then some ((s.obtain .tls).goto (.lockInit 0))
      else
        some ((((s.setSys { s.sys with live := false }).giveBack .ready).giveBack
          .memory).goto (.returned Errno.unknown))
  | .lockInit idx =>
      if idx < L.size then
        if (F.group idx).lock then
          some ((s.obtain (.lock idx)).goto (.semInit idx))
        else some (s.goto (.rollPost idx 0))
      else some (s.goto (.returned Errno.success))
  | .semInit idx =>
      if (F.group idx).sem then
        -- the services of the group follow the semaphore
        some (((s.setSys (s.sys.setGroup idx (.initial (L.conf idx)))).obtain
          (.sem idx)).goto (.threadInit idx))
      else some ((s.giveBack (.lock idx)).goto (.rollPost idx 0))
  | .threadInit idx =>
      if (F.group idx).thread then
        some ((s.obtain (.thread idx)).goto (.lockInit (idx + 1)))
      else
        some (((s.giveBack (.sem idx)).giveBack (.lock idx)).goto
          (.rollPost idx 0))
  | .rollPost idx i =>
      if i < idx then
        some ((s.setSys (s.sys.setGroup i (s.sys.group i).semPost)).goto
          (.rollJoin idx i))
      else some (s.goto .release)
  | .rollJoin idx i =>
      -- `pthread_join` waits until the worker has returned
      match (s.sys.group i).worker with
      | .returned _ =>
          some ((((s.giveBack (.thread i)).giveBack (.sem i)).giveBack
            (.lock i)).goto (.rollPost idx (i + 1)))
      | _ => none
  | .release =>
      some (((((s.setSys { s.sys with live := false }).giveBack .tls).giveBack
        .ready).giveBack .memory).goto (.returned Errno.unknown))
  | .returned _ => none

/-- The transitions of the caller of `eaf_init`. -/
inductive InitCallTrans (L : Layout) (F : InitFate) (s : InitState) :
    InitState → Prop
  | duplicate (h : s.pc = .guard) (hlive : s.sys.live = true) :
      InitCallTrans L F s (s.goto (.returned Errno.duplicate))
  | start (h : s.pc = .guard) (hlive : s.sys.live = false) :
      InitCallTrans L F s (s.goto .memory)
  | allocated (h : s.pc = .memory) (hok : F.memory = true) :
      InitCallTrans L F s
        (((s.setSys (freshContext s.sys)).obtain .memory).goto .readyInit)
  | noMemory (h : s.pc = .memory) (hok : F.memory = false) :
      InitCallTrans L F s (s.goto (.returned Errno.memory))
  | readyMade (h : s.pc = .readyInit) (hok : F.ready = true) :
      InitCallTrans L F s ((s.obtain .ready).goto .tlsInit)
  | noReady (h : s.pc = .readyInit) (hok : F.ready = false) :
      InitCallTrans L F s
        (((s.setSys { s.sys with live := false }).giveBack .memory).goto
          (.returned Errno.unknown))
  | tlsMade (h : s.pc = .tlsInit) (hok : F.tls = true) :
      InitCallTrans L F s ((s.obtain .tls).goto (.lockInit 0))
  | noTls (h : s.pc = .tlsInit) (hok : F.tls = false) :
      InitCallTrans L F s
        ((((s.setSys { s.sys with live := false }).giveBack .ready).giveBack
          .memory).goto (.returned Errno.unknown))
  | lockMade {idx} (h : s.pc = .lockInit idx) (hlt : idx < L.size)
      (hok : (F.group idx).lock = true) :
      InitCallTrans L F s ((s.obtain (.lock idx)).goto (.semInit idx))
  | noLock {idx} (h : s.pc = .lockInit idx) (hlt : idx < L.size)
      (hok : (F.group idx).lock = false) :
      InitCallTrans L F s (s.goto (.rollPost idx 0))
  | success {idx} (h : s.pc = .lockInit idx) (hge : L.size ≤ idx) :
      InitCallTrans L F s (s.goto (.returned Errno.success))
  | semMade {idx} (h : s.pc = .semInit idx) (hok : (F.group idx).sem = true) :
      InitCallTrans L F s
        (((s.setSys (s.sys.setGroup idx (.initial (L.conf idx)))).obtain
          (.sem idx)).goto (.threadInit idx))
  | noSem {idx} (h : s.pc = .semInit idx) (hok : (F.group idx).sem = false) :
      InitCallTrans L F s ((s.giveBack (.lock idx)).goto (.rollPost idx 0))
  | threadMade {idx} (h : s.pc = .threadInit idx)
      (hok : (F.group idx).thread = true) :
      InitCallTrans L F s
        ((s.obtain (.thread idx)).goto (.lockInit (idx + 1)))
  | noThread {idx} (h : s.pc = .threadInit idx)
      (hok : (F.group idx).thread = false) :
      InitCallTrans L F s
        (((s.giveBack (.sem idx)).giveBack (.lock idx)).goto (.rollPost idx 0))
  | posted {idx i} (h : s.pc = .rollPost idx i) (hlt : i < idx) :
      InitCallTrans L F s
        ((s.setSys (s.sys.setGroup i (s.sys.group i).semPost)).goto
          (.rollJoin idx i))
  | rolledBack {idx i} (h : s.pc = .rollPost idx i) (hge : idx ≤ i) :
      InitCallTrans L F s (s.goto .release)
  | joined {idx i site} (h : s.pc = .rollJoin idx i)
      (hret : (s.sys.group i).worker = .returned site) :
      InitCallTrans L F s
        ((((s.giveBack (.thread i)).giveBack (.sem i)).giveBack
          (.lock i)).goto (.rollPost idx (i + 1)))
  | released (h : s.pc = .release) :
      InitCallTrans L F s
        (((((s.setSys { s.sys with live := false }).giveBack .tls).giveBack
          .ready).giveBack .memory).goto (.returned Errno.unknown))

/-- The list is complete. -/
theorem initCallStep_trans {L : Layout} {F : InitFate} {s t : InitState}
    (h : initCallStep L F s = some t) : InitCallTrans L F s t := by
  cases hpc : s.pc with
  | guard =>
      cases hlive : s.sys.live <;>
        simp only [initCallStep, hpc, hlive, Bool.false_eq_true, reduceIte,
          Option.some.injEq] at h <;> subst h
      · exact .start hpc hlive
      · exact .duplicate hpc hlive
  | memory =>
      cases hok : F.memory <;>
        simp only [initCallStep, hpc, hok, Bool.false_eq_true, reduceIte,
          Option.some.injEq] at h <;> subst h
      · exact .noMemory hpc hok
      · exact .allocated hpc hok
  | readyInit =>
      cases hok : F.ready <;>
        simp only [initCallStep, hpc, hok, Bool.false_eq_true, reduceIte,
          Option.some.injEq] at h <;> subst h
      · exact .noReady hpc hok
      · exact .readyMade hpc hok
  | tlsInit =>
      cases hok : F.tls <;>
        simp only [initCallStep, hpc, hok, Bool.false_eq_true, reduceIte,
          Option.some.injEq] at h <;> subst h
      · exact .noTls hpc hok
      · exact .tlsMade hpc hok
  | lockInit idx =>
      by_cases hlt : idx < L.size
      · cases hok : (F.group idx).lock <;>
          simp only [initCallStep, hpc, if_pos hlt, hok, Bool.false_eq_true,
            reduceIte, Option.some.injEq] at h <;> subst h
        · exact .noLock hpc hlt hok
        · exact .lockMade hpc hlt hok
      · simp only [initCallStep, hpc, if_neg hlt, Option.some.injEq] at h
        subst h
        exact .success hpc (Nat.le_of_not_lt hlt)
  | semInit idx =>
      cases hok : (F.group idx).sem <;>
        simp only [initCallStep, hpc, hok, Bool.false_eq_true, reduceIte,
          Option.some.injEq] at h <;> subst h
      · exact .noSem hpc hok
      · exact .semMade hpc hok
  | threadInit idx =>
      cases hok : (F.group idx).thread <;>
        simp only [initCallStep, hpc, hok, Bool.false_eq_true, reduceIte,
          Option.some.injEq] at h <;> subst h
      · exact .noThread hpc hok
      · exact .threadMade hpc hok
  | rollPost idx i =>
      by_cases hlt : i < idx
      · simp only [initCallStep, hpc, if_pos hlt, Option.some.injEq] at h
        subst h
        exact .posted hpc hlt
      · simp only [initCallStep, hpc, if_neg hlt, Option.some.injEq] at h
        subst h
        exact .rolledBack hpc (Nat.le_of_not_lt hlt)
  | rollJoin idx i =>
      cases hret : (s.sys.group i).worker <;>
        simp only [initCallStep, hpc, hret, Option.some.injEq,
          reduceCtorEq] at h
      subst h
      exact .joined hpc hret
  | release =>
      simp only [initCallStep, hpc, Option.some.injEq] at h
      subst h
      exact .released hpc
  | returned code => simp [initCallStep, hpc] at h

/-- The thread storage call of the worker turns out as the fate says. -/
def InitFate.outcome (F : InitFate) (g : Nat) : Outcome :=
  { Outcome.plain with ok := (F.group g).storage }

/-- The thread that moves. -/
inductive InitAct
  | caller
  | worker (g : Nat)
  deriving DecidableEq, Repr

/-- One thread makes its next step: the caller of `eaf_init`, or a worker whose
thread exists. -/
def InitState.step (L : Layout) (F : InitFate) (s : InitState) :
    InitAct → Option (InitState × List InitAct)
  | .caller => (initCallStep L F s).map fun t => (t, [.caller])
  | .worker g =>
      if s.held (.thread g) then
        (s.sys.workerStep L g (F.outcome g)).map fun out =>
          (s.setSys out.1, [.worker g])
      else none

/-- The step relation of `eaf_init` with its workers. -/
abbrev InitStep (L : Layout) (F : InitFate) :
    InitState → List InitAct → InitState → Prop :=
  Guarded (InitState.step L F) fun _ _ => True

/-- Runs of `eaf_init`, called in the system state `s₀`. -/
abbrev InitRun (L : Layout) (F : InitFate) (s₀ : Sys) (tr : List InitAct)
    (s : InitState) : Prop :=
  Run (InitStep L F) (.enter s₀) tr s

end Core
end Eaf
