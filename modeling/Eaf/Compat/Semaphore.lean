import Eaf.Core.Message
import Eaf.Foundation.CountingSemaphore

/-!
# The semaphore of Linux

`compat/linux/c_semaphore.c`: the semaphore is a POSIX semaphore, a bounded wait
tries it every ten milliseconds, and an unbounded one starts again when a signal
interrupts it.  Any number of threads use it; a step is one access to the
semaphore or one sleep, and the last access of a call decides what it returns.
-/

namespace Eaf
namespace Compat

open Core LabelledRun

/-- `SEM_VALUE_MAX` -/
def semValueMax : Nat := 2 ^ 31 - 1

/-- `EAF_COMPAT_SEM_INFINITY`, where `unsigned long` has `w` bits. -/
def semInfinity (w : Nat) : Nat := 2 ^ w - 1

/-- `(timeout + 9) / 10` -/
def pollTimes (w timeout : Nat) : Nat := (timeout + 9) % 2 ^ w / 10

/-- A call of `eaf_compat_sem_pend` or `eaf_compat_sem_post`. -/
inductive SemRequest
  | pend (timeout : Nat)
  | post
  deriving DecidableEq, Repr

/-- Where a thread is. -/
inductive SemCall
  | idle
  /-- the tests of `timeout` -/
  | pend (timeout : Nat)
  /-- `sem_wait` in its loop -/
  | wait (timeout : Nat)
  /-- `sem_trywait` when `timeout` is zero -/
  | tryOnce (timeout : Nat)
  /-- `sem_trywait` in the condition of the loop -/
  | poll (timeout times : Nat)
  /-- `eaf_compat_thread_sleep(10)` -/
  | sleep (timeout times : Nat)
  /-- `sem_post` -/
  | post
  deriving DecidableEq, Repr

/-- What a step shows. -/
inductive SemEvent
  | enter (t : Nat) (q : SemRequest)
  /-- `sem_trywait` failed and the loop goes on -/
  | again (t : Nat)
  /-- ten milliseconds are over -/
  | slept (t : Nat)
  /-- a signal interrupted `sem_wait` -/
  | interrupted (t : Nat)
  /-- the last access of a call that returns `code` -/
  | ret (t : Nat) (q : SemRequest) (code : Int)
  deriving DecidableEq, Repr

/-- A semaphore and the threads that use it. -/
structure SemSys where
  count : Nat
  call : Nat → SemCall

namespace SemSys

/-- The thread goes on at `c`. -/
def goto (s : SemSys) (t : Nat) (c : SemCall) : SemSys :=
  { s with call := Function.update s.call t c }

/-- The last access of a call, after which it returns `code`. -/
def leave (s : SemSys) (t count : Nat) (q : SemRequest) (code : Int) :
    SemSys × List SemEvent :=
  (⟨count, Function.update s.call t .idle⟩, [.ret t q code])

/-- One step of a thread in a call; `signal` tells whether a signal interrupts
a wait. -/
def callStep (w : Nat) (s : SemSys) (t : Nat) (signal : Bool) :
    Option (SemSys × List SemEvent) :=
  match s.call t with
  | .idle => none
  | .pend timeout =>
      some (s.goto t
        (if timeout = semInfinity w then .wait timeout
          else if timeout = 0 then .tryOnce timeout
          else .poll timeout (pollTimes w timeout)), [])
  | .wait timeout =>
      if signal then some (s.goto t (.wait timeout), [.interrupted t])
      else if s.count = 0 then none
      else some (s.leave t (s.count - 1) (.pend timeout) Errno.success)
  | .tryOnce timeout =>
      if s.count = 0 then some (s.leave t s.count (.pend timeout) (-1))
      else some (s.leave t (s.count - 1) (.pend timeout) 0)
  | .poll timeout times =>
      if s.count = 0 then
        if times > 0 then some (s.goto t (.sleep timeout (times - 1)), [.again t])
        else some (s.leave t s.count (.pend timeout) Errno.timeout)
      else some (s.leave t (s.count - 1) (.pend timeout) Errno.success)
  | .sleep timeout times => some (s.goto t (.poll timeout times), [.slept t])
  | .post =>
      if s.count < semValueMax then
        some (s.leave t (s.count + 1) .post 0)
      else some (s.leave t s.count .post (-1))

end SemSys

/-- The first point of a call. -/
def SemRequest.start : SemRequest → SemCall
  | .pend timeout => .pend timeout
  | .post => .post

/-- A thread enters a call, or goes on in one. -/
inductive SemAct
  | enter (t : Nat) (q : SemRequest)
  | run (t : Nat) (signal : Bool)
  deriving DecidableEq, Repr

/-- The step function. -/
def semStep (w : Nat) (s : SemSys) : SemAct → Option (SemSys × List SemEvent)
  | .enter t q =>
      if s.call t = .idle then some (s.goto t q.start, [.enter t q]) else none
  | .run t signal => s.callStep w t signal

/-- A timeout is an `unsigned long`. -/
def SemRequest.Fits (w : Nat) : SemRequest → Prop
  | .pend timeout => timeout < 2 ^ w
  | .post => True

instance (w : Nat) : (q : SemRequest) → Decidable (q.Fits w)
  | .pend timeout => inferInstanceAs (Decidable (timeout < 2 ^ w))
  | .post => inferInstanceAs (Decidable True)

def semOk (w : Nat) (_ : SemSys) : SemAct → Prop
  | .enter _ q => q.Fits w
  | .run _ _ => True

instance (w : Nat) (s : SemSys) : (a : SemAct) → Decidable (semOk w s a)
  | .enter _ q => inferInstanceAs (Decidable (q.Fits w))
  | .run _ _ => inferInstanceAs (Decidable True)

/-- The steps of a thread in a call. -/
inductive SemTrans (w : Nat) (s : SemSys) (t : Nat) :
    List SemEvent → SemSys → Prop
  | unbounded {timeout} (h : s.call t = .pend timeout)
      (hinf : timeout = semInfinity w) : SemTrans w s t [] (s.goto t (.wait timeout))
  | once {timeout} (h : s.call t = .pend timeout) (hinf : timeout ≠ semInfinity w)
      (hzero : timeout = 0) : SemTrans w s t [] (s.goto t (.tryOnce timeout))
  | bounded {timeout} (h : s.call t = .pend timeout)
      (hinf : timeout ≠ semInfinity w) (hzero : timeout ≠ 0) :
      SemTrans w s t [] (s.goto t (.poll timeout (pollTimes w timeout)))
  | interrupted {timeout} (h : s.call t = .wait timeout) :
      SemTrans w s t [.interrupted t] (s.goto t (.wait timeout))
  | waited {timeout n} (h : s.call t = .wait timeout) (hn : s.count = n + 1) :
      SemTrans w s t [.ret t (.pend timeout) Errno.success]
        ⟨n, Function.update s.call t .idle⟩
  | tried {timeout n} (h : s.call t = .tryOnce timeout) (hn : s.count = n + 1) :
      SemTrans w s t [.ret t (.pend timeout) Errno.success]
        ⟨n, Function.update s.call t .idle⟩
  | missed {timeout} (h : s.call t = .tryOnce timeout) (hn : s.count = 0) :
      SemTrans w s t [.ret t (.pend timeout) Errno.unknown]
        ⟨0, Function.update s.call t .idle⟩
  | polled {timeout times n} (h : s.call t = .poll timeout times)
      (hn : s.count = n + 1) :
      SemTrans w s t [.ret t (.pend timeout) Errno.success]
        ⟨n, Function.update s.call t .idle⟩
  | again {timeout times} (h : s.call t = .poll timeout (times + 1))
      (hn : s.count = 0) :
      SemTrans w s t [.again t] (s.goto t (.sleep timeout times))
  | timedOut {timeout} (h : s.call t = .poll timeout 0) (hn : s.count = 0) :
      SemTrans w s t [.ret t (.pend timeout) Errno.timeout]
        ⟨0, Function.update s.call t .idle⟩
  | slept {timeout times} (h : s.call t = .sleep timeout times) :
      SemTrans w s t [.slept t] (s.goto t (.poll timeout times))
  | posted (h : s.call t = .post) (hn : s.count < semValueMax) :
      SemTrans w s t [.ret t .post Errno.success]
        ⟨s.count + 1, Function.update s.call t .idle⟩
  | full (h : s.call t = .post) (hn : semValueMax ≤ s.count) :
      SemTrans w s t [.ret t .post Errno.unknown]
        ⟨s.count, Function.update s.call t .idle⟩

theorem callStep_trans {w : Nat} {s s' : SemSys} {t : Nat} {signal : Bool}
    {events : List SemEvent} (h : s.callStep w t signal = some (s', events)) :
    SemTrans w s t events s' := by
  cases hcall : s.call t <;> simp only [SemSys.callStep, hcall, reduceCtorEq] at h
  case pend timeout =>
    obtain ⟨rfl, rfl⟩ := Prod.mk.inj (Option.some.inj h)
    split
    next hinf => exact .unbounded hcall hinf
    next hinf =>
      split
      next hzero => exact .once hcall hinf hzero
      next hzero => exact .bounded hcall hinf hzero
  case wait timeout =>
    split at h
    next =>
      obtain ⟨rfl, rfl⟩ := Prod.mk.inj (Option.some.inj h)
      exact .interrupted hcall
    next =>
      split at h
      next => cases h
      next hn =>
        obtain ⟨rfl, rfl⟩ := Prod.mk.inj (Option.some.inj h)
        exact .waited hcall (Nat.succ_pred_eq_of_ne_zero hn).symm
  case tryOnce timeout =>
    split at h <;> obtain ⟨rfl, rfl⟩ := Prod.mk.inj (Option.some.inj h)
    next hn =>
      rw [hn]
      exact .missed hcall hn
    next hn => exact .tried hcall (Nat.succ_pred_eq_of_ne_zero hn).symm
  case poll timeout times =>
    split at h
    next hn =>
      split at h <;> obtain ⟨rfl, rfl⟩ := Prod.mk.inj (Option.some.inj h)
      next hpos =>
        obtain ⟨k, rfl⟩ := Nat.exists_eq_succ_of_ne_zero (Nat.ne_of_gt hpos)
        exact .again hcall hn
      next hpos =>
        obtain rfl : times = 0 := by omega
        rw [hn]
        exact .timedOut hcall hn
    next hn =>
      obtain ⟨rfl, rfl⟩ := Prod.mk.inj (Option.some.inj h)
      exact .polled hcall (Nat.succ_pred_eq_of_ne_zero hn).symm
  case sleep timeout times =>
    obtain ⟨rfl, rfl⟩ := Prod.mk.inj (Option.some.inj h)
    exact .slept hcall
  case post =>
    split at h <;> obtain ⟨rfl, rfl⟩ := Prod.mk.inj (Option.some.inj h)
    next hn => exact .posted hcall hn
    next hn => exact .full hcall (Nat.le_of_not_lt hn)

end Compat
end Eaf
