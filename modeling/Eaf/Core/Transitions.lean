import Eaf.Core.Runtime

/-!
# The transitions of the running system

`WorkerTrans` lists what a group worker can do; this file lists what the other
three kinds of step can do: a thread inside an API call (`CallTrans`), a thread
entering the API (`EnterTrans`), and user code working on messages
(`UserTrans`).  `SysTrans` puts the four together, and `step_trans` shows that
nothing else happens.  Every invariant of the system is proved by cases on
these lists.
-/

namespace Eaf
namespace Core

/-- The steps of a thread inside an API call. -/
inductive CallTrans (L : Layout) (s : Sys) (t : Tid) :
    List Event → Sys → Prop
  | sendRefused {a} (h : s.call t = .sendTest a)
      (hctx : ¬(s.live = true ∧ s.ctx = .busy)) :
      CallTrans L s t [.ret t a.kind.api Errno.state]
        ((s.takeBack a).setCall t (.done Errno.state))
  | sendAccepted {a} (h : s.call t = .sendTest a) (hctx : s.ctx = .busy) :
      CallTrans L s t [] (s.setCall t (.sendHook a))
  | sendVeto {a ret} (h : s.call t = .sendHook a) (hret : ret < 0) :
      CallTrans L s t [.ret t a.kind.api ret]
        ((s.takeBack a).setCall t (.done ret))
  | sendHooked {a} (h : s.call t = .sendHook a) :
      CallTrans L s t [] (s.setCall t (.sendFind a))
  | sendNotFound {a} (h : s.call t = .sendFind a) :
      CallTrans L s t []
        ((s.stampSender a).setCall t (.sendAfter a Errno.notfound))
  | sendFound {a g i fn} (h : s.call t = .sendFind a)
      (hfind : findService L a.dst = some (g, i)) :
      CallTrans L s t [] ((s.stampSender a).setCall t (.pushTest a g i fn))
  | pushOverflow {a g i fn} (h : s.call t = .pushTest a g i fn) :
      CallTrans L s t [] (s.setCall t (.sendAfter a Errno.overflow))
  | pushRoom {a g i fn} (h : s.call t = .pushTest a g i fn) :
      CallTrans L s t [] (s.setCall t (.pushAlloc a g i fn))
  | pushNoMemory {a g i fn} (h : s.call t = .pushAlloc a g i fn) :
      CallTrans L s t [] (s.setCall t (.sendAfter a Errno.memory))
  | pushRecord {a g i fn} (h : s.call t = .pushAlloc a g i fn) :
      CallTrans L s t []
        (({ s with nextRec := s.nextRec + 1 }.addRef a.msg).setCall t
          (.pushLock a g i ⟨s.nextRec, fn, a.src, a.dst, a.msg⟩))
  | pushRefused {a g i r} (h : s.call t = .pushLock a g i r)
      (hst : ((s.group g).table i).state = .exit0) :
      CallTrans L s t [] (s.setCall t (.pushRevert a r))
  | pushAccepted {a g i r G} (h : s.call t = .pushLock a g i r)
      (hpush : (s.group g).pushMsg i r = some G) :
      CallTrans L s t [.group g (.push i r ((s.group g).table i).state)]
        ((s.setGroup g G).setCall t (.pushPost a g))
  | pushReverted {a r} (h : s.call t = .pushRevert a r) :
      CallTrans L s t []
        ((s.decRef a.msg).setCall t (.sendAfter a Errno.state))
  | pushPosted {a g} (h : s.call t = .pushPost a g) :
      CallTrans L s t []
        ((s.setGroup g (s.group g).semPost).setCall t
          (.sendAfter a Errno.success))
  | sendDone {a code} (h : s.call t = .sendAfter a code) :
      CallTrans L s t [.ret t a.kind.api code]
        ((s.takeBack a).setCall t (.done code))
  | resumeNotFound {id} (h : s.call t = .resumeFind id) :
      CallTrans L s t [.ret t .resume Errno.notfound]
        (s.setCall t (.done Errno.notfound))
  | resumeFound {id g i} (h : s.call t = .resumeFind id)
      (hfind : findService L id = some (g, i)) :
      CallTrans L s t [] (s.setCall t (.resumeLock g i))
  | resumeRefused {g i} (h : s.call t = .resumeLock g i) :
      CallTrans L s t [.ret t .resume Errno.state]
        (s.setCall t (.done Errno.state))
  | resumeAccepted {g i G} (h : s.call t = .resumeLock g i)
      (hresume : (s.group g).resumeService i = some G) :
      CallTrans L s t [.group g (.resume i ((s.group g).table i).curMsg)]
        ((s.setGroup g G).setCall t (.resumePost g))
  | resumePosted {g} (h : s.call t = .resumePost g) :
      CallTrans L s t [.ret t .resume Errno.success]
        ((s.setGroup g (s.group g).semPost).setCall t (.done Errno.success))
  | exitRefused {td reason} (h : s.call t = .exitTest td reason) :
      CallTrans L s t [.ret t (Sys.exitApi td) Errno.state]
        (s.setCall t (.done Errno.state))
  | exitAccepted {td reason} (h : s.call t = .exitTest td reason)
      (hlive : s.live = true) (hctx : s.ctx ≠ Sys.exitState td) :
      CallTrans L s t [] (s.setCall t (.exitHook td reason))
  | exitHooked {td reason} (h : s.call t = .exitHook td reason) :
      CallTrans L s t [] (s.setCall t (.exitWrite td reason))
  | exitWritten {td reason} (h : s.call t = .exitWrite td reason) :
      CallTrans L s t []
        ({ s with
          summary := if td then s.summary else ⟨true, reason⟩
          ctx := Sys.exitState td }.setCall t (.exitPost td 0))
  | exitPosted {td k} (h : s.call t = .exitPost td k) (hk : k < L.size) :
      CallTrans L s t []
        ((s.setGroup k (s.group k).semPost).setCall t (.exitPost td (k + 1)))
  | exitDone {td k} (h : s.call t = .exitPost td k) (hk : L.size ≤ k) :
      CallTrans L s t [.ret t (Sys.exitApi td) Errno.success]
        (s.setCall t (.done Errno.success))
  | loadRefused (h : s.call t = .loadTest) :
      CallTrans L s t [.ret t .load Errno.state]
        (s.setCall t (.done Errno.state))
  | loadAccepted (h : s.call t = .loadTest) (hctx : s.ctx = .init) :
      CallTrans L s t [] (s.setCall t .loadHook)
  | loadHooked (h : s.call t = .loadHook) :
      CallTrans L s t [] (s.setCall t (.loadFix 0))
  | loadFixed {k} (h : s.call t = .loadFix k) (hk : k < L.size) :
      CallTrans L s t []
        ((s.setGroup k ((s.group k).loadFixState (L.conf k))).setCall t
          (.loadFix (k + 1)))
  | loadAllFixed {k} (h : s.call t = .loadFix k) (hk : L.size ≤ k) :
      CallTrans L s t [] (s.setCall t .loadWrite)
  | loadWritten (h : s.call t = .loadWrite) :
      CallTrans L s t [] ({ s with ctx := .busy }.setCall t (.loadPost 0))
  | loadPosted {k} (h : s.call t = .loadPost k) (hk : k < L.size) :
      CallTrans L s t []
        ((s.setGroup k (s.group k).semPost).setCall t (.loadPost (k + 1)))
  | loadAllPosted {k} (h : s.call t = .loadPost k) (hk : L.size ≤ k) :
      CallTrans L s t [] (s.setCall t (.loadPend 0))
  | loadWoken {k} (h : s.call t = .loadPend k) (hk : k < L.size)
      (hready : 0 < s.ready) :
      CallTrans L s t []
        ({ s with ready := s.ready - 1 }.setCall t (.loadPend (k + 1)))
  | loadAllReady {k} (h : s.call t = .loadPend k) (hk : L.size ≤ k) :
      CallTrans L s t []
        (s.setCall t
          (.loadAfter (if s.failure then Errno.state else Errno.success)))
  | loadDone {code} (h : s.call t = .loadAfter code) :
      CallTrans L s t [.ret t .load code] (s.setCall t (.done code))
  | cleanRefused (h : s.call t = .cleanTest) :
      CallTrans L s t [.ret t .cleanup Errno.state]
        (s.setCall t (.done Errno.state))
  | cleanAccepted (h : s.call t = .cleanTest) :
      CallTrans L s t [] (s.setCall t (.cleanJoin 0))
  | cleanJoined {k site} (h : s.call t = .cleanJoin k) (hk : k < L.size)
      (hret : (s.group k).worker = .returned site) :
      CallTrans L s t [] (s.setCall t (.cleanMsgq k 0))
  | cleanAllJoined {k} (h : s.call t = .cleanJoin k) (hk : L.size ≤ k) :
      CallTrans L s t [] (s.setCall t .cleanFree)
  | cleanQueued {k i r rest} (h : s.call t = .cleanMsgq k i)
      (hi : i < (L.conf k).size)
      (hq : ((s.group k).table i).queue = r :: rest) :
      CallTrans L s t [.group k (.purge i r)]
        ((s.setGroup k ((s.group k).setService i
          { (s.group k).table i with queue := rest })).decRef r.msg)
  | cleanCurrent {k i r} (h : s.call t = .cleanMsgq k i)
      (hi : i < (L.conf k).size) (hq : ((s.group k).table i).queue = [])
      (hcur : ((s.group k).table i).curMsg = some r) :
      CallTrans L s t [.group k (.cancel i r), .group k (.release i r)]
        ((s.setGroup k ((s.group k).setService i
          { (s.group k).table i with curMsg := none })).decRef r.msg)
  | cleanNext {k i} (h : s.call t = .cleanMsgq k i)
      (hi : i < (L.conf k).size) (hq : ((s.group k).table i).queue = [])
      (hcur : ((s.group k).table i).curMsg = none) :
      CallTrans L s t [] (s.setCall t (.cleanMsgq k (i + 1)))
  | cleanGroupDone {k i} (h : s.call t = .cleanMsgq k i)
      (hi : (L.conf k).size ≤ i) :
      CallTrans L s t [] (s.setCall t (.cleanJoin (k + 1)))
  | cleanFreed (h : s.call t = .cleanFree) :
      CallTrans L s t [.ret t .cleanup Errno.success]
        ({ s with live := false }.setCall t (.done Errno.success))
  | initRefused (h : s.call t = .initTest) :
      CallTrans L s t [.ret t .init Errno.duplicate]
        (s.setCall t (.done Errno.duplicate))

/-- A thread enters the API. -/
inductive EnterTrans (L : Layout) (s : Sys) (t : Tid) :
    Request → List Event → Sys → Prop
  | send {a} (hmay : s.mayEnter L t = true) (hsend : s.maySend t a = true) :
      EnterTrans L s t (.send a) [.enter t (.send a)]
        ((s.handOver a).setCall t (.sendTest a))
  | other {q} (hmay : s.mayEnter L t = true) (hq : ∀ a, q ≠ .send a) :
      EnterTrans L s t q [.enter t q] (s.setCall t q.start)

/-- User code works on messages. -/
inductive UserTrans (L : Layout) (s : Sys) : Sys → Prop
  | createReq (id : UInt32) (size : Nat) (rspFn : Fn) :
      UserTrans L s
        ((s.alloc (msgCreateReq s.nextMsg id size rspFn)).own s.nextMsg)
  | createRsp {m via size req} (hvia : s.accessible L m via = true)
      (hreq : s.msg m = some req) :
      UserTrans L s ((s.alloc (msgCreateRsp req size)).own s.nextMsg)
  | addRef {m via} (hvia : s.accessible L m via = true) :
      UserTrans L s ((s.addRef m).own m)
  | decRef {m} (hm : 0 < s.owned m) : UserTrans L s ((s.decRef m).disown m)
  | setReceipt {m via} (receipt : Int) (hvia : s.accessible L m via = true) :
      UserTrans L s (s.edit m (msgSetReceipt · receipt))
  | setToken {m via} (token : Int) (hvia : s.accessible L m via = true) :
      UserTrans L s (s.edit m (msgSetToken · token))
  | setRspFn {m via} (fn : Fn) (hvia : s.accessible L m via = true) :
      UserTrans L s (s.edit m (msgSetRspFn · fn))

/-- The steps of the system, each with the action that causes it. -/
inductive SysTrans (L : Layout) (s : Sys) : Act → List Event → Sys → Prop
  | worker {g o G events} (hg : g < L.size)
      (h : WorkerTrans (L.conf g) (s.env g) (s.group g) o G events) :
      SysTrans L s (.worker g o) (events.map (.group g))
        ((s.setGroup g G).emitAll L g events)
  | call {t o events s'} (hlive : s.live = true ∨ (s.call t).atGuard = true)
      (h : CallTrans L s t events s') : SysTrans L s (.call t o) events s'
  | enter {t q events s'} (h : EnterTrans L s t q events s') :
      SysTrans L s (.enter t q) events s'
  | user {op s'} (h : UserTrans L s s') : SysTrans L s (.user op) [] s'

section Inversion

variable {L : Layout} {s s' : Sys} {t : Tid} {o : Outcome} {c : Call}
  {events : List Event}

theorem sendStep_trans (hc : s.call t = c)
    (h : s.sendStep L t o c = some (s', events)) : CallTrans L s t events s' := by
  cases c <;> simp only [Sys.sendStep, Sys.sendReturn, reduceCtorEq] at h
  case sendTest a =>
    split at h <;> simp only [Option.some.injEq, Prod.mk.injEq] at h <;>
      obtain ⟨rfl, rfl⟩ := h
    next hctx => exact .sendAccepted hc hctx.2
    next hctx => exact .sendRefused hc hctx
  case sendHook a =>
    split at h <;> simp only [Option.some.injEq, Prod.mk.injEq] at h <;>
      obtain ⟨rfl, rfl⟩ := h
    next hret => exact .sendVeto hc hret
    next => exact .sendHooked hc
  case sendFind a =>
    split at h
    next =>
      simp only [Option.some.injEq, Prod.mk.injEq] at h
      obtain ⟨rfl, rfl⟩ := h
      exact .sendNotFound hc
    next g i hfind =>
      split at h <;> simp only [Option.some.injEq, Prod.mk.injEq] at h <;>
        obtain ⟨rfl, rfl⟩ := h
      · exact .sendNotFound hc
      · exact .sendFound hc hfind
  case pushTest a g i fn =>
    split at h <;> simp only [Option.some.injEq, Prod.mk.injEq] at h <;>
      obtain ⟨rfl, rfl⟩ := h
    · exact .pushOverflow hc
    · exact .pushRoom hc
  case pushAlloc a g i fn =>
    split at h <;> simp only [Option.some.injEq, Prod.mk.injEq] at h <;>
      obtain ⟨rfl, rfl⟩ := h
    · exact .pushRecord hc
    · exact .pushNoMemory hc
  case pushLock a g i r =>
    split at h <;> simp only [Option.some.injEq, Prod.mk.injEq] at h <;>
      obtain ⟨rfl, rfl⟩ := h
    next hpush =>
      refine .pushRefused hc ?_
      simpa [Group.pushMsg] using hpush
    next G hpush => exact .pushAccepted hc hpush
  case pushRevert a r =>
    simp only [Option.some.injEq, Prod.mk.injEq] at h
    obtain ⟨rfl, rfl⟩ := h
    exact .pushReverted hc
  case pushPost a g =>
    simp only [Option.some.injEq, Prod.mk.injEq] at h
    obtain ⟨rfl, rfl⟩ := h
    exact .pushPosted hc
  case sendAfter a code =>
    simp only [Option.some.injEq, Prod.mk.injEq] at h
    obtain ⟨rfl, rfl⟩ := h
    exact .sendDone hc

theorem resumeStep_trans (hc : s.call t = c)
    (h : s.resumeStep L t c = some (s', events)) : CallTrans L s t events s' := by
  cases c <;> simp only [Sys.resumeStep, reduceCtorEq] at h
  case resumeFind id =>
    split at h <;> simp only [Option.some.injEq, Prod.mk.injEq] at h <;>
      obtain ⟨rfl, rfl⟩ := h
    next => exact .resumeNotFound hc
    next g i hfind => exact .resumeFound hc hfind
  case resumeLock g i =>
    split at h <;> simp only [Option.some.injEq, Prod.mk.injEq] at h <;>
      obtain ⟨rfl, rfl⟩ := h
    next => exact .resumeRefused hc
    next G hresume => exact .resumeAccepted hc hresume
  case resumePost g =>
    simp only [Option.some.injEq, Prod.mk.injEq] at h
    obtain ⟨rfl, rfl⟩ := h
    exact .resumePosted hc

theorem exitStep_trans (hc : s.call t = c)
    (h : s.exitStep L t c = some (s', events)) : CallTrans L s t events s' := by
  cases c <;> simp only [Sys.exitStep, reduceCtorEq] at h
  case exitTest td reason =>
    split at h <;> simp only [Option.some.injEq, Prod.mk.injEq] at h <;>
      obtain ⟨rfl, rfl⟩ := h
    next hctx => exact .exitAccepted hc hctx.1 hctx.2
    next => exact .exitRefused hc
  case exitHook td reason =>
    simp only [Option.some.injEq, Prod.mk.injEq] at h
    obtain ⟨rfl, rfl⟩ := h
    exact .exitHooked hc
  case exitWrite td reason =>
    simp only [Option.some.injEq, Prod.mk.injEq] at h
    obtain ⟨rfl, rfl⟩ := h
    exact .exitWritten hc
  case exitPost td k =>
    split at h <;> simp only [Option.some.injEq, Prod.mk.injEq] at h <;>
      obtain ⟨rfl, rfl⟩ := h
    next hk => exact .exitPosted hc hk
    next hk => exact .exitDone hc (Nat.le_of_not_lt hk)

theorem loadStep_trans (hc : s.call t = c)
    (h : s.loadStep L t c = some (s', events)) : CallTrans L s t events s' := by
  cases c <;> simp only [Sys.loadStep, reduceCtorEq] at h
  case loadTest =>
    split at h <;> simp only [Option.some.injEq, Prod.mk.injEq] at h <;>
      obtain ⟨rfl, rfl⟩ := h
    next hctx => exact .loadAccepted hc hctx.2
    next => exact .loadRefused hc
  case loadHook =>
    simp only [Option.some.injEq, Prod.mk.injEq] at h
    obtain ⟨rfl, rfl⟩ := h
    exact .loadHooked hc
  case loadFix k =>
    split at h <;> simp only [Option.some.injEq, Prod.mk.injEq] at h <;>
      obtain ⟨rfl, rfl⟩ := h
    next hk => exact .loadFixed hc hk
    next hk => exact .loadAllFixed hc (Nat.le_of_not_lt hk)
  case loadWrite =>
    simp only [Option.some.injEq, Prod.mk.injEq] at h
    obtain ⟨rfl, rfl⟩ := h
    exact .loadWritten hc
  case loadPost k =>
    split at h <;> simp only [Option.some.injEq, Prod.mk.injEq] at h <;>
      obtain ⟨rfl, rfl⟩ := h
    next hk => exact .loadPosted hc hk
    next hk => exact .loadAllPosted hc (Nat.le_of_not_lt hk)
  case loadPend k =>
    split at h
    next hk =>
      split at h <;>
        simp only [Option.some.injEq, Prod.mk.injEq, reduceCtorEq] at h
      next hready =>
        obtain ⟨rfl, rfl⟩ := h
        exact .loadWoken hc hk (Nat.pos_of_ne_zero hready)
    next hk =>
      simp only [Option.some.injEq, Prod.mk.injEq] at h
      obtain ⟨rfl, rfl⟩ := h
      exact .loadAllReady hc (Nat.le_of_not_lt hk)
  case loadAfter code =>
    simp only [Option.some.injEq, Prod.mk.injEq] at h
    obtain ⟨rfl, rfl⟩ := h
    exact .loadDone hc

theorem cleanStep_trans (hc : s.call t = c)
    (h : s.cleanStep L t c = some (s', events)) : CallTrans L s t events s' := by
  cases c <;> simp only [Sys.cleanStep, reduceCtorEq] at h
  case cleanTest =>
    split at h <;> simp only [Option.some.injEq, Prod.mk.injEq] at h <;>
      obtain ⟨rfl, rfl⟩ := h
    · exact .cleanAccepted hc
    · exact .cleanRefused hc
  case cleanJoin k =>
    split at h
    next hk =>
      split at h <;>
        simp only [Option.some.injEq, Prod.mk.injEq, reduceCtorEq] at h
      next site hret =>
        obtain ⟨rfl, rfl⟩ := h
        exact .cleanJoined hc hk hret
    next hk =>
      simp only [Option.some.injEq, Prod.mk.injEq] at h
      obtain ⟨rfl, rfl⟩ := h
      exact .cleanAllJoined hc (Nat.le_of_not_lt hk)
  case cleanMsgq k i =>
    split at h
    next hi =>
      split at h
      next r rest hq =>
        simp only [Sys.purgeQueued, Sys.emit, Option.some.injEq,
          Prod.mk.injEq] at h
        obtain ⟨rfl, rfl⟩ := h
        exact .cleanQueued hc hi hq
      next hq =>
        split at h <;>
          simp only [Sys.purgeCurrent, Sys.emit, Option.some.injEq,
            Prod.mk.injEq] at h <;> obtain ⟨rfl, rfl⟩ := h
        next r hcur => exact .cleanCurrent hc hi hq hcur
        next hcur => exact .cleanNext hc hi hq hcur
    next hi =>
      simp only [Option.some.injEq, Prod.mk.injEq] at h
      obtain ⟨rfl, rfl⟩ := h
      exact .cleanGroupDone hc (Nat.le_of_not_lt hi)
  case cleanFree =>
    simp only [Option.some.injEq, Prod.mk.injEq] at h
    obtain ⟨rfl, rfl⟩ := h
    exact .cleanFreed hc

/-- Every step of a call in progress is one of the listed transitions. -/
theorem callStep_trans (h : s.callStep L t o = some (s', events)) :
    (s.live = true ∨ (s.call t).atGuard = true) ∧ CallTrans L s t events s' := by
  unfold Sys.callStep at h
  split at h
  next hlive =>
    refine ⟨hlive, ?_⟩
    cases hc : s.call t <;> rw [hc] at h <;> simp only [reduceCtorEq] at h
    case sendTest | sendHook | sendFind | pushTest | pushAlloc | pushLock
      | pushRevert | pushPost | sendAfter => exact sendStep_trans hc h
    case resumeFind | resumeLock | resumePost => exact resumeStep_trans hc h
    case exitTest | exitHook | exitWrite | exitPost =>
      exact exitStep_trans hc h
    case loadTest | loadHook | loadFix | loadWrite | loadPost | loadPend
      | loadAfter => exact loadStep_trans hc h
    case cleanTest | cleanJoin | cleanMsgq | cleanFree =>
      exact cleanStep_trans hc h
    case initTest =>
      simp only [Sys.initStep] at h
      split at h <;>
        simp only [Option.some.injEq, Prod.mk.injEq, reduceCtorEq] at h
      obtain ⟨rfl, rfl⟩ := h
      exact .initRefused hc
  next => cases h

theorem enterStep_trans {q : Request}
    (h : s.enterStep L t q = some (s', events)) :
    EnterTrans L s t q events s' := by
  unfold Sys.enterStep at h
  split at h
  next hmay =>
    split at h
    next a =>
      split at h <;>
        simp only [Option.some.injEq, Prod.mk.injEq, reduceCtorEq] at h
      next hsend =>
        obtain ⟨rfl, rfl⟩ := h
        exact .send hmay hsend
    next hq =>
      simp only [Option.some.injEq, Prod.mk.injEq] at h
      obtain ⟨rfl, rfl⟩ := h
      exact .other hmay fun a ha => hq a ha
  next => cases h

theorem msgStep_trans {op : Sys.MsgOp}
    (h : s.msgStep L op = some (s', events)) :
    UserTrans L s s' ∧ events = [] := by
  cases op <;> simp only [Sys.msgStep] at h
  case createReq id size rspFn =>
    simp only [Option.some.injEq, Prod.mk.injEq] at h
    obtain ⟨rfl, rfl⟩ := h
    exact ⟨.createReq id size rspFn, rfl⟩
  case createRsp m via size =>
    split at h
    next hvia =>
      split at h <;>
        simp only [Option.some.injEq, Prod.mk.injEq, reduceCtorEq] at h
      next req hreq =>
        obtain ⟨rfl, rfl⟩ := h
        exact ⟨.createRsp hvia hreq, rfl⟩
    next => cases h
  case addRef m via =>
    split at h <;>
      simp only [Option.some.injEq, Prod.mk.injEq, reduceCtorEq] at h
    next hvia =>
      obtain ⟨rfl, rfl⟩ := h
      exact ⟨.addRef hvia, rfl⟩
  case decRef m =>
    split at h <;>
      simp only [Option.some.injEq, Prod.mk.injEq, reduceCtorEq] at h
    next hm =>
      obtain ⟨rfl, rfl⟩ := h
      exact ⟨.decRef hm, rfl⟩
  case setReceipt m via receipt | setToken m via token | setRspFn m via fn =>
    split at h <;>
      simp only [Option.some.injEq, Prod.mk.injEq, reduceCtorEq] at h
    next hvia =>
      obtain ⟨rfl, rfl⟩ := h
      first
        | exact ⟨.setReceipt receipt hvia, rfl⟩
        | exact ⟨.setToken token hvia, rfl⟩
        | exact ⟨.setRspFn fn hvia, rfl⟩

/-- Every step of the system is one of the listed transitions. -/
theorem step_trans {a : Act} (h : step L s a = some (s', events)) :
    SysTrans L s a events s' := by
  cases a with
  | worker g o =>
      simp only [step, Sys.workerStep] at h
      split at h
      next hg =>
        split at h
        next => cases h
        next G group hstep =>
          simp only [Option.some.injEq, Prod.mk.injEq] at h
          obtain ⟨rfl, rfl⟩ := h
          exact .worker hg (workerStep_trans hstep)
      next => cases h
  | call t o =>
      obtain ⟨hlive, htrans⟩ := callStep_trans h
      exact .call hlive htrans
  | enter t q => exact .enter (enterStep_trans h)
  | user op =>
      obtain ⟨htrans, rfl⟩ := msgStep_trans h
      exact .user htrans

end Inversion

end Core
end Eaf
