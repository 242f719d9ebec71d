import Eaf.Core.GroupWorker
import Eaf.Foundation.LabelledRun

/-!
# One group and the threads that touch it

What the rest of the program can do to a group is little: the loader fixes
the service states once, senders push records, `eaf_resume` wakes a yielded
service, anybody posts the semaphore, and `eaf_cleanup` empties the queues of
a group whose worker has returned.  `GroupStep` interleaves these with the
steps of the worker.  Its side conditions are what the system guarantees about
its groups; everything a group keeps under them is kept in every run of the
system.

The classification of the program points of a worker that the invariants
speak about is collected here too.
-/

namespace Eaf
namespace Core

namespace Pc

/-- The worker has not begun to look at its services, or never will. -/
def early : Pc → Bool
  | .enter | .startTest | .startPend | .startCheck
  | .returned .storage | .returned .notBusy => true
  | _ => false

/-- The worker has yet to reach service `i` in its initial scan, or will not
work any more. -/
def awaits (i : Nat) : Pc → Bool
  | .initScan idx _ | .inInit idx (.scan _) => decide (idx ≤ i)
  | .returned _ => true
  | pc => pc.early

/-- The worker has initialised no service so far. -/
def untouched : Pc → Bool
  | .initScan _ n | .inInit _ (.scan n) | .postReady n => decide (n = 0)
  | .returned .noService => true
  | pc => pc.early

/-- `_eaf_group_exit` is done with service `i`. -/
def doneWith (i : Nat) : Pc → Bool
  | .exitScan k => decide (k ≤ i)
  | .exInExit k => decide (k < i)
  | .returned .finished => true
  | _ => false

/-- The worker is between its initial scan and its final exit. -/
def running : Pc → Bool
  | .enter | .startTest | .startPend | .startCheck | .initScan _ _
  | .inInit _ (.scan _) | .postReady _ | .exitScan _ | .exInExit _
  | .returned _ => false
  | _ => true

/-- The counter of the initial scan is not negative. -/
def Counted : Pc → Prop
  | .initScan _ n | .inInit _ (.scan n) | .postReady n => 0 ≤ n
  | _ => True

/-- The worker is exiting service `i`. -/
def exiting (i : Nat) : Pc → Bool
  | .tdInExit j | .tdMsg j _ _ | .tdSend j _ _ _ | .tdFree j _ _ | .tdPop j
  | .tdExit1 j | .exInExit j => j == i
  | _ => false

/-- The service the worker has in its hands. -/
def focus : Pc → Option Nat
  | .inInit i _ | .semTryPend _ i | .handle _ i | .dispatch _ i | .popMsg _ i
  | .hookBefore _ i | .inHandler _ i | .handled _ i | .hookYield _ i
  | .hookAfter _ i | .resetMsg _ i | .tdInExit i | .tdMsg i _ _
  | .tdSend i _ _ _ | .tdFree i _ _ | .tdPop i | .tdExit1 i | .exInExit i =>
      some i
  | _ => none

/-- The worker has left the busy event loop. -/
def late : Pc → Bool
  | .loopTest ph | .pickBusy ph | .semPend ph | .semTryPend ph _ | .handle ph _
  | .dispatch ph _ | .popMsg ph _ | .hookBefore ph _ | .inHandler ph _
  | .handled ph _ | .hookYield ph _ | .hookAfter ph _ | .resetMsg ph _
  | .inInit _ (.loop ph) => ph == .teardown
  | .tdTest | .tdScan _ | .tdInExit _ | .tdMsg _ _ _ | .tdSend _ _ _ _
  | .tdFree _ _ _ | .tdPop _ | .tdExit1 _ | .exitScan _ | .exInExit _
  | .returned .finished => true
  | _ => false

/-- What the program point says about the service it is about. -/
def Holds (i : Nat) (S : Service) : Pc → Prop
  | .inInit j _ => j = i → S.state = .init1
  | .semTryPend _ j | .handle _ j =>
      j = i → S.state = .init1 ∨ S.state = .busy
  | .dispatch _ j => j = i → S.state = .busy
  | .popMsg _ j => j = i → S.state = .busy ∧ S.curMsg = none
  | .hookBefore _ j | .inHandler _ j | .handled _ j | .hookAfter _ j
  | .resetMsg _ j => j = i → S.state = .busy ∧ S.curMsg ≠ none
  | .tdInExit j | .exInExit j => j = i → S.state = .exit0
  | .tdMsg j r cur | .tdSend j r _ cur | .tdFree j r cur =>
      j = i → S.state = .exit0 ∧ S.curMsg = if cur then some r else none
  | .tdPop j => j = i → S.state = .exit0 ∧ S.curMsg = none
  | .tdExit1 j =>
      j = i → S.state = .exit0 ∧ S.curMsg = none ∧ S.queue = []
  | _ => True

end Pc

/-- The loader has given every service of the group a state. -/
def Group.Fixed (c : GroupTable) (G : Group) : Prop :=
  ∀ i < c.size, (G.table i).state ≠ .init0

/-- The loader has not touched the group. -/
def Group.Raw (c : GroupTable) (G : Group) : Prop :=
  ∀ i < c.size, (G.table i).state = .init0

/-- The moves of a group and of those who share it. -/
inductive GroupStep (c : GroupTable) : Group → List GroupEvent → Group → Prop
  | work {G G' : Group} {e : Env} {o : Outcome} {events : List GroupEvent}
      (hfixed : e.ctx = .busy → G.Fixed c)
      (h : WorkerTrans c e G o G' events) : GroupStep c G events G'
  | fix {G : Group} (hraw : G.Raw c) : GroupStep c G [] (G.loadFixState c)
  | push {G G' : Group} {i : Nat} {r : MsgqRecord} (hfixed : G.Fixed c)
      (hreg : c.Registered i) (h : G.pushMsg i r = some G') :
      GroupStep c G [.push i r (G.table i).state] G'
  | resume {G G' : Group} {i : Nat} (hreg : c.Registered i)
      (h : G.resumeService i = some G') :
      GroupStep c G [.resume i (G.table i).curMsg] G'
  | post {G : Group} : GroupStep c G [] G.semPost
  | purgeQueued {G : Group} {i : Nat} {r : MsgqRecord}
      {rest : List MsgqRecord} {site : ReturnSite} (hi : i < c.size)
      (hworker : G.worker = .returned site)
      (hq : (G.table i).queue = r :: rest) :
      GroupStep c G [.purge i r]
        (G.setService i { G.table i with queue := rest })
  | purgeCurrent {G : Group} {i : Nat} {r : MsgqRecord} {site : ReturnSite}
      (hi : i < c.size) (hworker : G.worker = .returned site)
      (hcur : (G.table i).curMsg = some r) :
      GroupStep c G [.cancel i r, .release i r]
        (G.setService i { G.table i with curMsg := none })

/-- Runs of one group. -/
abbrev GroupRun (c : GroupTable) (tr : List GroupEvent) (G : Group) : Prop :=
  LabelledRun.Run (GroupStep c) (Group.initial c) tr G

end Core
end Eaf
