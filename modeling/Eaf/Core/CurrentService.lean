import Eaf.Core.Runtime

/-!
# The current service

How a callback finds out which service it belongs to: through the thread local
storage of the worker that runs it, and the `cur_run` of that worker's group.
-/

namespace Eaf
namespace Core

/-- The service whose callback a worker is in. -/
def Pc.callback? : Pc → Option Nat
  | .inInit i _ | .inHandler _ i | .hookYield _ i | .tdInExit i | .exInExit i => some i
  | _ => none

namespace Sys

variable (s : Sys)

/-- `_eaf_get_current_group`: a worker has stored its group once
`eaf_thread_storage_set` has succeeded. -/
def getCurrentGroup : Tid → Option Nat
  | .client _ => none
  | .worker g =>
      match (s.group g).worker with
      | .enter | .returned .storage => none
      | _ => some g

/-- `_eaf_get_current_service` -/
def getCurrentService (t : Tid) : Option (Nat × Nat) :=
  (s.getCurrentGroup t).bind fun g => (s.group g).curRun.map fun i => (g, i)

/-- `eaf_service_get_local`: the group and the service whose local storage the
caller gets. -/
def eafServiceGetLocal (t : Tid) : Option (Nat × Nat) :=
  if s.live then s.getCurrentService t else none

/-- `eaf_service_self` -/
def eafServiceSelf (L : Layout) (t : Tid) : UInt32 :=
  match s.eafServiceGetLocal t with
  | some (g, i) => ((L.conf g).row i).srvId
  | none => 0xFFFFFFFF

/-- The worker of group `g` is in a callback of service `i`, and is seen there as
that service. -/
structure RunsAs (L : Layout) (g i : Nat) : Prop where
  curRun : (s.group g).curRun = some i
  getLocal : s.eafServiceGetLocal (.worker g) = some (g, i)
  self : s.eafServiceSelf L (.worker g) = ((L.conf g).row i).srvId

/-- Every callback runs as the service that owns it. -/
def CallbacksOwned (L : Layout) : Prop :=
  ∀ g < L.size, ∀ i, (s.group g).worker.callback? = some i → s.RunsAs L g i

end Sys

end Core
end Eaf
