import Eaf.System.GroupView

/-!
# The lists of a group and the states of its services

Whatever the threads of a process do, the two coroutine lists of a group are
in step with the states of its services, and the states mean what the event
loop takes for granted when it picks a service.
-/

namespace Eaf
namespace Core

open LabelledRun

/-- The event loop has picked service `i`, or is about to. -/
def Group.Picked (G : Group) (ph : Phase) (i : Nat) : Prop :=
  (G.worker = .pickBusy ph ∧ G.firstBusy = some i) ∨
    G.worker = .semTryPend ph i ∨ G.worker = .handle ph i

variable {c : GroupTable} {G : Group} {i : Nat}

/-- A node is linked into one list and not into the other. -/
theorem Lists.xor_mem (h : Lists c G) (hi : i < c.size) :
    Xor (i ∈ G.busyList) (i ∈ G.waitList) := by
  rw [h.mem_busy, h.mem_wait]
  cases (G.table i).state.onBusyList <;> simp [hi, Xor]

/-- The states kept on `busy_list`. -/
theorem ServiceState.onBusyList_iff (st : ServiceState) :
    st.onBusyList = true ↔ st = .init1 ∨ st = .busy ∨ st = .exit0 := by
  cases st <;> simp [ServiceState.onBusyList]

/-- A service that the event loop has to initialise has something to do. -/
theorem GroupInv.queue_of_picked (inv : GroupInv c G) (hi : i < c.size)
    {ph : Phase} (hpick : G.Picked ph i) (hst : (G.table i).state = .init1) :
    (G.table i).queue ≠ [] := by
  intro hq
  have hwait := ((inv.sound i hi).waiting hst).2 (.inl hq)
  rcases hpick with ⟨hpc, -⟩ | hpc | hpc <;>
    simp [hpc, Pc.awaits, Pc.early] at hwait

/-- **The lists and the states agree.**  In every reachable state each service
of a group is on exactly one of the two lists, once, and on `busy_list` exactly
in the states `init1`, `busy` and `exit0`; an idle service has neither queued
messages nor a current one; a yielded service has a current message; a service
picked in `init1` has queued messages; and the assertion at the start of
`_eaf_handle_new_message` finds the service busy. -/
theorem lists_agree_with_states (L : Layout) {tr : List Event} {s : Sys}
    (h : Trace L (serial L) tr s) (g : Nat) {i : Nat}
    (hi : i < (L.conf g).size) :
    (Xor (i ∈ (s.group g).busyList) (i ∈ (s.group g).waitList) ∧
      (s.group g).busyList.Nodup ∧ (s.group g).waitList.Nodup) ∧
    (i ∈ (s.group g).busyList ↔
      ((s.group g).table i).state = .init1 ∨
        ((s.group g).table i).state = .busy ∨
        ((s.group g).table i).state = .exit0) ∧
    (((s.group g).table i).state = .idle →
      ((s.group g).table i).queue = [] ∧
        ((s.group g).table i).curMsg = none) ∧
    (((s.group g).table i).state = .yield →
      ((s.group g).table i).curMsg ≠ none) ∧
    (∀ ph, (s.group g).Picked ph i → ((s.group g).table i).state = .init1 →
      ((s.group g).table i).queue ≠ []) ∧
    (∀ ph, (s.group g).worker = .dispatch ph i →
      ((s.group g).table i).state = .busy) := by
  have inv : GroupInv (L.conf g) (s.group g) := GroupInv.ofRun h.groupRun
  have hs := inv.sound i hi
  refine ⟨⟨inv.lists.xor_mem hi, inv.lists.busyNodup, inv.lists.waitNodup⟩,
    ?_, hs.idle, hs.yielded, fun ph => inv.queue_of_picked hi, ?_⟩
  · rw [inv.lists.mem_busy, ServiceState.onBusyList_iff]
    simp [hi]
  · intro ph hpc
    have hholds := hs.holds
    rw [hpc] at hholds
    exact hholds rfl

/-- A group with one lazily loaded service and one ordinary service. -/
def lazyPair : Layout where
  group := [⟨[⟨1, 2, attributeLazyload, some ⟨[⟨5, 7⟩]⟩⟩, ⟨2, 2, 0, some ⟨[]⟩⟩]⟩]
  clients := 2

/-- `eaf_load` of that group, from the first step of the worker to the end of
the call. -/
def lazyPairLoad : List Act :=
  workerSteps 0 1 ++ [.enter (.client 0) .load] ++ clientSteps 0 7 ++
    workerSteps 0 7 ++ clientSteps 0 3

/-- Then a request is sent to the lazily loaded service, which the event loop
picks. -/
def lazyPairRequest : List Act :=
  lazyPairLoad ++
    [.user (.createReq 5 0 0),
      .enter (.client 1) (.send ⟨.req, 9, 1, 0, false⟩)] ++
    clientSteps 1 7 ++ workerSteps 0 3

/-- The event loop picks the lazily loaded service in `init1` and finds its
request. -/
theorem lists_agree_with_states_lazy :
    ∃ tr s, Trace lazyPair (serial lazyPair) tr s ∧
      (s.group 0).worker = .handle .busy 0 ∧
      ((s.group 0).table 0).state = .init1 ∧
      ((s.group 0).table 0).queue ≠ [] := by
  obtain ⟨tr, s, hrun, hcheck⟩ :=
    exists_trace lazyPair (serial lazyPair) lazyPairRequest
      (fun o => decide ((o.1.group 0).worker = .handle .busy 0 ∧
        ((o.1.group 0).table 0).state = .init1)) (by decide +kernel)
  obtain ⟨hpc, hst⟩ := of_decide_eq_true hcheck
  have hagree := lists_agree_with_states lazyPair hrun 0 (i := 0) (by decide)
  exact ⟨tr, s, hrun, hpc, hst,
    hagree.2.2.2.2.1 .busy (.inr (.inr hpc)) hst⟩

end Core
end Eaf
