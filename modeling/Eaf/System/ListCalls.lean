import Eaf.Guarantees.LinkedLists
import Eaf.System.RecordOrigins

/-!
# The list calls of the system

The groups keep their services and the services their records in intrusive
lists: the nodes are fields of `eaf_service_t` and `eaf_msgq_record_t`.  `Links`
is the memory of these nodes with the handlers of all the lists, and
`linkedStep` is a step of the system together with the calls it makes on them.
What the lists in memory have to do with the lists of the model is not assumed
anywhere.
-/

namespace Eaf
namespace Core

open Utils LabelledRun

/-- The lists of a group: `coroutine.busy_list`, `coroutine.wait_list` and the
`msgq.queue` of each service. -/
inductive GroupList
  | busyList
  | waitList
  | queue (i : Nat)
  deriving DecidableEq, Repr

/-- The addresses of `runtime.node` of the services and of `node` of the
records. -/
structure Nodes where
  service : Nat → Nat → Ptr
  record : Nat → Ptr

/-- A call of a list function and what it returns. -/
abbrev ListEvent := ((Nat × GroupList) × ListOp) × Option Ptr

/-- The lists in memory, and the states of the services. -/
structure Links where
  heap : ListHeap (Nat × GroupList)
  /-- `runtime.local.state` -/
  state : Nat → Nat → ServiceState

/-- The list that the two `switch` statements of
`_eaf_service_set_state_nolock` choose for a state. -/
def ServiceState.list (st : ServiceState) : GroupList :=
  if st.onBusyList then .busyList else .waitList

namespace Links

/-- A call of a list function. -/
def apply (m : Links) (l : Nat × GroupList) (op : ListOp) :
    Option (Links × List ListEvent) :=
  (m.heap.next (l, op)).map fun r => ({ m with heap := r.1 }, r.2)

/-- `service->runtime.local.state = state` -/
def store (m : Links) (g i : Nat) (st : ServiceState) : Links :=
  { m with
    state := Function.update m.state g (Function.update (m.state g) i st) }

/-- `_eaf_service_set_state_nolock` -/
def setState (N : Nodes) (g i : Nat) (st : ServiceState) (m : Links) :
    Option (Links × List ListEvent) := do
  let (m, erased) ← m.apply (g, (m.state g i).list) (.erase (N.service g i))
  let (m, pushed) ← m.apply (g, st.list) (.pushBack (N.service g i))
  some (m.store g i st, erased ++ pushed)

end Links

/-- The places of `core/service.c` that change a list of a group. -/
inductive ListCall
  /-- `_eaf_service_set_state_nolock` -/
  | setState (i : Nat) (st : ServiceState)
  /-- `eaf_list_push_back` of a record in `_eaf_service_push_msg` -/
  | push (i : Nat) (r : MsgqRecord)
  /-- `eaf_list_pop_front` of a queue -/
  | pop (i : Nat)

namespace ListCall

/-- What the code does in memory. -/
def run (N : Nodes) (g : Nat) (m : Links) :
    ListCall → Option (Links × List ListEvent)
  | .setState i st => m.setState N g i st
  | .push i r => m.apply (g, .queue i) (.pushBack (N.record r.rid))
  | .pop i => m.apply (g, .queue i) .popFront

/-- What this means for the lists of the model. -/
def act (G : Group) : ListCall → Group
  | .setState i st => G.setState i st
  | .push i r =>
      G.setService i { G.table i with queue := (G.table i).queue ++ [r] }
  | .pop i =>
      G.setService i { G.table i with queue := (G.table i).queue.tail }

/-- Several calls, one after the other. -/
def runAll (N : Nodes) (g : Nat) :
    Links → List ListCall → Option (Links × List ListEvent)
  | m, [] => some (m, [])
  | m, call :: rest => do
      let (m, out) ← call.run N g m
      let (m, later) ← runAll N g m rest
      some (m, out ++ later)

end ListCall

/-! ## The calls of a step -/

/-- The list calls of the next step of a worker. -/
def Group.listCalls (c : GroupTable) (G : Group) : List ListCall :=
  match G.worker with
  | .inInit i _ =>
      .setState i .idle ::
        if (G.table i).queue.length > 0 then [.setState i .busy] else []
  | .popMsg _ i =>
      .pop i :: if (G.table i).queue = [] then [.setState i .idle] else []
  | .handled _ i => if G.cc0 then [.setState i .yield] else []
  | .tdScan i =>
      if i < c.size ∧ (c.row i).alive = false ∧ c.Registered i then
        [.setState i .exit0]
      else []
  | .tdPop i => [.pop i]
  | .tdExit1 i => [.setState i .exit1]
  | .exitScan (i + 1) =>
      if (G.table i).state = .exit1 ∨ ¬ c.Registered i then []
      else [.setState i .exit0]
  | .exInExit i => [.setState i .exit1]
  | _ => []

/-- The list calls of the next step of an API call, with the group they are
about.  The last pop of `_eaf_cleanup_msgq`, which finds nothing, is left
out. -/
def Sys.listCalls (L : Layout) (s : Sys) : Call → Nat × List ListCall
  | .pushLock _ g i r =>
      (g, match ((s.group g).table i).state with
        | .exit0 => []
        | .init2 => [.setState i .init1, .push i r]
        | .idle => [.setState i .busy, .push i r]
        | _ => [.push i r])
  | .resumeLock g i =>
      (g, if ((s.group g).table i).state = .yield then [.setState i .busy]
        else [])
  | .loadFix k =>
      (k, (List.range (L.conf k).size).map fun i =>
        .setState i (Group.loadState ((L.conf k).row i)))
  | .cleanMsgq k i =>
      (k, if i < (L.conf k).size ∧ ((s.group k).table i).queue ≠ [] then [.pop i]
        else [])
  | _ => (0, [])

/-- The list calls of a step. -/
def Sys.callsOf (L : Layout) (s : Sys) : Act → Nat × List ListCall
  | .worker g _ => (g, (s.group g).listCalls (L.conf g))
  | .call t _ => s.listCalls L (s.call t)
  | .enter _ _ => (0, [])
  | .user _ => (0, [])

/-- A step of the system together with its list calls, which are what is
observed of it. -/
def linkedStep (L : Layout) (N : Nodes) (x : Sys × Links) (a : Act) :
    Option ((Sys × Links) × List ListEvent) := do
  let (s, _) ← step L x.1 a
  let (m, out) ← ListCall.runAll N (x.1.callsOf L a).1 x.2 (x.1.callsOf L a).2
  some ((s, m), out)

/-- The services, in the order in which `_eaf_init_group` comes to them. -/
def Layout.services (L : Layout) : List (Nat × Nat) :=
  (List.range L.size).flatMap fun g =>
    (List.range (L.conf g).size).map fun i => (g, i)

namespace Links

/-- `_eaf_init_service` -/
def initService (N : Nodes) (m : Links) (g i : Nat) :
    Option (Links × List ListEvent) := do
  let m := m.store g i .init0
  m.apply (g, .waitList) (.pushBack (N.service g i))

/-- The loops of `_eaf_init_group`, after `eaf_list_init` of all lists. -/
def initGroups (N : Nodes) :
    Links → List (Nat × Nat) → Option (Links × List ListEvent)
  | m, [] => some (m, [])
  | m, (g, i) :: rest => do
      let (m, out) ← m.initService N g i
      let (m, later) ← initGroups N m rest
      some (m, out ++ later)

end Links

/-! ## The calls explain what a step does to the lists -/

/-- The lists, the queues and the states are the same. -/
structure Group.Alike (G G' : Group) : Prop where
  busyList : G'.busyList = G.busyList
  waitList : G'.waitList = G.waitList
  state : ∀ i, (G'.table i).state = (G.table i).state
  queue : ∀ i, (G'.table i).queue = (G.table i).queue

section Alike

variable {G G' : Group} {i : Nat} {S : Service}

theorem Group.Alike.refl (G : Group) : G.Alike G :=
  ⟨rfl, rfl, fun _ => rfl, fun _ => rfl⟩

/-- Nothing but the program point, the semaphore and the like is changed. -/
theorem Group.alike_of_table (hbusy : G'.busyList = G.busyList)
    (hwait : G'.waitList = G.waitList) (htable : G'.table = G.table) :
    G.Alike G' :=
  ⟨hbusy, hwait, fun _ => by rw [htable], fun _ => by rw [htable]⟩

/-- Nothing but the branch or the current record of a service is changed. -/
theorem Group.alike_of_update (hbusy : G'.busyList = G.busyList)
    (hwait : G'.waitList = G.waitList)
    (htable : G'.table = Function.update G.table i S)
    (hstate : S.state = (G.table i).state)
    (hqueue : S.queue = (G.table i).queue) : G.Alike G' := by
  refine ⟨hbusy, hwait, fun j => ?_, fun j => ?_⟩ <;> rw [htable] <;>
    by_cases hj : j = i
  · subst hj
    simpa using hstate
  · simp [hj]
  · subst hj
    simpa using hqueue
  · simp [hj]

theorem Group.Alike.symm (h : G.Alike G') : G'.Alike G :=
  ⟨h.busyList.symm, h.waitList.symm, fun i => (h.state i).symm,
    fun i => (h.queue i).symm⟩

theorem Group.Alike.trans {G'' : Group} (h : G.Alike G') (h' : G'.Alike G'') :
    G.Alike G'' :=
  ⟨h'.busyList.trans h.busyList, h'.waitList.trans h.waitList,
    fun i => (h'.state i).trans (h.state i),
    fun i => (h'.queue i).trans (h.queue i)⟩

/-- A change of state does the same to groups that are alike. -/
theorem Group.Alike.setState (h : G.Alike G') (i : Nat) (st : ServiceState) :
    (G.setState i st).Alike (G'.setState i st) := by
  refine ⟨?_, ?_, fun j => ?_, fun j => ?_⟩
  · simp only [Group.setState, h.busyList, h.state]
  · simp only [Group.setState, h.waitList, h.state]
  · by_cases hj : j = i <;> simp [hj, h.state]
  · by_cases hj : j = i <;> simp [hj, h.queue]

/-- A pop from an empty queue does nothing. -/
theorem Group.alike_pop_nil (h : (G.table i).queue = []) :
    G.Alike (ListCall.act G (.pop i)) :=
  Group.alike_of_update rfl rfl rfl rfl (by simp [h])

end Alike

/-- The calls account for what happens to the lists, the queues and the
states. -/
def Explains (calls : List ListCall) (G G' : Group) : Prop :=
  (calls.foldl ListCall.act G).Alike G'

section Explains

variable {c : GroupTable} {e : Env} {G G' : Group} {o : Outcome}
  {gevents : List GroupEvent} {L : Layout} {s s' : Sys} {t : Tid}
  {events : List Event} {g : Nat}

/-- A worker changes the lists of its group through these calls only. -/
theorem WorkerTrans.explains (h : WorkerTrans c e G o G' gevents) :
    Explains (G.listCalls c) G G' := by
  cases h
  case initDone i caller hpc _ _ =>
    -- the queue decides in both whether the service is busy at once
    have hreset : G.Alike (G.setService i { G.table i with branch := 0 }) :=
      Group.alike_of_update rfl rfl rfl rfl rfl
    have hgoto : ∀ H : Group, H.Alike (H.goto (afterInit i caller)) :=
      fun _ => Group.alike_of_table rfl rfl rfl
    simp only [Explains, Group.listCalls, hpc]
    refine Group.Alike.trans ?_ (hgoto _)
    unfold Group.finishServiceInit
    by_cases hq : (G.table i).queue.length > 0
    · simpa [hq, ListCall.act] using
        (hreset.setState i .idle).setState i .busy
    · simpa [hq, ListCall.act] using hreset.setState i .idle
  case popNone i hpc hq =>
    simp only [Explains, Group.listCalls, hpc, hq, if_true]
    refine Group.Alike.trans ((Group.alike_pop_nil hq).symm.setState i .idle) ?_
    exact Group.alike_of_table rfl rfl rfl
  case popSome i r rest hpc hq =>
    simp only [Explains, Group.listCalls, hpc, hq, reduceCtorEq, if_false]
    refine ⟨rfl, rfl, fun j => ?_, fun j => ?_⟩ <;>
      by_cases hj : j = i <;> simp [ListCall.act, hj, hq]
  case tdPopNone i hpc hq =>
    simp only [Explains, Group.listCalls, hpc]
    refine Group.Alike.trans (Group.alike_pop_nil hq).symm ?_
    exact Group.alike_of_table rfl rfl rfl
  case tdPopSome i r rest hpc hq =>
    simp only [Explains, Group.listCalls, hpc]
    refine ⟨rfl, rfl, fun j => ?_, fun j => ?_⟩ <;>
      by_cases hj : j = i <;> simp [ListCall.act, hj, hq]
  case handlerReturn hpc _ | reset hpc _ | tdFreeCur hpc =>
    simp only [Explains, Group.listCalls, hpc]
    exact Group.alike_of_update rfl rfl rfl rfl rfl
  case tdSkip i hpc hlt hskip =>
    have hnot : ¬((c.row i).alive = false ∧ c.Registered i) := by
      rintro ⟨halive, hreg⟩
      rcases hskip with hskip | hskip
      · simp [halive] at hskip
      · exact hskip hreg
    simp only [Explains, Group.listCalls, hpc, hnot, and_false, if_false]
    exact Group.alike_of_table rfl rfl rfl
  case tdEnd hpc hge =>
    simp only [Explains, Group.listCalls, hpc, Nat.not_lt.mpr hge, false_and,
      if_false]
    exact Group.alike_of_table rfl rfl rfl
  case tdExit0 hpc halive hreg =>
    simp only [Explains, Group.listCalls, hpc]
    rw [if_pos ⟨hreg.1, halive, hreg⟩]
    exact Group.alike_of_table rfl rfl rfl
  case exitExit0 hpc hst hreg =>
    simp only [Explains, Group.listCalls, hpc]
    rw [if_neg (by simp [hst, hreg])]
    exact Group.alike_of_table rfl rfl rfl
  case exitSkip hpc hskip =>
    simp only [Explains, Group.listCalls, hpc]
    rw [if_pos hskip]
    exact Group.alike_of_table rfl rfl rfl
  all_goals
    simp only [Explains, Group.listCalls, *]
    exact Group.alike_of_table rfl rfl rfl

/-- The calls on a group that are made in a step. -/
def callsOn (g : Nat) (calls : Nat × List ListCall) : List ListCall :=
  if g = calls.1 then calls.2 else []

/-- One group is changed, its lists are not. -/
theorem alike_update {T : Nat → Group} {k : Nat} (g : Nat)
    (h : (T k).Alike G') : (T g).Alike (Function.update T k G' g) := by
  by_cases hg : g = k
  · subst hg
    simpa using h
  · simpa [hg] using Group.Alike.refl (T g)

/-- A step that makes no list call and changes no list. -/
theorem explains_nil {calls : Nat × List ListCall} (g : Nat)
    (hcalls : calls.2 = []) (h : G.Alike G') :
    Explains (callsOn g calls) G G' := by
  unfold callsOn
  split
  · rw [hcalls]
    exact h
  · exact h

/-- A step that changes the lists of one group. -/
theorem explains_update {T : Nat → Group} {k : Nat} {calls : List ListCall}
    (g : Nat) (h : Explains calls (T k) G') :
    Explains (callsOn g (k, calls)) (T g) (Function.update T k G' g) := by
  unfold callsOn
  by_cases hg : g = k
  · subst hg
    simpa using h
  · simpa [hg, Explains] using Group.Alike.refl (T g)

/-- The locked part of `_eaf_service_push_msg` changes the state first and
pushes the record then. -/
theorem Group.pushMsg_explains {i : Nat} {r : MsgqRecord}
    (h : G.pushMsg i r = some G') :
    Explains (match (G.table i).state with
      | .exit0 => []
      | .init2 => [.setState i .init1, .push i r]
      | .idle => [.setState i .busy, .push i r]
      | _ => [.push i r]) G G' := by
  unfold Group.pushMsg at h
  split at h
  · cases h
  next hst =>
    cases h
    unfold Group.pushState
    cases hstate : (G.table i).state
    case exit0 => exact absurd hstate hst
    all_goals
      refine ⟨rfl, rfl, fun j => ?_, fun j => ?_⟩ <;>
        by_cases hj : j = i <;> simp [ListCall.act, hj]

/-- An API call changes the lists of one group through these calls only, and
those of the others not at all. -/
theorem CallTrans.explains (h : CallTrans L s t events s')
    (hresume : ∀ k i, s.call t = .resumeLock k i →
      Explains (callsOn g (s.listCalls L (s.call t))) (s.group g) (s'.group g)) :
    Explains (callsOn g (s.listCalls L (s.call t))) (s.group g) (s'.group g) := by
  cases h
  case pushAccepted b k i r G hcall hpush =>
    simp only [hcall, Sys.listCalls, Sys.setCall_group, Sys.setGroup_group]
    exact explains_update g (Group.pushMsg_explains hpush)
  case pushRefused hcall hst =>
    exact explains_nil g (by simp [hcall, Sys.listCalls, hst]) (.refl _)
  case resumeAccepted hcall _ | resumeRefused hcall => exact hresume _ _ hcall
  case loadFixed k hcall _ =>
    simp only [hcall, Sys.listCalls, Sys.setCall_group, Sys.setGroup_group]
    refine explains_update g ?_
    rw [Explains, List.foldl_map]
    exact .refl _
  case loadAllFixed k hcall hk =>
    have hsize : (L.conf k).size = 0 := by
      by_contra hpos
      have hlt := Layout.lt_size_of_lt (Nat.pos_of_ne_zero hpos)
      omega
    exact explains_nil g (by simp [hcall, Sys.listCalls, hsize]) (.refl _)
  case cleanQueued k i r rest hcall hi hq =>
    simp only [hcall, Sys.listCalls, Sys.decRef_group, Sys.setGroup_group]
    refine explains_update g ?_
    rw [if_pos ⟨hi, by simp [hq]⟩]
    refine ⟨rfl, rfl, fun j => ?_, fun j => ?_⟩ <;>
      by_cases hj : j = i <;> simp [ListCall.act, hj, hq]
  case cleanCurrent k i r hcall hi hq hcur =>
    refine explains_nil g (by simp [hcall, Sys.listCalls, hq]) ?_
    simp only [Sys.decRef_group, Sys.setGroup_group]
    exact alike_update g (Group.alike_of_update rfl rfl rfl rfl rfl)
  case cleanNext hcall hi hq _ =>
    exact explains_nil g (by simp [hcall, Sys.listCalls, hq]) (.refl _)
  case cleanGroupDone hcall hi =>
    exact explains_nil g (by simp [hcall, Sys.listCalls, hi]) (.refl _)
  case pushPosted hcall | resumePosted hcall | exitPosted hcall _
    | loadPosted hcall _ =>
    refine explains_nil g (by simp [hcall, Sys.listCalls]) ?_
    simp only [Sys.setCall_group, Sys.setGroup_group]
    exact alike_update g (Group.alike_of_table rfl rfl rfl)
  all_goals
    refine explains_nil g (by simp [Sys.listCalls, *]) ?_
    exact Group.alike_of_table (by simp) (by simp) (by simp)

/-- The locked part of `eaf_resume` changes the state of a service that has
yielded. -/
theorem Sys.resumeStep_explains {k i : Nat}
    (h : s.resumeStep L t (.resumeLock k i) = some (s', events)) :
    Explains (callsOn g (s.listCalls L (.resumeLock k i))) (s.group g)
      (s'.group g) := by
  simp only [Sys.resumeStep, Group.resumeService] at h
  split at h
  next hnone =>
    obtain ⟨rfl, -⟩ := Prod.mk.inj (Option.some.inj h)
    have hst : ((s.group k).table i).state ≠ .yield := by simpa using hnone
    exact explains_nil g (by simp [Sys.listCalls, hst]) (.refl _)
  next H hsome =>
    obtain ⟨rfl, -⟩ := Prod.mk.inj (Option.some.inj h)
    obtain ⟨hst, rfl⟩ : ((s.group k).table i).state = .yield ∧
        (s.group k).setState i .busy = H := by simpa using hsome
    simp only [Sys.listCalls, Sys.setCall_group, Sys.setGroup_group, hst,
      if_true]
    exact explains_update g (.refl _)

/-- **One step.**  What a step does to the lists, the queues and the states of
the groups are the list calls it makes. -/
theorem step_explains {a : Act} (h : step L s a = some (s', events)) (g : Nat) :
    Explains (callsOn g (s.callsOf L a)) (s.group g) (s'.group g) := by
  cases step_trans h with
  | @worker k o G gevents hk hw =>
      simp only [Sys.callsOf, Sys.emitAll_group, Sys.setGroup_group]
      exact explains_update g hw.explains
  | @call t o events s' hlive hc =>
      refine hc.explains fun k i hcall => ?_
      have hstep : s.callStep L t o = some (s', events) := h
      rw [Sys.callStep, if_pos hlive, hcall] at hstep
      rw [hcall]
      exact Sys.resumeStep_explains hstep
  | enter he =>
      rw [he.group_eq]
      exact explains_nil g rfl (.refl _)
  | user hu =>
      rw [hu.group_eq]
      exact explains_nil g rfl (.refl _)

end Explains

end Core
end Eaf
