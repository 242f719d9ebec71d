import Eaf.Core.CurrentService
import Eaf.Guarantees.ListMembership
import Eaf.System.Emptying

/-!
# The service a callback belongs to

The workers set `cur_run` before they call `on_init` or handle a message, and
before `_eaf_group_exit` calls `on_exit`; `_eaf_service_teardown` calls it
without.  There the callback runs as the service that the worker has selected
last, in `_eaf_group_init_necessary` or in its event loop.  An observer of the
run keeps that selection, and knows nothing of `cur_run`.
-/

namespace Eaf
namespace Core

open LabelledRun

variable {L : Layout} {s s' : Sys} {t : Tid} {a : Act} {events tr : List Event}
  {c : GroupTable} {e : Env} {G G' : Group} {o : Outcome}
  {gevents : List GroupEvent} {ok : Sys → Act → Prop}

/-! ## A group -/

/-- The service that `cur_run` has been set to where a worker is, and that it
still handles. -/
def Pc.owner? : Pc → Option Nat
  | .inInit i _ | .handle _ i | .dispatch _ i | .popMsg _ i | .hookBefore _ i
  | .inHandler _ i | .handled _ i | .hookYield _ i | .exInExit i => some i
  | _ => none

theorem Pc.owner?_of_callback {pc : Pc} {i : Nat} (h : pc.callback? = some i)
    (hteardown : pc ≠ .tdInExit i) : pc.owner? = some i := by
  cases pc <;> simp_all [Pc.callback?, Pc.owner?]

/-- The service that the worker selects in its next step:
`_eaf_group_init_necessary` goes through all services of the group, and the
event loop takes the one it has found at the head of `busy_list`. -/
def Pc.selects (c : GroupTable) : Pc → Option Nat
  | .initScan idx _ => if idx < c.size then some idx else none
  | .semTryPend _ i => some i
  | _ => none

/-- The worker is in `_eaf_group_exit`, or has returned. -/
def Pc.leaving : Pc → Bool
  | .exitScan _ | .exInExit _ | .returned _ => true
  | _ => false

/-- The worker is in `_eaf_service_teardown`. -/
def Pc.inTeardown : Pc → Bool
  | .tdScan _ | .tdInExit _ | .tdMsg _ _ _ | .tdSend _ _ _ _ | .tdFree _ _ _
  | .tdPop _ | .tdExit1 _ => true
  | _ => false

/-- `cur_run` is the service that the worker handles. -/
def Group.Owned (G : Group) : Prop :=
  ∀ i, G.worker.owner? = some i → G.curRun = some i

theorem finishServiceInit_curRun (G : Group) (i : Nat) :
    (G.finishServiceInit i).curRun = G.curRun := by
  unfold Group.finishServiceInit
  split <;> rfl

theorem pushMsg_curRun {i : Nat} {r : MsgqRecord} (h : G.pushMsg i r = some G') :
    G'.curRun = G.curRun := by
  unfold Group.pushMsg at h
  split at h
  · cases h
  · cases h
    show (G.pushState i).curRun = G.curRun
    unfold Group.pushState
    split <;> rfl

theorem handlerPc_owner {ph : Phase} {i : Nat} (fn : Option Fn) :
    (handlerPc ph i fn).owner? = some i := by
  cases fn <;> rfl

theorem afterInit_owner {idx i : Nat} {caller : InitCaller}
    (h : (afterInit idx caller).owner? = some i) : i = idx := by
  cases caller with
  | scan counter => cases h
  | loop ph => exact (Option.some.inj h).symm

/-- A worker that has selected a service handles this one. -/
theorem WorkerTrans.owned (h : WorkerTrans c e G o G' gevents)
    (howned : G.Owned) : G'.Owned := by
  intro j hj
  cases h
  case scanInit | tryPend | exitExit0 => exact hj
  case initDone idx caller h _ _ =>
    obtain rfl := afterInit_owner hj
    rw [Group.goto_curRun, finishServiceInit_curRun]
    exact howned j (by rw [h]; rfl)
  case dispatchReenter ph i r fn h _ _ _ | beforeStart ph i r fn h _ _ _ _ =>
    rw [Group.goto_worker, handlerPc_owner] at hj
    exact howned j (by rw [h]; exact hj)
  all_goals simp_all [Group.Owned, Pc.owner?]

/-- Until `_eaf_group_exit`, the worker sets `cur_run` where it selects a
service, and nowhere else. -/
theorem WorkerTrans.curRun_eq (h : WorkerTrans c e G o G' gevents)
    (hexit : G'.worker.leaving = false) :
    G.worker.leaving = false ∧
      G'.curRun = (G.worker.selects c).or G.curRun := by
  cases h
  case initDone idx caller h _ _ =>
    rw [h]
    exact ⟨rfl, finishServiceInit_curRun _ _⟩
  case scanEnd idx counter h hge =>
    rw [h]
    exact ⟨rfl, by simp [Pc.selects, Nat.not_lt.mpr hge]⟩
  all_goals simp_all [Pc.leaving, Pc.selects]

/-- The worker gets into `_eaf_service_teardown` by the test of the context
state, and selects no service in it. -/
theorem WorkerTrans.inTeardown (h : WorkerTrans c e G o G' gevents)
    (htd : G'.worker.inTeardown = true) :
    G.worker.selects c = none ∧ (G.worker.inTeardown = true ∨
      G.worker = .tdTest ∧ e.ctx = .teardown) := by
  cases h
  case initDone idx caller h _ _ =>
    cases caller <;> cases htd
  case dispatchReenter ph i r fn h _ _ _ | beforeStart ph i r fn h _ _ _ _ =>
    cases fn <;> cases htd
  all_goals simp_all [Pc.inTeardown, Pc.selects]

/-- `_eaf_service_teardown` exits the registered services that are not alive. -/
theorem WorkerTrans.exits {i : Nat} (h : WorkerTrans c e G o G' gevents)
    (hpc : G'.worker = .tdInExit i) :
    c.Registered i ∧ (c.row i).alive = false := by
  cases h
  case initDone idx caller h _ _ =>
    cases caller <;> cases hpc
  case dispatchReenter ph i r fn h _ _ _ | beforeStart ph i r fn h _ _ _ _ =>
    cases fn <;> cases hpc
  all_goals simp_all

/-- No thread but its own changes the `cur_run` of a worker. -/
theorem CallTrans.curRun_eq (h : CallTrans L s t events s') (k : Nat) :
    (s'.group k).curRun = (s.group k).curRun := by
  cases h
  case pushAccepted g i r G h hpush =>
    by_cases hk : k = g
    · subst hk
      simpa using pushMsg_curRun hpush
    · simp [hk]
  case resumeAccepted g i G h hresume =>
    obtain ⟨-, rfl⟩ := Group.resumeService_some hresume
    by_cases hk : k = g
    · subst hk
      simp
    · simp [hk]
  case loadFixed g _ _ =>
    by_cases hk : k = g
    · subst hk
      simpa using Group.loadFixState_frame Group.curRun (fun _ _ _ => rfl) (L.conf k) _
    · simp [hk]
  case pushPosted g _ | resumePosted g _ | exitPosted g _ _
    | loadPosted g _ _ | cleanQueued g _ _ _ _ _ _ | cleanCurrent g _ _ _ _ _ _ =>
    by_cases hk : k = g
    · subst hk
      simp
    · simp [hk]
  all_goals simp

/-! ## The context while a worker runs -/

/-- The groups whose workers a call of `eaf_cleanup` has waited for. -/
def Call.joined (L : Layout) : Call → Nat
  | .cleanJoin k => k
  | .cleanMsgq k _ => k + 1
  | .cleanFree => L.size
  | _ => 0

/-- The worker of group `g` has returned. -/
def Sys.Returned (s : Sys) (g : Nat) : Prop :=
  ∃ site, (s.group g).worker = .returned site

/-- `eaf_cleanup` waits for a worker before it goes on. -/
theorem CallTrans.joined {g : Nat} (h : CallTrans L s t events s') (hg : g < L.size)
    (hjoined : g < (s'.call t).joined L) : g < (s.call t).joined L ∨ s.Returned g := by
  cases h
  case cleanJoined k site hcall hk hret =>
    rw [Sys.setCall_call, Function.update_self] at hjoined
    rw [hcall]
    rcases Nat.lt_succ_iff_lt_or_eq.mp hjoined with hlt | rfl
    · exact .inl hlt
    · exact .inr ⟨site, hret⟩
  case cleanAllJoined k hcall hk =>
    rw [hcall]
    exact .inl (Nat.lt_of_lt_of_le hg hk)
  case cleanQueued hcall _ _ | cleanCurrent hcall _ _ _ | cleanNext hcall _ _ _
    | cleanGroupDone hcall _ => simp_all [Call.joined]
  all_goals simp [Call.joined] at hjoined

/-- The workers that `eaf_cleanup` has waited for have returned. -/
structure Joined (L : Layout) (s : Sys) : Prop where
  call : ∀ t, ∀ g < L.size, g < (s.call t).joined L → s.Returned g
  freed : s.live = false → ∀ g < L.size, s.Returned g

theorem Joined.step (h : Joined L s) (hstep : SysTrans L s a events s') :
    Joined L s' := by
  cases hstep with
  | @worker k o G gevents hk hw =>
      have hkeep : ∀ g, s.Returned g →
          ((s.setGroup k G).emitAll L k gevents).Returned g := by
        rintro g ⟨site, hsite⟩
        have hgk : g ≠ k := by
          rintro rfl
          exact hw.not_returned site hsite
        exact ⟨site, by simpa [hgk] using hsite⟩
      refine ⟨fun t g hg hjoined => hkeep g ?_, fun hdead g hg => hkeep g ?_⟩
      · refine h.call t g hg ?_
        rcases Sys.emitAll_call (s.setGroup k G) (t := t) with
          hc | hc | ⟨b, hc⟩ <;> rw [hc] at hjoined
        · exact hjoined
        · cases hjoined
        · cases hjoined
      · exact h.freed (by simpa using hdead) g hg
  | @call t o _ _ hlive hc =>
      have hkeep : ∀ g, s.Returned g → s'.Returned g := by
        rintro g ⟨site, hsite⟩
        exact ⟨site, (hc.worker_eq g).trans hsite⟩
      refine ⟨fun t' g hg hjoined => hkeep g ?_, fun hdead g hg => hkeep g ?_⟩
      · by_cases ht : t' = t
        · subst ht
          rcases hc.joined hg hjoined with hold | hret
          · exact h.call t' g hg hold
          · exact hret
        · rw [hc.call_of_ne ht] at hjoined
          exact h.call t' g hg hjoined
      · rcases hc.live_eq with hsame | hfree
        · exact h.freed (hsame ▸ hdead) g hg
        · exact h.call t g hg (by rw [hfree]; exact hg)
  | @enter t q _ _ he =>
      have hgroup : s'.group = s.group := he.group_eq
      refine ⟨fun t' g hg hjoined => ?_, fun hdead g hg => ?_⟩
      · rw [Sys.Returned, hgroup]
        by_cases ht : t' = t
        · subst ht
          rw [he.call_self] at hjoined
          cases q <;> cases hjoined
        · rw [he.call_of_ne ht] at hjoined
          exact h.call t' g hg hjoined
      · rw [Sys.Returned, hgroup]
        exact h.freed (he.live_eq ▸ hdead) g hg
  | user hu =>
      refine ⟨fun t' g hg hjoined => ?_, fun hdead g hg => ?_⟩
      · rw [Sys.Returned, hu.group_eq]
        exact h.call t' g hg (by rwa [hu.call_eq] at hjoined)
      · rw [Sys.Returned, hu.group_eq]
        exact h.freed (hu.live_eq ▸ hdead) g hg

/-- Nothing is freed while a worker runs. -/
theorem Trace.joined (h : Trace L ok tr s) : Joined L s := by
  refine Trace.byTrans (P := fun _ s => Joined L s) h
    ⟨fun t g _ hjoined => ?_, fun hdead => ?_⟩ ?_
  · cases hjoined
  · cases hdead
  · exact fun _ _ _ _ _ _ ih _ hstep => ih.step hstep

/-! ## An observer of the selections -/

/-- The system, and the service that the worker of each group has selected
last. -/
structure Observed where
  sys : Sys
  selected : Nat → Option Nat

namespace Observed

def initial (L : Layout) : Observed := ⟨.initial L, fun _ => none⟩

/-- What the observer has seen after a step. -/
def select (L : Layout) (x : Observed) : Act → Nat → Option Nat
  | .worker g _ =>
      Function.update x.selected g
        (((x.sys.group g).worker.selects (L.conf g)).or (x.selected g))
  | _ => x.selected

/-- A step of the system under observation. -/
def step (L : Layout) (x : Observed) (a : Act) :
    Option (Observed × List Event) :=
  (Core.step L x.sys a).map fun next => (⟨next.1, x.select L a⟩, next.2)

end Observed

/-- When the worker starts `_eaf_service_teardown`, every registered service of
its group without the attribute `alive` is the one it has selected last. -/
def teardownsSelected (L : Layout) (x : Observed) : Act → Prop
  | .worker g _ =>
      (x.sys.group g).worker = .tdTest → x.sys.ctx = .teardown →
        ∀ i < (L.conf g).size, (L.conf g).Registered i →
          ((L.conf g).row i).alive = false → x.selected g = some i
  | _ => True

instance (L : Layout) (x : Observed) : (a : Act) →
    Decidable (teardownsSelected L x a)
  | .worker g _ => inferInstanceAs (Decidable
      ((x.sys.group g).worker = .tdTest → x.sys.ctx = .teardown →
        ∀ i < (L.conf g).size, (L.conf g).Registered i →
          ((L.conf g).row i).alive = false → x.selected g = some i))
  | .call _ _ | .enter _ _ | .user _ => inferInstanceAs (Decidable True)

/-- Observed runs whose steps satisfy `ok`. -/
abbrev ObservedRun (L : Layout) (ok : Observed → Act → Prop) (tr : List Event)
    (x : Observed) : Prop :=
  Run (Guarded (Observed.step L) ok) (.initial L) tr x

variable {x y : Observed} {okObserved : Observed → Act → Prop}

theorem Observed.step_some (h : x.step L a = some (y, events)) :
    SysTrans L x.sys a events y.sys ∧ y.selected = x.select L a := by
  obtain ⟨next, hnext, heq⟩ := Option.map_eq_some_iff.mp h
  cases heq
  exact ⟨step_trans hnext, rfl⟩

/-- An observed run is a run. -/
theorem ObservedRun.trace (h : ObservedRun L okObserved tr x) :
    Trace L (fun _ _ => True) tr x.sys := by
  refine h.invariant (P := fun tr x => Trace L (fun _ _ => True) tr x.sys)
    .refl ?_
  rintro tr x events y - ih ⟨a, -, hnext⟩
  obtain ⟨next, hsys, heq⟩ := Option.map_eq_some_iff.mp hnext
  cases heq
  exact ih.snoc ⟨a, trivial, hsys⟩

/-- What the observer has seen of a group is what the group is at. -/
structure Tracked (c : GroupTable) (G : Group) (selected : Option Nat) :
    Prop where
  owned : G.Owned
  current : G.worker.leaving = false → G.curRun = selected
  exits : ∀ i, G.worker = .tdInExit i →
    c.Registered i ∧ (c.row i).alive = false

/-- The worker keeps what the observer knows true. -/
theorem Tracked.step {selected : Option Nat} (h : Tracked c G selected)
    (hstep : WorkerTrans c e G o G' gevents) :
    Tracked c G' ((G.worker.selects c).or selected) where
  owned := hstep.owned h.owned
  current hexit := by
    obtain ⟨hbefore, hcur⟩ := hstep.curRun_eq hexit
    rw [hcur, h.current hbefore]
  exits _ hpc := hstep.exits hpc

/-- Nobody else touches what is known about a group. -/
theorem Tracked.congr {selected : Option Nat} (h : Tracked c G selected)
    (hworker : G'.worker = G.worker) (hcur : G'.curRun = G.curRun) :
    Tracked c G' selected := by
  refine ⟨?_, ?_, ?_⟩
  · intro i hi
    rw [hworker] at hi
    exact hcur.trans (h.owned i hi)
  · intro hexit
    rw [hworker] at hexit
    exact hcur.trans (h.current hexit)
  · intro i hi
    exact h.exits i (hworker ▸ hi)

/-- A step of the system as one group sees it: a step of its worker, or nothing
that concerns the worker. -/
theorem Observed.group_cases (h : x.step L a = some (y, events)) (g : Nat) :
    (∃ o G gevents, a = .worker g o ∧
      WorkerTrans (L.conf g) (x.sys.env g) (x.sys.group g) o G gevents ∧
      y.sys.group g = G ∧ y.selected g =
        ((x.sys.group g).worker.selects (L.conf g)).or (x.selected g)) ∨
    (y.sys.group g).worker = (x.sys.group g).worker ∧
      (y.sys.group g).curRun = (x.sys.group g).curRun ∧
      y.selected g = x.selected g := by
  obtain ⟨hstep, hselected⟩ := Observed.step_some h
  generalize y.sys = s' at hstep
  rw [hselected]
  cases hstep with
  | @worker k o G gevents hk hw =>
      rw [Sys.emitAll_group, Sys.setGroup_group]
      by_cases hgk : g = k
      · subst hgk
        refine .inl ⟨o, G, gevents, rfl, hw, ?_, ?_⟩
        · rw [Function.update_self]
        · rw [Observed.select, Function.update_self]
      · refine .inr ⟨?_, ?_, ?_⟩
        · rw [Function.update_of_ne hgk]
        · rw [Function.update_of_ne hgk]
        · rw [Observed.select, Function.update_of_ne hgk]
  | call hlive hc => exact .inr ⟨hc.worker_eq g, hc.curRun_eq g, rfl⟩
  | enter he =>
      rw [he.group_eq]
      exact .inr ⟨rfl, rfl, rfl⟩
  | user hu =>
      rw [hu.group_eq]
      exact .inr ⟨rfl, rfl, rfl⟩

/-- **The selection.**  In every run, until `_eaf_group_exit` the `cur_run` of a
group is the service its worker has selected last. -/
theorem ObservedRun.tracked (h : ObservedRun L okObserved tr x) (g : Nat) :
    Tracked (L.conf g) (x.sys.group g) (x.selected g) := by
  refine h.preserved (P := fun x : Observed =>
    Tracked (L.conf g) (x.sys.group g) (x.selected g)) ?_ ?_
  · exact ⟨fun _ hi => (by cases hi), fun _ => rfl, fun _ hpc => (by cases hpc)⟩
  · rintro x events y ih ⟨a, -, hnext⟩
    rcases Observed.group_cases hnext g with
      ⟨o, G, gevents, -, hw, rfl, hselected⟩ | ⟨hworker, hcur, hselected⟩
    · rw [hselected]
      exact ih.step hw
    · rw [hselected]
      exact ih.congr hworker hcur

/-- During teardown the services that are not alive are still the selected
one. -/
theorem ObservedRun.teardown (h : ObservedRun L (teardownsSelected L) tr x)
    {g i : Nat} (htd : (x.sys.group g).worker.inTeardown = true)
    (hreg : (L.conf g).Registered i)
    (halive : ((L.conf g).row i).alive = false) : x.selected g = some i := by
  refine h.preserved (P := fun x : Observed =>
    (x.sys.group g).worker.inTeardown = true → x.selected g = some i) ?_ ?_ htd
  · intro htd
    cases htd
  · rintro x events y ih ⟨a, hok, hnext⟩ htd
    rcases Observed.group_cases hnext g with
      ⟨o, G, gevents, rfl, hw, rfl, hselected⟩ | ⟨hworker, -, hselected⟩
    · obtain ⟨hnone, hbefore | ⟨htest, hctx⟩⟩ := hw.inTeardown htd
      · rw [hselected, hnone, Option.none_or]
        exact ih hbefore
      · rw [hselected, hnone, Option.none_or]
        exact hok htest hctx i hreg.1 hreg halive
    · rw [hselected]
      exact ih (hworker ▸ htd)

/-! ## The service a callback runs as -/

/-- The thread local storage of a worker in a callback leads to its group. -/
theorem getCurrentGroup_of_callback {g i : Nat}
    (h : (s.group g).worker.callback? = some i) :
    s.getCurrentGroup (.worker g) = some g := by
  rw [Sys.getCurrentGroup]
  split
  case h_1 hpc | h_2 hpc =>
    rw [hpc] at h
    cases h
  case h_3 => rfl

theorem Joined.runsAs {g i : Nat} (h : Joined L s) (hg : g < L.size)
    (hcallback : (s.group g).worker.callback? = some i)
    (hcurrent : (s.group g).curRun = some i) : s.RunsAs L g i := by
  have hlive : s.live = true := by
    by_contra hdead
    obtain ⟨site, hsite⟩ := h.freed (Bool.not_eq_true _ ▸ hdead) g hg
    rw [hsite] at hcallback
    cases hcallback
  have hlocal : s.eafServiceGetLocal (.worker g) = some (g, i) := by
    rw [Sys.eafServiceGetLocal, if_pos hlive, Sys.getCurrentService,
      getCurrentGroup_of_callback hcallback, Option.bind_some, hcurrent, Option.map_some]
  refine ⟨hcurrent, hlocal, ?_⟩
  rw [Sys.eafServiceSelf, hlocal]

/-- Which callbacks run as their owner: all but the `on_exit` that teardown
calls, and that one if the worker has selected its service last. -/
theorem ObservedRun.runsAs_iff (h : ObservedRun L okObserved tr x) {g i : Nat}
    (hg : g < L.size) (hcallback : (x.sys.group g).worker.callback? = some i) :
    x.sys.RunsAs L g i ↔
      ((x.sys.group g).worker = .tdInExit i → x.selected g = some i) := by
  have htracked := h.tracked g
  constructor
  · intro hruns hpc
    rw [← htracked.current (by rw [hpc]; rfl)]
    exact hruns.curRun
  · intro hselected
    refine h.trace.joined.runsAs hg hcallback ?_
    by_cases hpc : (x.sys.group g).worker = .tdInExit i
    · rw [htracked.current (by rw [hpc]; rfl)]
      exact hselected hpc
    · exact htracked.owned i (Pc.owner?_of_callback hcallback hpc)

/-- **The service of a callback.**  In a run in which, whenever a worker starts
`_eaf_service_teardown`, every registered service of its group that is not
`alive` is the one the worker has selected last, every callback runs as the
service that owns it.  In any run the `on_exit` that teardown calls for another
service than the selected one does not, and every other callback does. -/
theorem callbacks_owned (L : Layout) :
    (∀ tr x, ObservedRun L (teardownsSelected L) tr x →
      x.sys.CallbacksOwned L) ∧
    ∀ tr x, ObservedRun L (fun _ _ => True) tr x → ∀ g < L.size, ∀ i,
      (x.sys.group g).worker.callback? = some i →
      (x.sys.RunsAs L g i ↔
        ((x.sys.group g).worker = .tdInExit i → x.selected g = some i)) := by
  refine ⟨fun tr x h g hg i hcallback => ?_, fun tr x h g hg i => h.runsAs_iff hg⟩
  refine (h.runsAs_iff hg hcallback).mpr fun hpc => ?_
  obtain ⟨hreg, halive⟩ := (h.tracked g).exits i hpc
  exact h.teardown (by rw [hpc]; rfl) hreg halive

/-- A group with a service that is `alive`, and an ordinary one. -/
def alivePair : Layout where
  group := [⟨[⟨1, 2, attributeAlive, some ⟨[⟨5, 7⟩]⟩⟩, ⟨2, 2, 0, some ⟨[]⟩⟩]⟩]
  clients := 2

/-- `eaf_teardown` after `eaf_load`, until the worker is in `on_exit` of the
ordinary service. -/
def alivePairInTeardown : List Act :=
  workerSteps 0 1 ++ [.enter (.client 0) .load] ++ clientSteps 0 7 ++
    workerSteps 0 8 ++ clientSteps 0 3 ++
    [.enter (.client 1) .teardown] ++ clientSteps 1 5 ++ workerSteps 0 4

/-- There `eaf_service_self` is the id of that service. -/
theorem callbacks_owned_alive :
    ∃ tr x, ObservedRun alivePair (teardownsSelected alivePair) tr x ∧
      (x.sys.group 0).worker = .tdInExit 1 ∧
      x.sys.eafServiceSelf alivePair (.worker 0) = 2 := by
  have hreplay : (replay (Observed.step alivePair) (teardownsSelected alivePair)
      (.initial alivePair) alivePairInTeardown).any
        (fun out : Observed × List Event =>
          decide ((out.1.sys.group 0).worker = .tdInExit 1)) = true := by
    decide +kernel
  obtain ⟨x, tr, hrun, hcheck⟩ := exists_run_of_replay hreplay
  have hworker := of_decide_eq_true hcheck
  have hruns := (callbacks_owned alivePair).1 tr x hrun 0 (by decide) 1
    (by rw [hworker]; rfl)
  exact ⟨tr, x, hrun, hworker, hruns.self⟩

/-- `eaf_teardown` after `eaf_load`, until the worker is in `on_exit` of the lazily
loaded service. -/
def lazyPairInTeardown : List Act :=
  lazyPairLoad ++ [.enter (.client 1) .teardown] ++ clientSteps 1 5 ++ workerSteps 0 3

/-- There `eaf_service_self` is the id of the other service. -/
theorem callback_not_owned :
    ∃ tr s, Trace lazyPair (serial lazyPair) tr s ∧
      (s.group 0).worker = .tdInExit 0 ∧
      s.eafServiceSelf lazyPair (.worker 0) = 2 ∧ ¬s.CallbacksOwned lazyPair := by
  obtain ⟨tr, s, hrun, hcheck⟩ :=
    exists_trace lazyPair (serial lazyPair) lazyPairInTeardown
      (fun o => decide ((o.1.group 0).worker = .tdInExit 0 ∧
        o.1.eafServiceSelf lazyPair (.worker 0) = 2)) (by decide +kernel)
  obtain ⟨hworker, hself⟩ := of_decide_eq_true hcheck
  refine ⟨tr, s, hrun, hworker, hself, fun howned => ?_⟩
  have hruns := howned 0 (by decide) 0 (by rw [hworker]; rfl)
  have hid := hruns.self.symm.trans hself
  revert hid
  decide

end Core
end Eaf
