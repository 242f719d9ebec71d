import Eaf.Group.Branches
import Eaf.System.GroupView

/-!
# The system with the code of its handlers

In `Runtime` the outcome of a handler says whether it has yielded, and at which
label.  Here handlers are functions of the form `eaf_reenter { body }`, and the
outcome is what this code does with the branch of the service and the control
bits of the group.  A log keeps the calls that have returned.
-/

namespace Eaf
namespace Core

open LabelledRun CStatements Coroutine

variable {σ ι : Type*}

/-- One call of the handler of a record, from its entry to its return. -/
structure HandlerCall (σ ι : Type*) where
  group : Nat
  service : Nat
  record : MsgqRecord
  activation : Activation σ ι

/-- The system, the handlers the workers are in (with their services and
records), and the calls of handlers so far. -/
structure Fibers (σ ι : Type*) where
  sys : Sys
  calling : Nat → Option (Nat × MsgqRecord × Fn)
  log : List (HandlerCall σ ι)

/-- A step of the system; when a handler is to return, also the variables it was
entered with, the yield hook of the group, and how many passes its loops may
make. -/
structure FiberMove (σ ι : Type*) where
  act : Act
  user : σ
  hook : ι
  passes : Nat

/-- The handler that group `g` enters. -/
def enteredHandler (g : Nat) : Event → Option (Option (Nat × MsgqRecord × Fn))
  | .group k (.start i r fn) | .group k (.reenter i r fn) =>
      if k = g then some (fn.map fun f => (i, r, f)) else none
  | _ => none

namespace Fibers

variable (x : Fibers σ ι)

/-- Before the first step. -/
def initial (L : Layout) : Fibers σ ι := ⟨.initial L, fun _ => none, []⟩

/-- The system has made a step. -/
def after (s : Sys) (events : List Event) : Fibers σ ι where
  sys := s
  calling g :=
    ((events.filterMap (enteredHandler g)).getLast?).getD (x.calling g)
  log := x.log

/-- The handler that returns when an action is taken. -/
def returning : Act → Option (Nat × Outcome × Nat × MsgqRecord × Fn)
  | .worker g o =>
      match (x.sys.group g).worker with
      | .inHandler _ _ => (x.calling g).map fun called => (g, o, called)
      | _ => none
  | _ => none

/-- What the handler of a service works on. -/
def frame (g i : Nat) (m : FiberMove σ ι) : Frame σ ι where
  user := m.user
  branch := ((x.sys.group g).table i).branch
  cc0 := (x.sys.group g).cc0
  hook := m.hook

end Fibers

/-- How a handler was left. -/
def Frame.outcome (left : Frame σ ι) (o : Outcome) : Outcome :=
  { o with yield := left.cc0, branch := left.branch }

/-- The call of a handler that has returned. -/
def Frame.activation (enter : σ) (left : Frame σ ι) : Activation σ ι :=
  ⟨enter, if left.cc0 then some left.hook else none, left.user⟩

/-- A step of the system in which the handler `f` is `eaf_reenter { body f }`. -/
def fiberStep (L : Layout) (body : Fn → Program σ Nat ι) (x : Fibers σ ι)
    (m : FiberMove σ ι) : Option (Fibers σ ι × List Event) :=
  match x.returning m.act with
  | none =>
      (step L x.sys m.act).map fun next => (x.after next.1 next.2, next.2)
  | some (g, o, i, r, f) =>
      (call (m.passes + 1) (eafCoroutineReenter (bodyOf (body f))) 3 .top
          (x.frame g i m)).bind fun left =>
        (step L x.sys (.worker g (left.outcome o))).map fun next =>
          ({ x.after next.1 next.2 with
              log := x.log ++ [⟨g, i, r, left.activation m.user⟩] }, next.2)

/-- The runs of the system with the code of its handlers. -/
abbrev FiberTrace (L : Layout) (body : Fn → Program σ Nat ι) (tr : List Event)
    (x : Fibers σ ι) : Prop :=
  Run (Guarded (fiberStep L body) fun x m => serial L x.sys m.act)
    (.initial L) tr x

/-- A schedule that can be executed, and leads to a state that passes a check,
is a run to such a state. -/
theorem exists_fiberTrace (L : Layout) (body : Fn → Program σ Nat ι)
    (moves : List (FiberMove σ ι)) (check : Fibers σ ι × List Event → Bool)
    (h : (replay (fiberStep L body) (fun x m => serial L x.sys m.act)
      (.initial L) moves).any check = true) :
    ∃ tr x, FiberTrace L body tr x ∧ check (x, tr) = true := by
  obtain ⟨x, tr, hrun, hcheck⟩ := exists_run_of_replay h
  exact ⟨tr, x, hrun, hcheck⟩

variable {L : Layout} {s s' : Sys} {t : Tid} {a : Act} {g i : Nat}
  {r : MsgqRecord} {tr events : List Event} {body : Fn → Program σ Nat ι}
  {x y : Fibers σ ι} {m : FiberMove σ ι}

/-! ## Steps -/

/-- What a step does: no handler returns, or the one that returns has done what
its code says. -/
theorem fiberStep_cases (h : fiberStep L body x m = some (y, events)) :
    (x.returning m.act = none ∧ ∃ s', step L x.sys m.act = some (s', events) ∧
      y = x.after s' events) ∨
    ∃ g o i r f left s', x.returning m.act = some (g, o, i, r, f) ∧
      call (m.passes + 1) (eafCoroutineReenter (bodyOf (body f))) 3 .top
        (x.frame g i m) = some left ∧
      step L x.sys (.worker g (left.outcome o)) = some (s', events) ∧
      y = { x.after s' events with
        log := x.log ++ [⟨g, i, r, left.activation m.user⟩] } := by
  unfold fiberStep at h
  split at h
  next hnone =>
    obtain ⟨⟨s', events'⟩, hstep, heq⟩ := Option.map_eq_some_iff.mp h
    cases heq
    exact .inl ⟨hnone, s', hstep, rfl⟩
  next g o i r f hsome =>
    obtain ⟨left, hcall, hrest⟩ := Option.bind_eq_some_iff.mp h
    obtain ⟨⟨s', events'⟩, hstep, heq⟩ := Option.map_eq_some_iff.mp hrest
    cases heq
    exact .inr ⟨g, o, i, r, f, left, s', hsome, hcall, hstep, rfl⟩

theorem Fibers.returning_some {o : Outcome} {f : Fn}
    (h : x.returning a = some (g, o, i, r, f)) :
    a = .worker g o ∧ x.calling g = some (i, r, f) ∧
      ∃ ph j, (x.sys.group g).worker = .inHandler ph j := by
  unfold Fibers.returning at h
  split at h
  next k o' =>
    split at h
    next ph j hpc =>
      obtain ⟨called, hcalled, heq⟩ := Option.map_eq_some_iff.mp h
      cases heq
      exact ⟨rfl, hcalled, ph, j, hpc⟩
    next => cases h
  next => cases h

/-- A run with the code of the handlers is a run of the system. -/
theorem FiberTrace.trace (h : FiberTrace L body tr x) :
    Trace L (serial L) tr x.sys := by
  refine Run.invariant (P := fun tr x => Trace L (serial L) tr x.sys) h .refl ?_
  rintro tr x events y - ih ⟨m, hserial, hnext⟩
  rcases fiberStep_cases hnext with ⟨-, s', hstep, rfl⟩ |
    ⟨g, o, i, r, f, left, s', hreturn, -, hstep, rfl⟩
  · exact ih.snoc ⟨m.act, hserial, hstep⟩
  · exact ih.snoc ⟨.worker g (left.outcome o), trivial, hstep⟩

/-! ## The branch in a run of the system -/

/-- A call leaves the branches alone. -/
theorem CallTrans.sameFiber (h : CallTrans L s t events s')
    (guards : Guards L s) (hi : i < (L.conf g).size) :
    (s.group g).SameFiber i (s'.group g) := by
  -- most calls change one group, if they change a group at all
  have hgroup : ∀ (s₀ : Sys) {k : Nat} {H : Group}, s₀.group = s.group →
      (k = g → (s.group k).SameFiber i H) →
      (s.group g).SameFiber i ((s₀.setGroup k H).group g) := by
    intro s₀ k H hsame hstep
    rw [Sys.setGroup_group, hsame]
    by_cases hk : g = k
    · subst hk
      rw [Function.update_self]
      exact hstep rfl
    · rw [Function.update_of_ne hk]
      exact .of_eq rfl
  cases h
  case pushAccepted b k j r' G hcall hpush =>
    exact hgroup _ rfl fun _ => Group.pushMsg_sameFiber hpush
  case resumeAccepted k j G hcall hresume =>
    exact hgroup _ rfl fun _ => Group.resumeService_sameFiber hresume
  case loadFixed k hcall hk =>
    refine hgroup _ rfl fun hkg => ?_
    subst hkg
    exact Group.loadFixState_sameFiber (guards.fixing t k hcall hk) hi
  case cleanQueued k j r' rest hcall _ hq =>
    refine hgroup s rfl fun _ => ?_
    exact .update rfl rfl rfl rfl (.inl rfl) id
  case cleanCurrent k j r' hcall _ hq _ =>
    refine hgroup s rfl fun _ => ?_
    exact .update rfl rfl rfl rfl (.inr ⟨rfl, guards.calls.joined t k j hcall⟩) id
  case pushPosted k _ | resumePosted k _ | exitPosted k _ _
    | loadPosted k _ _ =>
    exact hgroup _ rfl fun _ => ⟨rfl, rfl, rfl, .inl rfl, id⟩
  all_goals exact .of_eq (by simp)

/-- Nobody but the worker touches the branches of its services. -/
theorem SysTrans.sameFiber (h : SysTrans L s a events s')
    (guards : Guards L s) (hi : i < (L.conf g).size)
    (hother : ∀ o, a ≠ .worker g o) :
    (s.group g).SameFiber i (s'.group g) := by
  cases h with
  | @worker k o G gevents hk hw =>
      have hgk : g ≠ k := by
        rintro rfl
        exact hother o rfl
      rw [Sys.emitAll_group, Sys.setGroup_group, Function.update_of_ne hgk]
      exact .of_eq rfl
  | call hlive hc => exact hc.sameFiber guards hi
  | enter he =>
      rw [he.group_eq]
      exact .of_eq rfl
  | user hu =>
      rw [hu.group_eq]
      exact .of_eq rfl

/-- In every run the handler of a new message finds the branch at zero. -/
theorem Trace.unbranched (h : Trace L (serial L) tr s)
    (hi : i < (L.conf g).size) : (s.group g).Unbranched i := by
  refine Trace.byTrans (P := fun _ s => (s.group g).Unbranched i) h ?_ ?_
  · exact ⟨fun _ _ _ _ => rfl, nofun, fun _ => rfl⟩
  · intro tr s a events s' hrun ih _ hstep
    by_cases hother : ∀ o, a ≠ .worker g o
    · exact (hstep.sameFiber hrun.guards hi hother).unbranched ih
    · obtain ⟨o, rfl⟩ := not_forall_not.mp hother
      cases hstep with
      | @worker k o G gevents hk hw =>
          rw [Sys.emitAll_group, Sys.setGroup_group, Function.update_self]
          exact hw.unbranched (.ofRun hrun.groupRun) hi ih

/-! ## The handlers the workers are in -/

/-- A worker that is in a handler of service `i` has called it for the current
record. -/
def Fibers.Calling (x : Fibers σ ι) (tr : List Event) (g i : Nat) : Prop :=
  ∀ ph, (x.sys.group g).worker = .inHandler ph i →
    ∃ r f, x.calling g = some (i, r, f) ∧
      ((x.sys.group g).table i).curMsg = some r ∧
      (.group g (.start i r (some f)) ∈ tr ∨
        .group g (.reenter i r (some f)) ∈ tr)

/-- How a worker gets into a handler. -/
theorem WorkerTrans.enters {c : GroupTable} {e : Env} {G G' : Group}
    {o : Outcome} {gevents : List GroupEvent} {ph : Phase}
    (h : WorkerTrans c e G o G' gevents) (hpc : G'.worker = .inHandler ph i) :
    ∃ r f, (G'.table i).curMsg = some r ∧
      (gevents = [.start i r (some f)] ∨ gevents = [.reenter i r (some f)]) := by
  cases h
  case dispatchReenter ph' k r fn h hst hcur hfn =>
    cases fn <;> simp [handlerPc] at hpc
    case some f =>
      obtain ⟨rfl, rfl⟩ := hpc
      exact ⟨r, f, hcur, .inr rfl⟩
  case beforeStart ph' k r fn h hcur hcall hret hfn =>
    cases fn <;> simp [handlerPc] at hpc
    case some f =>
      obtain ⟨rfl, rfl⟩ := hpc
      exact ⟨r, f, hcur, .inl rfl⟩
  case initDone idx caller h hcall hyield =>
    cases caller <;> simp [afterInit] at hpc
  all_goals simp_all

/-- Only the worker of a group enters handlers. -/
theorem SysTrans.enteredHandler_eq (h : SysTrans L s a events s')
    (hother : ∀ o, a ≠ .worker g o) :
    events.filterMap (enteredHandler g) = [] := by
  rw [List.filterMap_eq_nil_iff]
  intro ev hev
  cases h with
  | @worker k o G gevents hk hw =>
      have hne : k ≠ g := by
        rintro rfl
        exact hother o rfl
      obtain ⟨gev, -, rfl⟩ := List.mem_map.mp hev
      cases gev <;> simp [enteredHandler, hne]
  | call hlive hc =>
      cases hc <;> simp at hev <;> rcases hev with rfl | rfl <;> rfl
  | enter he => cases he <;> simp at hev <;> subst hev <;> rfl
  | user hu => simp at hev

/-- The workers go on with the handlers they have called. -/
theorem Fibers.Calling.step (hcalling : x.Calling tr g i)
    (guards : Guards L x.sys) (hi : i < (L.conf g).size)
    (h : SysTrans L x.sys a events s') :
    (x.after s' events).Calling (tr ++ events) g i := by
  intro ph hpc
  by_cases hother : ∀ o, a ≠ .worker g o
  · have hsame := h.sameFiber guards hi hother
    have hpc' : (x.sys.group g).worker = .inHandler ph i :=
      hsame.worker.symm.trans hpc
    obtain ⟨r, f, hcall, hcur, htr⟩ := hcalling ph hpc'
    refine ⟨r, f, ?_, ?_,
      htr.imp (List.mem_append_left _) (List.mem_append_left _)⟩
    · change ((events.filterMap (enteredHandler g)).getLast?).getD _ = _
      rw [h.enteredHandler_eq hother]
      exact hcall
    · rcases hsame.curMsg with heq | ⟨-, site, hsite⟩
      · exact heq.trans hcur
      · rw [hpc'] at hsite
        cases hsite
  · obtain ⟨o, rfl⟩ := not_forall_not.mp hother
    cases h with
    | @worker k o G gevents hk hw =>
        have hgroup : (((x.sys.setGroup g G).emitAll L g gevents).group g) = G := by
          simp
        rw [Fibers.after, hgroup] at hpc
        obtain ⟨r, f, hcur, hgevents⟩ := hw.enters hpc
        refine ⟨r, f, ?_, ?_, ?_⟩
        · rcases hgevents with rfl | rfl <;> simp [Fibers.after, enteredHandler]
        · simpa [Fibers.after] using hcur
        · rcases hgevents with rfl | rfl <;> simp

/-- In every run a worker that is in a handler has called it for the current
record of the service. -/
theorem FiberTrace.calling (h : FiberTrace L body tr x) {ph : Phase}
    (hpc : (x.sys.group g).worker = .inHandler ph i) :
    ∃ r f, x.calling g = some (i, r, f) ∧
      ((x.sys.group g).table i).curMsg = some r ∧
      (.group g (.start i r (some f)) ∈ tr ∨
        .group g (.reenter i r (some f)) ∈ tr) := by
  have hi : i < (L.conf g).size := by
    have hgroup : GroupRun (L.conf g) (tr.filterMap (groupEvent g))
        (x.sys.group g) := (FiberTrace.trace h).groupRun
    exact (GroupInv.ofRun hgroup).focus i (by rw [hpc]; rfl)
  suffices x.Calling tr g i from this ph hpc
  refine h.invariant (P := fun tr x => x.Calling tr g i) nofun ?_
  rintro tr x events y hrun ih ⟨m, -, hnext⟩
  have hguards := (FiberTrace.trace hrun).guards
  rcases fiberStep_cases hnext with ⟨-, s', hstep, rfl⟩ |
    ⟨k, o, j, r, f, left, s', -, -, hstep, rfl⟩
  · exact ih.step hguards hi (step_trans hstep)
  · exact ih.step hguards hi (step_trans hstep)

end Core
end Eaf
