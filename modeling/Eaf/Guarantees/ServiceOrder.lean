import Eaf.Foundation.WaitingLine
import Eaf.System.GroupView

/-!
# First come, first served

A group handles the messages of the services on its `busy_list`.  A service
that becomes ready is appended to this list, and the event loop takes its first
service.  So nobody who becomes ready later is handled before a service that
waits: until its turn comes, the worker handles the services that were ahead of
it, and the one it had picked already.
-/

namespace Eaf
namespace Core

open LabelledRun WaitingLine

variable {c : GroupTable} {e : Env} {G G' : Group} {o : Outcome}
  {gevents : List GroupEvent} {i j k : Nat} {st : ServiceState}

/-! ## The line of the ready services -/

/-- Changing the state of another service brings nobody ahead. -/
theorem Group.setState_ahead (hne : k ≠ i) (hmem : i ∈ G.busyList) :
    i ∈ (G.setState k st).busyList ∧
      (ahead (G.setState k st).busyList i).Sublist (ahead G.busyList i) := by
  have herase : i ∈ G.busyList.erase k := (List.mem_erase_of_ne (Ne.symm hne)).mpr hmem
  unfold Group.setState
  dsimp only
  split
  · rw [ahead_append herase]
    exact ⟨List.mem_append_left _ herase, ahead_erase hne _⟩
  · rw [ahead_append hmem]
    exact ⟨List.mem_append_left _ hmem, List.Sublist.refl _⟩

theorem Group.finishServiceInit_ahead (hne : k ≠ i) (hmem : i ∈ G.busyList) :
    (ahead (G.finishServiceInit k).busyList i).Sublist
      (ahead G.busyList i) := by
  obtain ⟨hidle, hahead⟩ : i ∈ (G.setState k .idle).busyList ∧ _ :=
    G.setState_ahead hne hmem
  unfold Group.finishServiceInit
  split
  · exact ((G.setState k .idle).setState_ahead hne hidle).2.trans hahead
  · exact hahead

/-- A push makes another service ready, if any. -/
theorem Group.pushMsg_ahead {r : MsgqRecord} (hmem : i ∈ G.busyList)
    (hready : (G.table i).state.onBusyList = true)
    (h : G.pushMsg k r = some G') :
    (ahead G'.busyList i).Sublist (ahead G.busyList i) := by
  have hne : (G.table k).state.onBusyList = false → k ≠ i := by
    rintro hwaits rfl
    rw [hready] at hwaits
    cases hwaits
  unfold Group.pushMsg at h
  split at h
  · cases h
  cases h
  change (ahead (G.pushState k).busyList i).Sublist _
  unfold Group.pushState
  split
  next hst => exact (G.setState_ahead (hne (by rw [hst]; rfl)) hmem).2
  next hst => exact (G.setState_ahead (hne (by rw [hst]; rfl)) hmem).2
  next => exact List.Sublist.refl _

/-- `eaf_resume` makes another service ready. -/
theorem Group.resumeService_ahead (hmem : i ∈ G.busyList)
    (hready : (G.table i).state.onBusyList = true)
    (h : G.resumeService k = some G') :
    (ahead G'.busyList i).Sublist (ahead G.busyList i) := by
  obtain ⟨hst, rfl⟩ := Group.resumeService_some h
  have hne : k ≠ i := by
    rintro rfl
    rw [hst] at hready
    cases hready
  exact (G.setState_ahead hne hmem).2

/-- While a ready service keeps its state, a step of the worker brings nobody
ahead of it. -/
theorem WorkerTrans.ready_ahead (inv : GroupInv c G)
    (h : WorkerTrans c e G o G' gevents) (hi : i < c.size)
    (hready : (G.table i).state.onBusyList = true)
    (hsame : (G'.table i).state = (G.table i).state) :
    (ahead G'.busyList i).Sublist (ahead G.busyList i) := by
  have hs := inv.sound i hi
  have hmem : i ∈ G.busyList := (inv.lists.mem_busy i).mpr ⟨hi, hready⟩
  cases h
  case initDone idx caller h hcall hyield =>
    have hne : idx ≠ i := by
      rintro rfl
      -- the service leaves `init1` and goes to the end of the line
      have hst := (h ▸ hs.holds) rfl
      simp [hst, Group.initDoneState] at hsame
      split at hsame <;> cases hsame
    exact Group.finishServiceInit_ahead hne hmem
  case popNone ph k h hq | handledYield ph k r h hcur hcc | tdSetExit1 k h | exitExit1 k h hcall =>
    have hne : k ≠ i := by
      rintro rfl
      simp at hsame
      rw [← hsame] at hready
      cases hready
    exact (G.setState_ahead hne hmem).2
  case tdExit0 k h halive hreg =>
    have hne : k ≠ i := by
      rintro rfl
      simp at hsame
      have hexit := hs.leaving hsame.symm
      rw [h] at hexit
      cases hexit
    exact (G.setState_ahead hne hmem).2
  case exitExit0 k h hst hreg =>
    have hne : k ≠ i := by
      rintro rfl
      simp at hsame
      have hexit := hs.leaving hsame.symm
      rw [h] at hexit
      cases hexit
    exact (G.setState_ahead hne hmem).2
  all_goals exact List.Sublist.refl _

/-! ## The services the worker deals with -/

/-- The service the event loop has picked. -/
def Pc.serving : Pc → Option Nat
  | .semTryPend _ i | .handle _ i | .inInit i (.loop _) | .dispatch _ i
  | .popMsg _ i | .hookBefore _ i | .inHandler _ i | .handled _ i
  | .hookYield _ i | .hookAfter _ i | .resetMsg _ i => some i
  | _ => none

/-- The service whose message is taken from its queue, or handled. -/
def GroupEvent.serves : GroupEvent → Option Nat
  | .take i _ | .start i _ _ | .reenter i _ _ => some i
  | _ => none

/-- The event loop goes on with the service it has, or picks the first one of
the line. -/
theorem WorkerTrans.serving (h : WorkerTrans c e G o G' gevents)
    (hj : G'.worker.serving = some j) :
    G.worker.serving = some j ∨ ∃ rest, G.busyList = j :: rest := by
  cases h
  case pickSome ph k rest h hlist =>
    obtain rfl : k = j := by simpa [Pc.serving] using hj
    exact .inr ⟨rest, hlist⟩
  case initDone idx caller h hcall hyield =>
    left
    cases caller <;> simp_all [afterInit, Pc.serving]
  case dispatchReenter ph k r fn h _ _ _ | beforeStart ph k r fn h _ _ _ _ =>
    left
    cases fn <;> simp_all [handlerPc, Pc.serving]
  all_goals
    left
    simp_all [Pc.serving]

/-- Only the service it has picked is served. -/
theorem WorkerTrans.serves (h : WorkerTrans c e G o G' gevents)
    {ev : GroupEvent} (hev : ev ∈ gevents) (hj : ev.serves = some j) :
    G.worker.serving = some j := by
  cases h
  case readyNone =>
    have hsilent : ev = .ready ∨ ev = .failure := by
      split at hev <;> simp_all
    rcases hsilent with rfl | rfl <;> cases hj
  case tdExitedCur =>
    rcases List.mem_cons.mp hev with rfl | hev
    · cases hj
    · rw [List.mem_singleton.mp hev] at hj
      cases hj
  all_goals simp_all [Pc.serving, GroupEvent.serves]

/-! ## Along a run -/

variable {L : Layout} {s s' : Sys} {t : Tid} {a : Act} {g : Nat}
  {tr events : List Event}

/-- A call brings nobody ahead of a ready service. -/
theorem CallTrans.ready_ahead (h : CallTrans L s t events s') (guards : Guards L s)
    (hi : i < (L.conf g).size)
    (hmem : i ∈ (s.group g).busyList)
    (hready : ((s.group g).table i).state.onBusyList = true) :
    (ahead (s'.group g).busyList i).Sublist (ahead (s.group g).busyList i) := by
  -- most calls change one group, if they change a group at all
  have hgroup : ∀ (s₀ : Sys) {k : Nat} {H : Group}, s₀.group = s.group →
      (k = g → (ahead H.busyList i).Sublist (ahead (s.group k).busyList i)) →
      (ahead ((s₀.setGroup k H).group g).busyList i).Sublist
        (ahead (s.group g).busyList i) := by
    intro s₀ k H hsame hstep
    rw [Sys.setGroup_group, hsame]
    by_cases hk : g = k
    · subst hk
      rw [Function.update_self]
      exact hstep rfl
    · rw [Function.update_of_ne hk]
  cases h
  case pushAccepted b k j r' G hcall hpush =>
    refine hgroup _ rfl fun hkg => ?_
    subst hkg
    exact Group.pushMsg_ahead hmem hready hpush
  case resumeAccepted k j G hcall hresume =>
    refine hgroup _ rfl fun hkg => ?_
    subst hkg
    exact Group.resumeService_ahead hmem hready hresume
  case loadFixed k hcall hk =>
    refine hgroup _ rfl fun hkg => ?_
    subst hkg
    rw [guards.fixing t k hcall hk i hi] at hready
    cases hready
  case cleanQueued | cleanCurrent =>
    exact hgroup s rfl fun _ => List.Sublist.refl _
  case pushPosted k _ | resumePosted k _ | exitPosted k _ _
    | loadPosted k _ _ =>
    exact hgroup _ rfl fun _ => List.Sublist.refl _
  all_goals simp

/-- Nobody gets ahead of a ready service that keeps its state. -/
theorem SysTrans.ready_ahead (h : SysTrans L s a events s')
    (hrun : Trace L (serial L) tr s) (hi : i < (L.conf g).size)
    (hready : ((s.group g).table i).state.onBusyList = true)
    (hsame : ((s'.group g).table i).state = ((s.group g).table i).state) :
    (ahead (s'.group g).busyList i).Sublist (ahead (s.group g).busyList i) := by
  have inv : GroupInv (L.conf g) (s.group g) := GroupInv.ofRun hrun.groupRun
  have hmem := (inv.lists.mem_busy i).mpr ⟨hi, hready⟩
  cases h with
  | @worker k o G gevents hk hw =>
      rw [Sys.emitAll_group, Sys.setGroup_group] at hsame ⊢
      by_cases hgk : g = k
      · subst hgk
        rw [Function.update_self] at hsame ⊢
        exact hw.ready_ahead inv hi hready hsame
      · rw [Function.update_of_ne hgk]
  | call hlive hc => exact hc.ready_ahead hrun.guards hi hmem hready
  | enter he => rw [he.group_eq]
  | user hu => rw [hu.group_eq]

/-- The event loop picks the first of the line. -/
theorem SysTrans.serving (h : SysTrans L s a events s')
    (hj : (s'.group g).worker.serving = some j) :
    (s.group g).worker.serving = some j ∨
      ∃ rest, (s.group g).busyList = j :: rest := by
  cases h with
  | @worker k o G gevents hk hw =>
      rw [Sys.emitAll_group, Sys.setGroup_group] at hj
      by_cases hgk : g = k
      · subst hgk
        rw [Function.update_self] at hj
        exact hw.serving hj
      · rw [Function.update_of_ne hgk] at hj
        exact .inl hj
  | call hlive hc => exact .inl (hc.worker_eq g ▸ hj)
  | enter he => exact .inl (he.group_eq ▸ hj)
  | user hu => exact .inl (hu.group_eq ▸ hj)

theorem SysTrans.serves (h : SysTrans L s a events s') {ev : GroupEvent}
    (hev : .group g ev ∈ events) (hj : ev.serves = some j) :
    (s.group g).worker.serving = some j := by
  cases h with
  | @worker k o G gevents hk hw =>
      obtain ⟨ev', hmem, heq⟩ := List.mem_map.mp hev
      obtain ⟨rfl, rfl⟩ := Event.group.inj heq
      exact hw.serves hmem hj
  | call hlive hc =>
      cases hc <;> simp at hev
      case cleanCurrent => rcases hev with ⟨-, rfl⟩ | ⟨-, rfl⟩ <;> cases hj
      all_goals
        obtain ⟨-, rfl⟩ := hev
        cases hj
  | enter he => cases he <;> simp at hev
  | user hu => simp at hev

/-- Steps of the system in which service `i` of group `g` keeps its state. -/
def KeepsState (L : Layout) (g i : Nat) (s : Sys) (events : List Event)
    (s' : Sys) : Prop :=
  Guarded (step L) (serial L) s events s' ∧
    ((s'.group g).table i).state = ((s.group g).table i).state

/-- **First come, first served.**  While a service waits on the `busy_list`, and
as long as calls of `eaf_load` and `eaf_cleanup` do not overlap, the services
ahead of it only become fewer, and keep their order.  Whatever its
group serves meanwhile was ahead of it from the start, or picked already, unless
it is the service itself. -/
theorem first_come_first_served (L : Layout) (h : Trace L (serial L) tr s)
    (hi : i < (L.conf g).size) (hmem : i ∈ (s.group g).busyList)
    {tr' : List Event} (hwait : Run (KeepsState L g i) s tr' s') :
    (ahead (s'.group g).busyList i).Sublist (ahead (s.group g).busyList i) ∧
      ∀ ev j, .group g ev ∈ tr' → ev.serves = some j →
        j = i ∨ j ∈ ahead (s.group g).busyList i ∨
          (s.group g).worker.serving = some j := by
  have inv : GroupInv (L.conf g) (s.group g) := GroupInv.ofRun h.groupRun
  have hready := ((inv.lists.mem_busy i).mp hmem).2
  -- the line only gets shorter in front of `i`, and the worker takes from there
  suffices hall : Trace L (serial L) (tr ++ tr') s' ∧
      ((s'.group g).table i).state = ((s.group g).table i).state ∧
      (ahead (s'.group g).busyList i).Sublist (ahead (s.group g).busyList i) ∧
      (∀ j, (s'.group g).worker.serving = some j →
        j = i ∨ j ∈ ahead (s.group g).busyList i ∨
          (s.group g).worker.serving = some j) ∧
      ∀ ev j, .group g ev ∈ tr' → ev.serves = some j →
        j = i ∨ j ∈ ahead (s.group g).busyList i ∨
          (s.group g).worker.serving = some j from
    ⟨hall.2.2.1, hall.2.2.2.2⟩
  refine hwait.invariant (P := fun tr' s' => Trace L (serial L) (tr ++ tr') s' ∧
    ((s'.group g).table i).state = ((s.group g).table i).state ∧
    (ahead (s'.group g).busyList i).Sublist (ahead (s.group g).busyList i) ∧
    (∀ j, (s'.group g).worker.serving = some j →
      j = i ∨ j ∈ ahead (s.group g).busyList i ∨
        (s.group g).worker.serving = some j) ∧
    ∀ ev j, .group g ev ∈ tr' → ev.serves = some j →
      j = i ∨ j ∈ ahead (s.group g).busyList i ∨
        (s.group g).worker.serving = some j) ?_ ?_
  · exact ⟨by simpa using h, rfl, List.Sublist.refl _, fun j hj => .inr (.inr hj),
      nofun⟩
  · rintro tr' m events s' - ⟨hrun, hstate, hahead, hserving, hserved⟩
      ⟨⟨a, hserial, hnext⟩, hkeeps⟩
    have hstep := step_trans hnext
    refine ⟨?_, hkeeps.trans hstate, ?_, fun j hj => ?_, fun ev j hev hj => ?_⟩
    · rw [← List.append_assoc]
      exact hrun.snoc ⟨a, hserial, hnext⟩
    · exact (hstep.ready_ahead hrun hi (hstate ▸ hready) hkeeps).trans hahead
    · rcases hstep.serving hj with hold | ⟨rest, hline⟩
      · exact hserving j hold
      · -- the one picked is the first of what is left of the line
        rcases head_ahead hline i with hji | hfront
        · exact .inl hji
        · exact .inr (.inl (hahead.subset hfront))
    · rcases List.mem_append.mp hev with hold | hnew
      · exact hserved ev j hold hj
      · exact hserving j (hstep.serves hnew hj)

/-- A group with two services that are initialised when it is loaded. -/
def eagerPair : Layout where
  group := [⟨[⟨1, 2, 0, some ⟨[⟨5, 7⟩]⟩⟩, ⟨2, 2, 0, some ⟨[⟨5, 8⟩]⟩⟩]⟩]
  clients := 2

/-- `eaf_load` of that group, and a request to each of its services. -/
def eagerPairRequests : List Act :=
  workerSteps 0 1 ++ [.enter (.client 0) .load] ++ clientSteps 0 7 ++
    workerSteps 0 12 ++ clientSteps 0 3 ++
    [.user (.createReq 5 0 0),
      .enter (.client 1) (.send ⟨.req, 9, 1, 0, false⟩)] ++ clientSteps 1 8 ++
    [.user (.createReq 5 0 0),
      .enter (.client 1) (.send ⟨.req, 9, 2, 1, false⟩)] ++ clientSteps 1 8

/-- The second service keeps its state in the next step. -/
def keepsSecond (s : Sys) (a : Act) : Prop :=
  serial eagerPair s a ∧
    ((step eagerPair s a).all fun next =>
      ((next.1.group 0).table 1).state == ((s.group 0).table 1).state) = true

instance (s : Sys) (a : Act) : Decidable (keepsSecond s a) :=
  inferInstanceAs (Decidable (_ ∧ _))

/-- While the second service waits, the request of the first one is handled. -/
theorem first_come_first_served_pair :
    ∃ tr s tr' s', Trace eagerPair (serial eagerPair) tr s ∧
      1 ∈ (s.group 0).busyList ∧ Run (KeepsState eagerPair 0 1) s tr' s' ∧
      .group 0 (.start 0 ⟨0, some 7, 9, 1, 0⟩ (some 7)) ∈ tr' ∧
      (0 = 1 ∨ 0 ∈ ahead (s.group 0).busyList 1 ∨
        (s.group 0).worker.serving = some 0) := by
  obtain ⟨tr, s, hrun, hcheck⟩ :=
    exists_trace eagerPair (serial eagerPair) eagerPairRequests
      (fun o => decide (1 ∈ (o.1.group 0).busyList) &&
        (replay (step eagerPair) keepsSecond o.1 (workerSteps 0 9)).any
          fun o' : Sys × List Event => decide
            (.group 0 (.start 0 ⟨0, some 7, 9, 1, 0⟩ (some 7)) ∈ o'.2))
      (by decide +kernel)
  obtain ⟨hmem, hwait⟩ := (Bool.and_eq_true _ _).mp hcheck
  have hmem := of_decide_eq_true hmem
  obtain ⟨s', tr', hwait, hstart⟩ := exists_run_of_replay hwait
  have hwait : Run (KeepsState eagerPair 0 1) s tr' s' :=
    hwait.mono fun m events m' ⟨a, ⟨hserial, hkeeps⟩, hnext⟩ =>
      ⟨⟨a, hserial, hnext⟩, by simpa [hnext] using hkeeps⟩
  have hstart := of_decide_eq_true hstart
  exact ⟨tr, s, tr', s', hrun, hmem, hwait, hstart,
    (first_come_first_served eagerPair hrun (by decide) hmem hwait).2 _ 0 hstart
      rfl⟩

end Core
end Eaf
