import Eaf.System.Fibers
import Eaf.Guarantees.EventualHandling

/-!
# Handlers are coroutines

The handlers of the services are functions of the form `eaf_reenter { body }`.
The framework calls such a function for a message, calls it again each time
`eaf_resume` has woken the service after a yield, and resets the branch of the
service in between two messages.  However the threads interleave, as long as
`eaf_load` and `eaf_cleanup` do not overlap, the calls of one function for one
message are the activations of one coroutine.
-/

namespace Eaf
namespace Core

open LabelledRun SequentialMailbox CStatements Coroutine

variable {σ ι : Type*}

variable {L : Layout} {s s' : Sys} {t : Tid} {a : Act} {g i : Nat}
  {r : MsgqRecord} {tr : List Event} {events : List Event}

/-! ## The books of a record -/

/-- The books of a record, and where the service stands with it. -/
theorem Trace.standing (h : Trace L (serial L) tr s)
    (hi : i < (L.conf g).size) (r : MsgqRecord) :
    ∃ st, Standing i ((s.group g).table i) st (s.group g).worker ∧
      Accounts (mailboxHistory tr g i) st r ∧
      (mailboxHistory tr g i).count (.take r) ≤ 1 := by
  have hgroup : GroupRun (L.conf g) (tr.filterMap (groupEvent g)) (s.group g) :=
    h.groupRun
  obtain ⟨m, hist, hmailbox⟩ := hgroup.mailbox hi
  change History (mailboxHistory tr g i) m at hist
  have hnodup : (puts (mailboxHistory tr g i)).Nodup :=
    h.nodup_pushed.sublist (puts_sublist_pushed tr g i)
  have honce := count_removed_le_one hist hnodup r
  exact ⟨m.stage, hmailbox.stage, accounts hist r, by omega⟩

/-- The handler of a message that `on_message_handle_before` is shown has not
been called yet. -/
theorem Trace.not_started (h : Trace L (serial L) tr s)
    (hi : i < (L.conf g).size) {ph : Phase}
    (hpc : (s.group g).worker = .hookBefore ph i)
    (hcur : ((s.group g).table i).curMsg = some r) :
    .start r ∉ mailboxHistory tr g i := by
  obtain ⟨st, hstanding, hacc, honce⟩ := h.standing hi r
  rw [hpc] at hstanding
  obtain rfl : st = .taken r := by simpa [Standing, hcur] using hstanding
  have htaken := hacc.taken
  simp only [one?_true] at htaken
  rw [← List.count_eq_zero]
  omega

/-- A message whose handler is running has been started, and has not been
finished. -/
theorem Trace.not_finished (h : Trace L (serial L) tr s)
    (hi : i < (L.conf g).size) {ph : Phase}
    (hpc : (s.group g).worker = .inHandler ph i)
    (hcur : ((s.group g).table i).curMsg = some r) :
    .start r ∈ mailboxHistory tr g i ∧
      .finish r ∉ mailboxHistory tr g i := by
  obtain ⟨st, hstanding, hacc, honce⟩ := h.standing hi r
  rw [hpc] at hstanding
  obtain rfl : st = .running r := by simpa [Standing, hcur] using hstanding
  have htaken := hacc.taken
  have hstarted := hacc.started
  simp only [Stage.Active, true_or, one?_true] at hstarted
  rw [← List.count_eq_zero, ← List.count_pos_iff]
  omega

/-! ## A call of a handler is an activation -/

/-- What a handler does when it is called for the first time, or again after a
yield. -/
theorem call_entered {p : Program σ Nat ι} (hp : Lines p.labels) {fuel : Nat}
    {frame left : Frame σ ι} {rest : Option (List (Program σ Nat ι))}
    (hentered : frame.branch = 0 ∧ rest = some [p] ∨
      Yielded p frame.branch rest) (hcc : frame.cc0 = false)
    (hcall : call (fuel + 1) (eafCoroutineReenter (bodyOf p)) 3 .top frame =
      some left) :
    ∃ rest', Resume rest [⟨frame.user,
        if left.cc0 then some left.hook else none, left.user⟩] rest' ∧
      if left.cc0 then Yielded p left.branch rest' else rest' = none := by
  obtain ⟨K, rfl, hrun, hlabelled⟩ : ∃ K, rest = some K ∧
      (runAll (fuel + 1) K frame.user).map frame.stopped = some left ∧
      ∀ stop, runAll (fuel + 1) K frame.user = some stop →
        Labelled p.labels (p.after ·) stop := by
    rcases hentered with ⟨hzero, rfl⟩ | ⟨hmem, rfl⟩
    · have hspec := call_from_top hp (Nat.succ_pos fuel) 0 hzero
      refine ⟨[p], rfl, ?_, fun stop hstop => ?_⟩
      · rw [runAll_singleton, ← hcall, hspec]
      · rw [runAll_singleton] at hstop
        exact run_labelled hp.nodup hstop
    · have hspec := call_from_label hp (Nat.succ_pos fuel) 0 hmem
      refine ⟨p.after frame.branch, rfl, ?_, fun stop hstop =>
        runAll_after_labelled hp.nodup hstop⟩
      rw [← hcall, hspec]
  obtain ⟨stop, hstop, rfl⟩ := Option.map_eq_some_iff.mp hrun
  cases stop with
  | done u => exact ⟨none, by simpa [Frame.stopped, hcc] using .ends hstop,
      by simp [Frame.stopped, hcc]⟩
  | suspended n hook K' u =>
      obtain ⟨hn, rfl⟩ := hlabelled _ hstop
      exact ⟨some (p.after n), by simpa [Frame.stopped] using .yields hstop,
        by simp [Frame.stopped, Yielded, hn]⟩

/-! ## Along a run -/

/-- The calls of the handler of a record. -/
def activationsOf (log : List (HandlerCall σ ι)) (g i : Nat) (r : MsgqRecord) :
    List (Activation σ ι) :=
  log.filterMap fun e =>
    if e.group = g ∧ e.service = i ∧ e.record = r then some e.activation
    else none

/-- How far the coroutine `p` of record `r` has come. -/
structure FiberProgress (p : Program σ Nat ι) (g i : Nat) (r : MsgqRecord)
    (tr : List Event) (log : List (HandlerCall σ ι)) (s : Sys)
    (rest : Option (List (Program σ Nat ι))) : Prop where
  activations : Activations p (activationsOf log g i r) rest
  stands : (s.group g).FiberAt p i r rest
  fresh : .start r ∉ mailboxHistory tr g i → rest = some [p]
  finished : .finish r ∈ mailboxHistory tr g i → rest = none

variable {p : Program σ Nat ι} {rest : Option (List (Program σ Nat ι))}
  {log : List (HandlerCall σ ι)}

theorem mailboxHistory_append (tr events : List Event) (g i : Nat) :
    mailboxHistory (tr ++ events) g i =
      mailboxHistory tr g i ++ mailboxHistory events g i := by
  simp [mailboxHistory]

/-- A worker finishes a record when its handler has left no yield. -/
theorem WorkerTrans.finish {c : GroupTable} {e : Env} {G G' : Group}
    {o : Outcome} {gevents : List GroupEvent} (h : WorkerTrans c e G o G' gevents)
    (hfinish : .finish i r ∈ gevents) :
    ∃ ph, G.worker = .handled ph i ∧ (G.table i).curMsg = some r ∧
      G.cc0 = false := by
  cases h
  case handledFinish ph k r' h hcur hcc =>
    simp at hfinish
    obtain ⟨rfl, rfl⟩ := hfinish
    exact ⟨ph, h, hcur, hcc⟩
  case readyNone => split at hfinish <;> simp at hfinish
  all_goals simp at hfinish

theorem SysTrans.finish (h : SysTrans L s a events s')
    (hfinish : .finish r ∈ mailboxHistory events g i) :
    ∃ ph, (s.group g).worker = .handled ph i ∧
      ((s.group g).table i).curMsg = some r ∧ (s.group g).cc0 = false := by
  obtain ⟨ev, hev, hview⟩ := exists_of_mem_mailboxHistory hfinish
  obtain rfl : ev = .finish i r := by
    cases ev
    case resume j x => cases x <;> simp [mailboxEvent] at hview
    all_goals simp [mailboxEvent] at hview
    obtain ⟨rfl, rfl⟩ := hview
    rfl
  cases h with
  | @worker k o G gevents hk hw =>
      obtain ⟨ev, hmem, heq⟩ := List.mem_map.mp hev
      obtain ⟨rfl, rfl⟩ := Event.group.inj heq
      exact hw.finish hmem
  | call hlive hc => cases hc <;> simp at hev
  | enter he => cases he <;> simp at hev
  | user hu => simp at hev

/-- A step in which the handler of the record does not return. -/
theorem FiberProgress.step (h : FiberProgress p g i r tr log s rest)
    (hrun : Trace L (serial L) tr s) (hi : i < (L.conf g).size)
    (hstep : SysTrans L s a events s')
    (hreturn : ∀ o, a = .worker g o →
      ∀ ph, (s.group g).worker = .inHandler ph i →
        ((s.group g).table i).curMsg ≠ some r)
    (hcalled : .group g (.start i r none) ∉ events ∧
      .group g (.reenter i r none) ∉ events) :
    FiberProgress p g i r (tr ++ events) log s' rest where
  activations := h.activations
  stands := by
    by_cases hother : ∀ o, a ≠ .worker g o
    · exact (hstep.sameFiber hrun.guards hi hother).fiberAt h.stands
    · obtain ⟨o, ha⟩ := not_forall_not.mp hother
      have hquiet := hreturn o ha
      cases hstep with
      | @worker k o' G gevents hk hw =>
          obtain ⟨rfl, rfl⟩ : k = g ∧ o' = o := by simpa using ha
          rw [Sys.emitAll_group, Sys.setGroup_group, Function.update_self]
          refine hw.fiberAt (.ofRun hrun.groupRun) hi (hrun.unbranched hi) hquiet
            (fun ph hpc hcur => h.fresh (hrun.not_started hi hpc hcur)) ?_ h.stands
          simpa using hcalled
      | call | enter | user => cases ha
  fresh hstart := h.fresh fun hmem => hstart <| by
    rw [mailboxHistory_append]
    exact List.mem_append_left _ hmem
  finished hfinish := by
    rw [mailboxHistory_append, List.mem_append] at hfinish
    rcases hfinish with hold | hnew
    · exact h.finished hold
    · obtain ⟨ph, hpc, hcur, hcc⟩ := hstep.finish hnew
      have hleft := h.stands.left hcur ph hpc
      rwa [hcc, if_neg Bool.false_ne_true] at hleft

/-- The handler of another record returns. -/
theorem FiberProgress.elsewhere {e : HandlerCall σ ι}
    (h : FiberProgress p g i r tr log s rest)
    (he : ¬(e.group = g ∧ e.service = i ∧ e.record = r)) :
    FiberProgress p g i r tr (log ++ [e]) s rest where
  activations := by
    have hsame : activationsOf (log ++ [e]) g i r = activationsOf log g i r := by
      simp [activationsOf, he]
    rw [hsame]
    exact h.activations
  stands := h.stands
  fresh := h.fresh
  finished := h.finished

/-- The handler of the record returns, and the worker looks at the yield bit
next. -/
theorem FiberProgress.returns {ph : Phase} {o : Outcome}
    {act : Activation σ ι} {rest' : Option (List (Program σ Nat ι))}
    (h : FiberProgress p g i r tr log s rest)
    (hrun : Trace L (serial L) tr s) (hi : i < (L.conf g).size)
    (hpc : (s.group g).worker = .inHandler ph i)
    (hcur : ((s.group g).table i).curMsg = some r)
    (hstep : SysTrans L s (.worker g o) events s')
    (hresume : Resume rest [act] rest')
    (hleft : if o.yield then Yielded p o.branch rest' else rest' = none) :
    FiberProgress p g i r (tr ++ events) (log ++ [⟨g, i, r, act⟩]) s' rest' := by
  obtain ⟨hstarted, hfinished⟩ := hrun.not_finished hi hpc hcur
  cases hstep with
  | @worker _ _ G gevents hk hw =>
      cases hw
      case handlerReturn ph' j h' hcall =>
        obtain ⟨rfl, rfl⟩ : ph' = ph ∧ j = i := by simpa [hpc] using h'.symm
        refine ⟨?_, ?_, ?_, ?_⟩
        · have hsnoc := h.activations.snoc hresume
          simpa [activationsOf] using hsnoc
        · rw [Sys.emitAll_group, Sys.setGroup_group, Function.update_self]
          constructor
          · simp
          · intro _ ph' _
            cases ho : o.yield <;> simp_all
          · simp [Pc.onMessage]
        · intro hstart
          simp at hstart
          exact absurd hstarted hstart
        · intro hfinish
          simp at hfinish
          exact absurd hfinish hfinished
      all_goals simp_all

variable {body : Fn → Program σ Nat ι} {x : Fibers σ ι}

/-- Along every run the coroutine of a record makes progress with its calls. -/
theorem FiberTrace.progress (hbody : ∀ f, Lines (body f).labels)
    (h : FiberTrace L body tr x) (hi : i < (L.conf g).size) {f : Fn}
    (hcalled : ∀ fn, .group g (.start i r fn) ∈ tr ∨
      .group g (.reenter i r fn) ∈ tr → fn = some f) :
    ∃ rest, FiberProgress (body f) g i r tr x.log x.sys rest := by
  suffices (∀ fn, .group g (.start i r fn) ∈ tr ∨
      .group g (.reenter i r fn) ∈ tr → fn = some f) →
      ∃ rest, FiberProgress (body f) g i r tr x.log x.sys rest from this hcalled
  clear hcalled
  refine h.invariant (P := fun tr x => (∀ fn, .group g (.start i r fn) ∈ tr ∨
    .group g (.reenter i r fn) ∈ tr → fn = some f) →
    ∃ rest, FiberProgress (body f) g i r tr x.log x.sys rest) ?_ ?_
  · exact fun _ => ⟨some [body f], .refl, ⟨nofun, nofun, nofun⟩, fun _ => rfl,
      nofun⟩
  rintro tr x events y hrun ih ⟨m, -, hnext⟩ hcalled
  obtain ⟨rest, hrest⟩ := ih fun fn hfn => hcalled fn <| by
    simp only [List.mem_append]
    exact hfn.imp .inl .inl
  have htrace := FiberTrace.trace hrun
  have hnull : .group g (.start i r none) ∉ events ∧
      .group g (.reenter i r none) ∉ events := by
    constructor
    · intro hmem
      cases hcalled none (.inl (List.mem_append_right _ hmem))
    · intro hmem
      cases hcalled none (.inr (List.mem_append_right _ hmem))
  rcases fiberStep_cases hnext with ⟨hreturn, s', hstep, rfl⟩ |
    ⟨k, o, j, r', f', left, s', hreturn, hcall, hstep, rfl⟩
  · refine ⟨rest, hrest.step htrace hi (step_trans hstep) ?_ hnull⟩
    -- a worker that is in a handler has called it
    intro o ha ph hpc
    obtain ⟨r', f', hcalling, -⟩ := FiberTrace.calling hrun hpc
    simp [Fibers.returning, ha, hpc, hcalling] at hreturn
  · obtain ⟨-, hcalling, ph, j', hpc⟩ := Fibers.returning_some hreturn
    obtain ⟨r'', f'', hcalling', hcur, hentered⟩ := FiberTrace.calling hrun hpc
    obtain ⟨rfl, rfl, rfl⟩ : j' = j ∧ r'' = r' ∧ f'' = f' := by
      simpa [hcalling] using hcalling'.symm
    by_cases hsame : k = g ∧ j' = i ∧ r'' = r
    · obtain ⟨rfl, rfl, rfl⟩ := hsame
      obtain rfl : f'' = f := by
        have hf := hcalled (some f'') <| by
          simp only [List.mem_append]
          exact hentered.imp .inl .inl
        exact Option.some.inj hf
      have hclear := (htrace.unbranched hi).cleared (by rw [hpc]; rfl)
      have hframe : (x.frame k j' m).branch = 0 ∧ rest = some [body f''] ∨
          Yielded (body f'') (x.frame k j' m).branch rest :=
        hrest.stands.entered hcur ph hpc
      obtain ⟨rest', hresume, hleft⟩ :=
        call_entered (hbody f'') hframe hclear hcall
      exact ⟨rest', hrest.returns htrace hi hpc hcur (step_trans hstep) hresume
        hleft⟩
    · refine ⟨rest, (hrest.step htrace hi (step_trans hstep) ?_ hnull).elsewhere
        hsame⟩
      intro o' ha ph' hpc' hcur'
      obtain ⟨rfl, -⟩ : k = g ∧ left.outcome o = o' := by simpa using ha
      obtain ⟨-, rfl⟩ : ph = ph' ∧ j' = i := by simpa [hpc] using hpc'
      exact hsame ⟨rfl, rfl, Option.some.inj (hcur.symm.trans hcur')⟩

/-- **Handlers are coroutines.**  In every run in which the handlers are written
with `eaf_reenter` and `eaf_yield`, the calls of the handler of a record are the
activations of one coroutine: each begins where the one before has yielded, a
record that waits for `eaf_resume` keeps the label of that yield in the branch
of its service, and a record is finished when its coroutine is done.

`hcalled` says that all calls for the record are of one function: a request
keeps the handler that the send has stored in the record, but the callback of a
response may be null, and `eaf_msg_set_rsp_fn` may change it between two
calls. -/
theorem handlers_are_coroutines (L : Layout) (body : Fn → Program σ Nat ι)
    (hbody : ∀ f, Lines (body f).labels) (h : FiberTrace L body tr x)
    (hi : i < (L.conf g).size) {f : Fn}
    (hcalled : ∀ fn, .group g (.start i r fn) ∈ tr ∨
      .group g (.reenter i r fn) ∈ tr → fn = some f) :
    ∃ rest, Activations (body f) (activationsOf x.log g i r) rest ∧
      (.group g (.finish i r) ∈ tr → rest = none) ∧
      (((x.sys.group g).table i).curMsg = some r →
        (x.sys.group g).worker.onMessage i = false →
        ((x.sys.group g).table i).branch ∈ (body f).labels ∧
          rest = some ((body f).after ((x.sys.group g).table i).branch)) := by
  obtain ⟨rest, hrest⟩ := h.progress hbody hi hcalled
  refine ⟨rest, hrest.activations, fun hfinish => hrest.finished ?_,
    hrest.stands.waiting⟩
  exact mem_mailboxHistory hfinish (by simp [mailboxEvent])

/-- The request of `lazyPairYield` is handled by this handler, which finds 5
each time it is entered. -/
theorem handlers_are_coroutines_yield :
    ∃ (tr : List Event) (x : Fibers Nat Unit),
      FiberTrace lazyPair (fun _ => addYieldDouble) tr x ∧
      activationsOf x.log 0 0 ⟨0, some 7, 9, 1, 0⟩ =
        [⟨5, some (), 6⟩, ⟨5, none, 10⟩] ∧
      Activations addYieldDouble
        (activationsOf x.log 0 0 ⟨0, some 7, 9, 1, 0⟩) none := by
  obtain ⟨tr, x, hrun, hcheck⟩ :=
    exists_fiberTrace lazyPair (fun _ => addYieldDouble)
      (lazyPairYield.map fun a => ⟨a, 5, (), 0⟩)
      (fun out => decide (
        activationsOf out.1.log 0 0 ⟨0, some 7, 9, 1, 0⟩ =
          [⟨5, some (), 6⟩, ⟨5, none, 10⟩] ∧
        .group 0 (.finish 0 ⟨0, some 7, 9, 1, 0⟩) ∈ out.2 ∧
        ∀ ev ∈ out.2, enteredHandler 0 ev = none ∨
          enteredHandler 0 ev = some (some (0, ⟨0, some 7, 9, 1, 0⟩, 7))))
      (by decide +kernel)
  obtain ⟨hacts, hfinish, hentered⟩ := of_decide_eq_true hcheck
  obtain ⟨rest, hrest, hdone, -⟩ := handlers_are_coroutines lazyPair
    (fun _ => addYieldDouble) (fun _ => ⟨by decide, by decide⟩) hrun
    (g := 0) (i := 0) (by decide) (r := ⟨0, some 7, 9, 1, 0⟩) (f := 7) <| by
      rintro fn (hmem | hmem) <;>
        · have hev := hentered _ hmem
          cases fn <;> simp [enteredHandler] at hev
          rw [hev]
  rw [hdone hfinish] at hrest
  exact ⟨tr, x, hrun, hacts, hrest⟩

end Core
end Eaf
