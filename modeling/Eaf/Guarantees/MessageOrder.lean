import Eaf.System.Phases
import Eaf.System.Records
import Eaf.Guarantees.ListMembership

/-!
# Messages of a service while the context is busy

As long as nobody shuts the system down, the records pushed onto a service are
taken in the order of their pushes, each of them is dropped or started exactly
once, nothing is started before the message in front of it is done, every
successful `eaf_resume` leads to exactly one re-entry of the yielded handler,
and every record is destroyed exactly once.
-/

namespace Eaf
namespace Core

open LabelledRun SequentialMailbox

/-- The mailbox moves of service `i` of group `g`, in the order of a trace. -/
def mailboxHistory (tr : List Event) (g i : Nat) :
    List (SequentialMailbox.Event MsgqRecord) :=
  (tr.filterMap (groupEvent g)).filterMap (mailboxEvent i)

/-- A thread calls `eaf_cleanup`. -/
def Act.cleans : Act → Bool
  | .enter _ .cleanup => true
  | _ => false

/-- Schedules before any shutdown: the context state is `init` or `busy`, and
`eaf_cleanup` has not been called. -/
def whileBusy (L : Layout) (s : Sys) (a : Act) : Prop :=
  serial L s a ∧ s.ctx.closing = false ∧ a.cleans = false

instance (L : Layout) (s : Sys) (a : Act) : Decidable (whileBusy L s a) :=
  inferInstanceAs (Decidable (_ ∧ _ ∧ _))

variable {L : Layout} {s s' : Sys} {g i : Nat} {tr : List Event}
  {c : GroupTable} {G G' : Group} {S : Service} {pc : Pc}
  {st : Stage MsgqRecord} {r : MsgqRecord}

theorem Trace.ofWhileBusy (h : Trace L (whileBusy L) tr s) :
    Trace L (serial L) tr s :=
  h.weaken fun _ _ hok => hok.1

/-! ## No shutdown events -/

/-- The event belongs to a shutdown. -/
def GroupEvent.shutdown : GroupEvent → Bool
  | .cancel _ _ | .flush _ _ | .purge _ _ => true
  | _ => false

/-- The call is inside `eaf_cleanup`. -/
def Call.cleaning : Call → Bool
  | .cleanTest | .cleanJoin _ | .cleanMsgq _ _ | .cleanFree => true
  | _ => false

/-- Shutdown events of a worker come from outside its busy event loop. -/
theorem WorkerTrans.shutdown_late {e : Env} {o : Outcome}
    {gevents : List GroupEvent} (h : WorkerTrans c e G o G' gevents)
    {ev : GroupEvent} (hev : ev ∈ gevents) (hshut : ev.shutdown = true) :
    G.worker.late = true := by
  cases h
  case tdExitedCur h _ _ | tdPopSome h _ => simp [h, Pc.late]
  case readyNone n h hn =>
    split at hev <;> simp at hev
    · rcases hev with rfl | rfl <;> cases hshut
    · subst hev
      cases hshut
  all_goals
    simp at hev
    try (subst hev; cases hshut)

/-- Nothing is cancelled, flushed or purged while the context is busy. -/
theorem Trace.no_shutdown (h : Trace L (whileBusy L) tr s) {ev : GroupEvent}
    (hev : .group g ev ∈ tr) : ev.shutdown = false := by
  suffices (∀ t, (s.call t).cleaning = false) ∧
      ∀ g ev, .group g ev ∈ tr → ev.shutdown = false from this.2 g ev hev
  clear hev
  refine Trace.byTrans (P := fun tr s => (∀ t, (s.call t).cleaning = false) ∧
      ∀ g ev, .group g ev ∈ tr → ev.shutdown = false) h
    ⟨fun _ => rfl, by simp⟩ ?_
  rintro tr s a events s' hrun ⟨hcalls, hevents⟩ ⟨-, hctx, hclean⟩ hstep
  cases hstep with
  | @worker k o G gevents hk hw =>
      refine ⟨fun t => ?_, fun g ev hev => ?_⟩
      · rcases Sys.emitAll_call (s.setGroup k G) (t := t) with
          hc | hc | ⟨b, hc⟩ <;> rw [hc]
        · exact hcalls t
        · rfl
        · rfl
      · rcases List.mem_append.mp hev with hev | hev
        · exact hevents g ev hev
        · obtain ⟨ev', hmem, heq⟩ := List.mem_map.mp hev
          cases heq
          by_contra hshut
          have hlate := hw.shutdown_late hmem (by simpa using hshut)
          rw [hrun.ofWhileBusy.late hk hlate] at hctx
          cases hctx
  | @call t o events s' hlive hc =>
      have hcall := hcalls t
      refine ⟨fun t' => ?_, fun g ev hev => ?_⟩
      · by_cases ht : t' = t
        · subst ht
          cases hc <;> simp_all [Call.cleaning]
        · rw [hc.call_of_ne ht]
          exact hcalls t'
      · rcases List.mem_append.mp hev with hev | hev
        · exact hevents g ev hev
        · cases hc <;> simp_all [Call.cleaning, GroupEvent.shutdown]
  | @enter t q events s' he =>
      refine ⟨fun t' => ?_, fun g ev hev => ?_⟩
      · by_cases ht : t' = t
        · subst ht
          rw [he.call_self]
          cases q <;> simp_all [Act.cleans, Request.start, Call.cleaning]
        · rw [he.call_of_ne ht]
          exact hcalls t'
      · rcases List.mem_append.mp hev with hev | hev
        · exact hevents g ev hev
        · cases he <;> simp at hev
  | user hu =>
      exact ⟨by rw [hu.call_eq]; exact hcalls, by simpa using hevents⟩

theorem mailboxEvent_of_not_shutdown {ev : GroupEvent}
    (h : ev.shutdown = false) (r : MsgqRecord) :
    mailboxEvent i ev ≠ some (.cancel r) ∧ mailboxEvent i ev ≠ some (.flush r) ∧
      mailboxEvent i ev ≠ some (.purge r) := by
  cases ev
  case resume j r => cases r <;> simp [mailboxEvent]
  case cancel | flush | purge => cases h
  all_goals simp [mailboxEvent]

/-- So the mailboxes are never cancelled, flushed or purged. -/
theorem Trace.count_shutdown (h : Trace L (whileBusy L) tr s) (g i : Nat)
    (r : MsgqRecord) : (mailboxHistory tr g i).count (.cancel r) = 0 ∧
      (mailboxHistory tr g i).count (.flush r) = 0 ∧
      (mailboxHistory tr g i).count (.purge r) = 0 := by
  have hall : ∀ m ∈ mailboxHistory tr g i, ∃ ev, .group g ev ∈ tr ∧
      mailboxEvent i ev = some m := by
    intro m hm
    obtain ⟨ev, hev, hm⟩ := List.mem_filterMap.mp hm
    obtain ⟨ev', hev', hview⟩ := List.mem_filterMap.mp hev
    cases ev' <;> simp [groupEvent] at hview
    obtain ⟨rfl, rfl⟩ := hview
    exact ⟨_, hev', hm⟩
  have hnot : ∀ m, m = .cancel r ∨ m = .flush r ∨ m = .purge r →
      m ∉ mailboxHistory tr g i := by
    intro m hm hmem
    obtain ⟨ev, hev, hview⟩ := hall m hmem
    obtain ⟨h₁, h₂, h₃⟩ :=
      mailboxEvent_of_not_shutdown (i := i) (h.no_shutdown hev) r
    rcases hm with rfl | rfl | rfl
    · exact h₁ hview
    · exact h₂ hview
    · exact h₃ hview
  simp only [List.count_eq_zero]
  exact ⟨hnot _ (.inl rfl), hnot _ (.inr (.inl rfl)), hnot _ (.inr (.inr rfl))⟩

/-! ## The records are new -/

/-- A record is put into a mailbox by a push. -/
theorem mailboxEvent_put {ev : GroupEvent}
    (h : mailboxEvent i ev = some (.put r)) : ∃ st, ev = .push i r st := by
  cases ev
  case resume j x => cases x <;> simp [mailboxEvent] at h
  all_goals simp_all [mailboxEvent]

/-- What is put into one mailbox is pushed somewhere in the system. -/
theorem puts_sublist_pushed (tr : List Event) (g i : Nat) :
    (puts (mailboxHistory tr g i)).Sublist (pushed tr) := by
  unfold puts mailboxHistory pushed
  rw [List.filterMap_filterMap, List.filterMap_filterMap]
  refine sublist_of_observer (fun e r hr => ?_) tr
  obtain ⟨ev, hev, hr⟩ := Option.bind_eq_some_iff.mp hr
  obtain ⟨m, hm, hput⟩ := Option.bind_eq_some_iff.mp hr
  obtain rfl : m = .put r := by cases m <;> simp_all
  obtain ⟨st, rfl⟩ := mailboxEvent_put hm
  cases e <;> simp [groupEvent] at hev
  obtain ⟨rfl, rfl⟩ := hev
  rfl

/-! ## Where the current message stands -/

/-- Before a shutdown no worker leaves its busy event loop. -/
theorem Trace.not_late (h : Trace L (whileBusy L) tr s) (hg : g < L.size) :
    (s.group g).worker.late = false := by
  refine Trace.byTrans
    (P := fun _ s => (s.group g).worker.late = false) h rfl ?_
  rintro tr s a events s' hrun ih ⟨hserial, hctx, -⟩ hstep
  cases hstep with
  | @worker k o G gevents hk hw =>
      by_cases hgk : g = k
      · subst hgk
        by_contra hlate
        simp only [Sys.emitAll_group, Sys.setGroup_group, Function.update_self,
          Bool.not_eq_false] at hlate
        rcases hw.late_origin hlate with hold | ⟨hpc, hbusy⟩
        · simp [ih] at hold
        · have hbusy : s.ctx ≠ .busy := hbusy
          rcases hrun.ofWhileBusy.order with hstart | hstarted
          · have hearly := hstart.early g hg
            simp [hpc, Pc.early] at hearly
          · have hinit := hstarted.ctx
            cases hc : s.ctx <;> simp_all [CtxState.closing]
      · simpa [hgk] using ih
  | call hlive hc => rw [hc.worker_eq]; exact ih
  | enter he => rw [he.group_eq]; exact ih
  | user hu => rw [hu.group_eq]; exact ih

/-- A message that is done with and not yet released is between its handler
and its release, unless the service is being shut down. -/
theorem Standing.pc_of_over (h : Standing i S st pc) (hover : st.Over r)
    (hlate : pc.late = false) :
    ∃ ph, pc = .hookAfter ph i ∨ pc = .resetMsg ph i := by
  rcases hover with rfl | rfl
  · cases pc <;> simp [Standing, Stage.Over] at h
    case hookAfter ph j => exact ⟨ph, .inl (by rw [h.1])⟩
    case resetMsg ph j => exact ⟨ph, .inr (by rw [h.1])⟩
  · cases pc <;> simp [Standing, Stage.Over] at h <;> simp [Pc.late] at hlate
    case resetMsg ph j => exact ⟨ph, .inr (by rw [h.1])⟩

/-- Before a shutdown the worker has nothing in its hands but current
messages. -/
theorem Pc.inHand_of_not_late (h : pc.late = false) : pc.inHand i = none := by
  cases pc <;> simp_all [late, inHand]

/-- A message that was woken and not yet entered again is the current one of a
service that does not wait for `eaf_resume`. -/
theorem Standing.of_woken (h : Standing i S (.woken r) pc) :
    S.curMsg = some r ∧ S.state ≠ .yield := by
  cases pc <;> simp [Standing, Stage.Over] at h <;> simp_all

/-- The current message of a service which is neither yielded nor shut down
keeps the service busy. -/
theorem GroupInv.busy_of_curMsg (inv : GroupInv c G) (hpast : ExitedPast c G)
    (hi : i < c.size) (hlate : G.worker.late = false)
    (hcur : (G.table i).curMsg = some r)
    (hyield : (G.table i).state ≠ .yield) :
    (G.table i).state = .busy ∧ i ∈ G.busyList := by
  have hs := inv.sound i hi
  have hreg : c.Registered i := by
    by_contra hreg
    rw [(hs.dead hreg).2.2] at hcur
    cases hcur
  have hbusy : (G.table i).state = .busy := by
    cases hst : (G.table i).state
    case busy => rfl
    case init0 => simp [(hs.raw hst).2.2] at hcur
    case init1 => simp [(hs.waiting hst).1] at hcur
    case init2 => simp [(hs.lazy hst).2.2] at hcur
    case idle => simp [(hs.idle hst).2] at hcur
    case yield => exact absurd hst hyield
    case exit0 =>
      have hexiting := hs.leaving hst
      cases hpc : G.worker <;> simp_all [Pc.exiting, Pc.late]
    case exit1 =>
      have hexited := hpast i hreg hst
      cases hpc : G.worker <;> simp_all [Pc.past, Pc.late]
  refine ⟨hbusy, (inv.lists.mem_busy i).mpr ⟨hi, ?_⟩⟩
  rw [hbusy]
  rfl

/-! ## Resumptions -/

/-- `eaf_resume` wakes a service that has a current message. -/
theorem GroupStep.resume_some {gevents : List GroupEvent}
    (inv : GroupInv c G) (h : GroupStep c G gevents G') {x : Option MsgqRecord}
    (hev : .resume i x ∈ gevents) : x ≠ none := by
  cases h with
  | work hfixed h =>
      cases h
      case readyNone => split at hev <;> simp at hev
      all_goals simp at hev
  | fix | post | push | purgeQueued | purgeCurrent => simp at hev
  | resume hreg h =>
      obtain ⟨hst, -⟩ := Group.resumeService_some h
      simp only [List.mem_singleton, GroupEvent.resume.injEq] at hev
      obtain ⟨rfl, rfl⟩ := hev
      exact (inv.sound i hreg.1).yielded hst

theorem GroupRun.resume_some {gtr : List GroupEvent} (h : GroupRun c gtr G)
    {x : Option MsgqRecord} (hev : .resume i x ∈ gtr) : x ≠ none := by
  suffices ∀ x, .resume i x ∈ gtr → x ≠ none from this x hev
  refine h.invariant (P := fun gtr _ => ∀ x, .resume i x ∈ gtr → x ≠ none)
    (by simp) ?_
  intro gtr G gevents G' hrun ih hstep x hev
  rcases List.mem_append.mp hev with hev | hev
  · exact ih x hev
  · exact hstep.resume_some (GroupInv.ofRun hrun) hev

/-- How service `i` of a group has dealt with its messages.  The mailbox
events tell what happened to each record; where an event is still to come, the
state of the group says so. -/
structure HandledInOrder (hist : List (SequentialMailbox.Event MsgqRecord))
    (G : Group) (i : Nat) : Prop where
  /-- no record is pushed twice -/
  nodup : (puts hist).Nodup
  /-- records are taken in the order of their pushes, and wait until then -/
  order : puts hist = takes hist ++ (G.table i).queue
  /-- a record that was taken is started once or dropped once, unless the hook
  before its handler is still running -/
  once : ∀ r ∈ takes hist,
    hist.count (.start r) + hist.count (.drop r) = 1 ∨
      (hist.count (.start r) = 0 ∧ hist.count (.drop r) = 0 ∧
        (G.table i).curMsg = some r ∧ ∃ ph, G.worker = .hookBefore ph i)
  /-- other records are neither started nor dropped -/
  untaken : ∀ r, r ∉ takes hist →
    hist.count (.start r) = 0 ∧ hist.count (.drop r) = 0
  /-- when `b` is started, what was pushed before it has finished or was
  dropped -/
  oneAtATime : ∀ before after earlier later a b,
    hist = before ++ .start b :: after → puts hist = earlier ++ b :: later →
    a ∈ earlier → .drop a ∈ before ∨ .finish a ∈ before
  /-- each resumption leads to one entry of the handler, past or to come -/
  resumed : ∀ r, hist.count (.wake r) = hist.count (.reenter r) ∨
    (hist.count (.wake r) = hist.count (.reenter r) + 1 ∧
      (G.table i).curMsg = some r ∧ (G.table i).state = .busy ∧
      i ∈ G.busyList)
  /-- a record that is done with is released once, or about to be -/
  released : ∀ r,
    (hist.count (.release r) = hist.count (.finish r) + hist.count (.drop r) ∧
      hist.count (.release r) ≤ 1) ∨
    (hist.count (.release r) = 0 ∧
      hist.count (.finish r) + hist.count (.drop r) = 1 ∧
      (G.table i).curMsg = some r ∧
      ∃ ph, G.worker = .hookAfter ph i ∨ G.worker = .resetMsg ph i)

/-- **Messages in order.**  In every run in which nobody shuts the system
down, every service deals with its messages in the order of their pushes, one
at a time, and every successful `eaf_resume` finds a message to resume. -/
theorem messages_in_order (L : Layout) (h : Trace L (whileBusy L) tr s)
    (g : Nat) (hi : i < (L.conf g).size) :
    HandledInOrder (mailboxHistory tr g i) (s.group g) i ∧
      ∀ x, .group g (.resume i x) ∈ tr → x ≠ none := by
  have hgroup : GroupRun (L.conf g) (tr.filterMap (groupEvent g)) (s.group g) :=
    h.ofWhileBusy.groupRun
  have inv := GroupInv.ofRun hgroup
  have hlate := h.not_late (Layout.lt_size_of_lt hi)
  obtain ⟨m, hist, hmailbox⟩ := hgroup.mailbox hi
  change History (mailboxHistory tr g i) m at hist
  have hnodup : (puts (mailboxHistory tr g i)).Nodup :=
    h.nodup_pushed.sublist (puts_sublist_pushed tr g i)
  refine ⟨⟨hnodup, ?_, fun r hr => ?_, fun r hr => ?_, ?_, fun r => ?_,
    fun r => ?_⟩, fun x hx => ?_⟩
  · rw [← hmailbox.queue, ← removed_eq_takes fun r => ?_]
    · exact puts_eq_removed_append_queue hist
    · obtain ⟨-, hflush, hpurge⟩ := h.count_shutdown g i r
      exact ⟨List.count_eq_zero.mp hflush, List.count_eq_zero.mp hpurge⟩
  · have htaken := (accounts hist r).taken
    have honce := count_removed_le_one hist hnodup r
    rw [mem_takes_iff] at hr
    by_cases hstage : m.stage = .taken r
    · obtain ⟨hcur, hpc⟩ := Standing.of_taken (hstage ▸ hmailbox.stage)
      simp only [hstage, one?_true] at htaken
      exact .inr ⟨by omega, by omega, hcur, hpc⟩
    · simp only [hstage, one?_false] at htaken
      exact .inl (by omega)
  · have htaken := (accounts hist r).taken
    rw [mem_takes_iff] at hr
    exact ⟨by omega, by omega⟩
  · intro before after earlier later a b hsplit hputs ha
    obtain ⟨hcancel, hflush, hpurge⟩ := h.count_shutdown g i a
    rw [hsplit] at hist hnodup hputs
    rw [hsplit, List.count_append] at hcancel hflush hpurge
    have hremoved := removed_before_start hist hnodup hputs ha
    have htakes : a ∈ takes before := by
      rw [← List.count_pos_iff, count_removed] at hremoved
      rw [mem_takes_iff]
      omega
    have hne : a ≠ b := by
      rw [hputs] at hnodup
      exact (List.nodup_append.mp hnodup).2.2 a ha b (by simp)
    rcases done_before_start hist htakes hne with hdrop | hfinish | hcanceled
    · exact .inl hdrop
    · exact .inr hfinish
    · rw [← List.count_pos_iff] at hcanceled
      omega
  · have hacc := accounts hist r
    have hlower := hacc.wokenLower
    have hupper := hacc.wokenUpper
    obtain ⟨hcancel, -, -⟩ := h.count_shutdown g i r
    rw [hcancel] at hupper
    by_cases hstage : m.stage = .woken r
    · obtain ⟨hcur, hyield⟩ := Standing.of_woken (hstage ▸ hmailbox.stage)
      simp only [hstage, one?_true] at hlower hupper
      exact .inr ⟨by omega, hcur,
        inv.busy_of_curMsg (ExitedPast.ofRun hgroup) hi hlate hcur hyield⟩
    · simp only [hstage, one?_false] at hlower hupper
      exact .inl (by omega)
  · have hreleased := (accounts hist r).released
    have hdone := count_done_le_one hist hnodup r
    obtain ⟨hcancel, hflush, -⟩ := h.count_shutdown g i r
    rw [hcancel, hflush] at hreleased hdone
    by_cases hover : m.stage.Over r
    · have hcur : ((s.group g).table i).curMsg = some r :=
        (hmailbox.stage.of_over hover).resolve_right
          (by simp [Pc.inHand_of_not_late hlate])
      simp only [hover, one?_true] at hreleased
      exact .inr ⟨by omega, by omega, hcur,
        hmailbox.stage.pc_of_over hover hlate⟩
    · simp only [hover, one?_false] at hreleased
      exact .inl ⟨by omega, by omega⟩
  · have hmem : .resume i x ∈ tr.filterMap (groupEvent g) :=
      List.mem_filterMap.mpr ⟨_, hx, by simp [groupEvent]⟩
    exact hgroup.resume_some hmem

/-- The lazily loaded service handles its request, whose handler yields once
and is resumed. -/
def lazyPairYield : List Act :=
  lazyPairRequest ++ workerSteps 0 5 ++ [.worker 0 ⟨true, 0, true, 3⟩] ++
    workerSteps 0 2 ++ [.enter (.client 0) (.resume 1)] ++ clientSteps 0 3 ++
    workerSteps 0 9

/-- The request was resumed once, entered again once and released once. -/
theorem messages_in_order_yield :
    ∃ tr s, Trace lazyPair (whileBusy lazyPair) tr s ∧
      HandledInOrder (mailboxHistory tr 0 0) (s.group 0) 0 ∧
      (mailboxHistory tr 0 0).count (.wake ⟨0, some 7, 9, 1, 0⟩) = 1 ∧
      (mailboxHistory tr 0 0).count (.reenter ⟨0, some 7, 9, 1, 0⟩) = 1 ∧
      (mailboxHistory tr 0 0).count (.release ⟨0, some 7, 9, 1, 0⟩) = 1 := by
  obtain ⟨tr, s, hrun, hcheck⟩ :=
    exists_trace lazyPair (whileBusy lazyPair) lazyPairYield
      (fun o => decide (
        (mailboxHistory o.2 0 0).count (.wake ⟨0, some 7, 9, 1, 0⟩) = 1 ∧
        (mailboxHistory o.2 0 0).count (.reenter ⟨0, some 7, 9, 1, 0⟩) = 1 ∧
        (mailboxHistory o.2 0 0).count (.release ⟨0, some 7, 9, 1, 0⟩) = 1))
      (by decide +kernel)
  exact ⟨tr, s, hrun, (messages_in_order lazyPair hrun 0 (by decide)).1,
    of_decide_eq_true hcheck⟩

end Core
end Eaf
