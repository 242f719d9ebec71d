import Eaf.Guarantees.MessageOrder
import Eaf.Guarantees.Rest

/-!
# Accepted messages are handled

Where the system is at rest and still busy, nothing is left over: every record
that was accepted has been dropped or handled to its end, and destroyed, unless
its service has yielded and waits for `eaf_resume`.
-/

namespace Eaf
namespace Core

open LabelledRun SequentialMailbox

variable {L : Layout} {s s' : Sys} {g i : Nat} {tr : List Event}
  {c : GroupTable} {e : Env} {G G' : Group} {o : Outcome}
  {gevents : List GroupEvent} {r : MsgqRecord}

/-! ## Workers in their busy event loop -/

/-- A worker does not come back to its busy event loop. -/
theorem WorkerTrans.late_mono (h : WorkerTrans c e G o G' gevents)
    (hlate : G.worker.late = true) : G'.worker.late = true := by
  cases h
  case initDone idx caller h hcall hyield =>
    cases caller <;> simp_all [Pc.late, afterInit]
  case dispatchReenter h _ _ _ | beforeStart h _ _ _ _ =>
    rw [h] at hlate
    rw [Group.goto_worker, handlerPc_late]
    exact hlate
  all_goals simp_all [Pc.late]

/-- The worker is still in its start-up or its busy event loop. -/
def Pc.inService (pc : Pc) : Prop :=
  pc.late = false ∧ ∀ site, pc ≠ .returned site

/-- The shutdown of a group does not begin while its worker is in service. -/
theorem Trace.no_shutdown_of_inService (h : Trace L (serial L) tr s)
    (hpc : (s.group g).worker.inService) {ev : GroupEvent}
    (hev : .group g ev ∈ tr) : ev.shutdown = false := by
  suffices (s.group g).worker.inService →
      ∀ ev, .group g ev ∈ tr → ev.shutdown = false from this hpc ev hev
  clear hpc hev
  refine Trace.byTrans (P := fun tr s => (s.group g).worker.inService →
    ∀ ev, .group g ev ∈ tr → ev.shutdown = false) h (by simp) ?_
  intro tr s a events s' hrun ih _ hstep hpc ev hev
  cases hstep with
  | @worker k o G gevents hk hw =>
      rw [Sys.emitAll_group, Sys.setGroup_group] at hpc
      by_cases hgk : g = k
      · subst hgk
        rw [Function.update_self] at hpc
        have hearlier : (s.group g).worker.late = false := by
          by_contra hlate
          have hlater := hw.late_mono (by simpa using hlate)
          rw [hpc.1] at hlater
          cases hlater
        rcases List.mem_append.mp hev with hold | hnew
        · exact ih ⟨hearlier, hw.not_returned⟩ ev hold
        · obtain ⟨ev', hmem, heq⟩ := List.mem_map.mp hnew
          cases heq
          by_contra hshut
          have hlate := hw.shutdown_late hmem (by simpa using hshut)
          rw [hearlier] at hlate
          cases hlate
      · rw [Function.update_of_ne hgk] at hpc
        rcases List.mem_append.mp hev with hold | hnew
        · exact ih hpc ev hold
        · obtain ⟨ev', hmem, heq⟩ := List.mem_map.mp hnew
          exact absurd (Event.group.inj heq).1.symm hgk
  | @call t o events s' hlive hc =>
      rw [hc.worker_eq] at hpc
      rcases List.mem_append.mp hev with hold | hnew
      · exact ih hpc ev hold
      · have hjoined := hrun.guards.calls.joined t
        cases hc
        case cleanQueued k j r rest hcall _ _ | cleanCurrent k j r hcall _ _ _ =>
          obtain ⟨site, hsite⟩ := hjoined k j hcall
          have hgk : g = k := by
            simp at hnew
            rcases hnew with ⟨rfl, -⟩ | ⟨rfl, -⟩ <;> rfl
          subst hgk
          exact absurd hsite (hpc.2 site)
        all_goals simp at hnew
        case pushAccepted => rw [hnew.2]; rfl
        case resumeAccepted => rw [hnew.2]; rfl
  | enter he =>
      rw [he.group_eq] at hpc
      rcases List.mem_append.mp hev with hold | hnew
      · exact ih hpc ev hold
      · cases he <;> simp at hnew
  | user hu =>
      rw [hu.group_eq] at hpc
      exact ih hpc ev (by simpa using hev)

/-- What a mailbox shows was shown by its group. -/
theorem exists_of_mem_mailboxHistory {m : SequentialMailbox.Event MsgqRecord}
    (hm : m ∈ mailboxHistory tr g i) :
    ∃ ev, .group g ev ∈ tr ∧ mailboxEvent i ev = some m := by
  obtain ⟨ev, hev, hm⟩ := List.mem_filterMap.mp hm
  obtain ⟨ev', hev', hview⟩ := List.mem_filterMap.mp hev
  cases ev' <;> simp [groupEvent] at hview
  obtain ⟨rfl, rfl⟩ := hview
  exact ⟨_, hev', hm⟩

/-- What a group shows of a service, its mailbox shows. -/
theorem mem_mailboxHistory {m : SequentialMailbox.Event MsgqRecord}
    {ev : GroupEvent} (hev : .group g ev ∈ tr)
    (hm : mailboxEvent i ev = some m) : m ∈ mailboxHistory tr g i :=
  List.mem_filterMap.mpr
    ⟨ev, List.mem_filterMap.mpr ⟨_, hev, by simp [groupEvent]⟩, hm⟩

/-- So nothing in such a group is cancelled, flushed or purged. -/
theorem Trace.count_shutdown_of_inService (h : Trace L (serial L) tr s)
    (hpc : (s.group g).worker.inService) (r : MsgqRecord) :
    (mailboxHistory tr g i).count (.cancel r) = 0 ∧
      (mailboxHistory tr g i).count (.flush r) = 0 ∧
      (mailboxHistory tr g i).count (.purge r) = 0 := by
  have hnot : ∀ m ∈ mailboxHistory tr g i,
      m ≠ .cancel r ∧ m ≠ .flush r ∧ m ≠ .purge r := by
    intro m hm
    obtain ⟨ev, hev, hview⟩ := exists_of_mem_mailboxHistory hm
    have hquiet := mailboxEvent_of_not_shutdown (i := i)
      (h.no_shutdown_of_inService hpc hev) r
    rw [hview] at hquiet
    simpa using hquiet
  simp only [List.count_eq_zero]
  exact ⟨fun hm => (hnot _ hm).1 rfl, fun hm => (hnot _ hm).2.1 rfl,
    fun hm => (hnot _ hm).2.2 rfl⟩

/-! ## At rest -/

/-- The record was dropped, or started and handled to its end, and then
destroyed; each of these happened once. -/
structure HandledOnce (hist : List (SequentialMailbox.Event MsgqRecord))
    (r : MsgqRecord) : Prop where
  taken : hist.count (.take r) = 1
  started : hist.count (.drop r) + hist.count (.start r) = 1
  finished : hist.count (.finish r) = hist.count (.start r)
  reentered : hist.count (.suspend r) = hist.count (.reenter r)
  released : hist.count (.release r) = 1

/-- At rest in the busy event loop a service that has not yielded is empty. -/
theorem GroupInv.empty_at_rest (inv : GroupInv c G) (hpast : ExitedPast c G)
    (hi : i < c.size) (hpc : G.worker = .semPend .busy)
    (hlist : G.busyList = []) (hfixed : G.Fixed c)
    (hyield : (G.table i).state ≠ .yield) :
    (G.table i).queue = [] ∧ (G.table i).curMsg = none := by
  have hs := inv.sound i hi
  have hlisted : (G.table i).state.onBusyList = false := by
    by_contra hbusy
    have hmem := (inv.lists.mem_busy i).mpr ⟨hi, by simpa using hbusy⟩
    rw [hlist] at hmem
    cases hmem
  cases hst : (G.table i).state
  case init0 => exact absurd hst (hfixed i hi)
  case init2 => exact (hs.lazy hst).2
  case idle => exact hs.idle hst
  case yield => exact absurd hst hyield
  case exit1 =>
    -- only a service without an entry is in `exit1` before a shutdown
    have hreg : ¬ c.Registered i := by
      intro hreg
      have hexited := hpast i hreg hst
      rw [hpc] at hexited
      cases hexited
    exact (hs.dead hreg).2
  all_goals
    rw [hst] at hlisted
    cases hlisted

/-- **Accepted messages are handled.**  When an orderly run is at rest while it is
busy, every record that a service in a working group has accepted was handled
once, or the service has yielded and the record waits for `eaf_resume`. -/
theorem handled_at_rest (L : Layout) (h : Trace L (orderly L) tr s)
    (hctx : s.ctx = .busy) (hrest : AtRest L s) (hg : g < L.size)
    (hi : i < (L.conf g).size)
    (hworker : ∀ site, (s.group g).worker ≠ .returned site)
    {st : ServiceState} (hpush : .group g (.push i r st) ∈ tr) :
    HandledOnce (mailboxHistory tr g i) r ∨
      ((s.group g).table i).state = .yield ∧
        r ∈ ((s.group g).table i).records := by
  have hserial := h.ofOrderly.ofProperlySent
  have hgroup : GroupRun (L.conf g) (tr.filterMap (groupEvent g))
      (s.group g) := hserial.groupRun
  have inv := GroupInv.ofRun hgroup
  have hstarted : Started L s :=
    hserial.order.resolve_left fun hstart => hstart.ctx hctx
  obtain ⟨ph, hpc, hlist, hph⟩ := (hrest.workers g hg).resolve_left
    fun ⟨site, hret⟩ => hworker site hret
  obtain rfl : ph = .busy := by
    cases ph with
    | busy => rfl
    | teardown => rw [hctx] at hph; cases hph
  have hempty : ((s.group g).table i).state ≠ .yield →
      ((s.group g).table i).queue = [] ∧ ((s.group g).table i).curMsg = none :=
    inv.empty_at_rest (ExitedPast.ofRun hgroup) hi hpc hlist
      (hstarted.fixed g hg)
  obtain ⟨m, hist, hmailbox⟩ := hgroup.mailbox hi
  change History (mailboxHistory tr g i) m at hist
  have hresting : Resting ((s.group g).table i) m.stage := by
    have hstage := hmailbox.stage
    rwa [hpc] at hstage
  obtain ⟨hcancel, hflush, hpurge⟩ := hserial.count_shutdown_of_inService
    (i := i) ⟨by rw [hpc]; rfl, hworker⟩ r
  have hput : r ∈ puts (mailboxHistory tr g i) :=
    List.mem_filterMap.mpr
      ⟨_, mem_mailboxHistory (m := .put r) hpush (by simp [mailboxEvent]), rfl⟩
  have hnodup : (puts (mailboxHistory tr g i)).Nodup :=
    hserial.nodup_pushed.sublist (puts_sublist_pushed tr g i)
  rw [puts_eq_removed_append_queue hist, List.mem_append] at hput
  rcases hput with hremoved | hqueue
  · -- it was taken; what has become of it shows in the stage of the mailbox
    have htaken : (mailboxHistory tr g i).count (.take r) = 1 := by
      have hle := count_removed_le_one hist hnodup r
      have hpos := List.count_pos_iff.mpr hremoved
      rw [count_removed] at hpos
      omega
    by_cases hactive : m.stage.Active r
    · right
      have hcur : ((s.group g).table i).curMsg = some r := by
        rcases hactive with hst | hst | hst <;> rw [hst] at hresting
        · simp at hresting
        · exact (Resting.suspended_iff.mp hresting).1
        · exact (Resting.woken_iff.mp hresting).1
      refine ⟨?_, by simp [Service.records, hcur]⟩
      by_contra hyield
      rw [(hempty hyield).2] at hcur
      cases hcur
    · left
      have hstages : m.stage ≠ .taken r ∧ ¬ m.stage.Over r := by
        refine ⟨fun hst => ?_, ?_⟩
        · simp [hst] at hresting
        · rintro (hst | hst) <;> simp [hst] at hresting
      have hnot : m.stage ≠ .suspended r ∧ m.stage ≠ .woken r :=
        ⟨fun hst => hactive (.inr (.inl hst)),
          fun hst => hactive (.inr (.inr hst))⟩
      obtain ⟨h₁, h₂, h₃, h₄, h₅, h₆, h₇⟩ := accounts hist r
      simp only [hstages.1, hstages.2, hnot.1, hnot.2, hactive,
        one?_false] at h₁ h₂ h₃ h₄ h₅ h₆ h₇
      exact ⟨htaken, by omega, by omega, by omega, by omega⟩
  · right
    rw [hmailbox.queue] at hqueue
    refine ⟨?_, by simp [Service.records, hqueue]⟩
    by_contra hyield
    rw [(hempty hyield).1] at hqueue
    cases hqueue

/-- The request of the pair was accepted, and the system came to rest. -/
theorem handled_at_rest_lazy :
    ∃ tr s, Trace lazyPair (orderly lazyPair) tr s ∧
      .group 0 (.push 0 ⟨0, some 7, 9, 1, 0⟩ .init2) ∈ tr ∧
      (HandledOnce (mailboxHistory tr 0 0) ⟨0, some 7, 9, 1, 0⟩ ∨
        ((s.group 0).table 0).state = .yield ∧
          ⟨0, some 7, 9, 1, 0⟩ ∈ ((s.group 0).table 0).records) := by
  obtain ⟨tr, s, hrun, hcheck⟩ :=
    exists_trace lazyPair (orderly lazyPair)
      (lazyPairRequest ++ clientSteps 1 1 ++ workerSteps 0 17)
      (fun o => decide (o.1.ctx = .busy ∧
        (o.1.group 0).worker = .semPend .busy ∧
        (o.1.group 0).busyList = [] ∧
        .group 0 (.push 0 ⟨0, some 7, 9, 1, 0⟩ .init2) ∈ o.2 ∧
        ∀ t ∈ lazyPair.threads, (o.1.call t).free = true)) (by decide +kernel)
  obtain ⟨hctx, hpc, hlist, hpush, hfree⟩ := of_decide_eq_true hcheck
  have hpc' : ∀ site, (s.group 0).worker ≠ .returned site := fun site hret => by
    cases hret.symm.trans hpc
  have hrest : AtRest lazyPair s := by
    refine ⟨fun g hg => ?_, fun _ t => .inl ?_⟩
    · obtain rfl : g = 0 := Nat.lt_one_iff.mp hg
      exact .inr ⟨.busy, hpc, hlist, hctx⟩
    · by_cases ht : t ∈ lazyPair.threads
      · exact hfree t ht
      · rw [hrun.ofOrderly.ofProperlySent.guards.calls.outside t ht]
        rfl
  exact ⟨tr, s, hrun, hpush, handled_at_rest lazyPair hrun hctx hrest
    (by decide) (by decide) hpc' hpush⟩

end Core
end Eaf
