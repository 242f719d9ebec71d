import Eaf.System.Sends
import Eaf.Group.ExitedQueues
import Eaf.Guarantees.MessageOrder

/-!
# Where accepted messages are

A record that was accepted stays in the queue of its service or is its current
message, until it has been handled, dropped, answered or destroyed; during
teardown the worker may have it in its hands.  The service meanwhile is not
exited, except by `_eaf_group_exit`, which leaves its queue to `eaf_cleanup`.
-/

namespace Eaf
namespace Core

open LabelledRun SequentialMailbox

variable {L : Layout} {s : Sys} {g i : Nat} {tr : List Event}
  {r : MsgqRecord} {st : ServiceState}

/-- A group event is in the trace of its group. -/
theorem mem_groupEvents {ev : GroupEvent} (h : .group g ev ∈ tr) :
    ev ∈ tr.filterMap (groupEvent g) :=
  List.mem_filterMap.mpr ⟨_, h, by simp [groupEvent]⟩

theorem of_mem_groupEvents {ev : GroupEvent}
    (h : ev ∈ tr.filterMap (groupEvent g)) : .group g ev ∈ tr := by
  obtain ⟨e, he, hview⟩ := List.mem_filterMap.mp h
  cases e <;> simp [groupEvent] at hview
  obtain ⟨rfl, rfl⟩ := hview
  exact he

/-- A record is accepted by a registered service that is not in `exit0`. -/
theorem GroupStep.push_origin {c : GroupTable} {G G' : Group}
    {gevents : List GroupEvent} (h : GroupStep c G gevents G')
    (hev : .push i r st ∈ gevents) : c.Registered i ∧ st ≠ .exit0 := by
  cases h with
  | work hfixed h =>
      cases h
      case readyNone => split at hev <;> simp at hev
      all_goals simp at hev
  | fix | post | resume | purgeQueued | purgeCurrent => simp at hev
  | push hfixed hreg h =>
      simp only [List.mem_singleton, GroupEvent.push.injEq] at hev
      obtain ⟨rfl, rfl, rfl⟩ := hev
      exact ⟨hreg, (Group.pushMsg_some h).1⟩

theorem GroupRun.push_origin {c : GroupTable} {G : Group}
    {gtr : List GroupEvent} (h : GroupRun c gtr G)
    (hev : .push i r st ∈ gtr) : c.Registered i ∧ st ≠ .exit0 := by
  suffices .push i r st ∈ gtr → c.Registered i ∧ st ≠ .exit0 from this hev
  clear hev
  refine h.invariant (P := fun gtr _ => .push i r st ∈ gtr →
    c.Registered i ∧ st ≠ .exit0) (by simp) ?_
  intro gtr G gevents G' _ ih hstep hev
  rcases List.mem_append.mp hev with hev | hev
  · exact ih hev
  · exact hstep.push_origin hev

/-- A pushed record is put into the mailbox. -/
theorem mem_puts (h : .group g (.push i r st) ∈ tr) :
    r ∈ puts (mailboxHistory tr g i) := by
  refine List.mem_filterMap.mpr ⟨.put r, ?_, rfl⟩
  exact List.mem_filterMap.mpr
    ⟨_, mem_groupEvents h, by simp [mailboxEvent]⟩

/-- A record is accepted once. -/
theorem Trace.push_unique {ok : Sys → Act → Prop} (h : Trace L ok tr s)
    {st' : ServiceState} (hpush : .group g (.push i r st) ∈ tr)
    (hpush' : .group g (.push i r st') ∈ tr) : st = st' := by
  have heq := eq_of_observed (f := pushedRecord) h.nodup_pushed hpush hpush'
    rfl rfl
  cases heq
  rfl

/-- **Accepted messages.**  A send that is about to report success has had its
record accepted by the service it names.  An accepted record was accepted in
another state than `exit0`; until it is dropped, finished or taken up by a
shutdown it is in the queue of the service or its current message; until it is
destroyed it is there or in the hands of the worker; and a service that was not
exited when it accepted the record is not exited while the record is there,
unless `_eaf_group_exit` is done with the service. -/
theorem accepted_messages_kept (L : Layout) (h : Trace L (serial L) tr s) :
    (∀ t b, (s.call t).delivered? = some b → Accepted L tr b) ∧
    ∀ g i r st, .group g (.push i r st) ∈ tr →
      st ≠ .exit0 ∧
      (.drop r ∉ mailboxHistory tr g i ∧ .finish r ∉ mailboxHistory tr g i ∧
          .cancel r ∉ mailboxHistory tr g i ∧
          .flush r ∉ mailboxHistory tr g i ∧
          .purge r ∉ mailboxHistory tr g i →
        r ∈ ((s.group g).table i).queue ∨
          ((s.group g).table i).curMsg = some r) ∧
      (.release r ∉ mailboxHistory tr g i ∧
          .purge r ∉ mailboxHistory tr g i →
        r ∈ ((s.group g).table i).queue ∨
          ((s.group g).table i).curMsg = some r ∨
          (s.group g).worker.inHand i = some r) ∧
      (r ∈ ((s.group g).table i).queue ∨
          ((s.group g).table i).curMsg = some r → st ≠ .exit1 →
        ((s.group g).table i).state = .exit1 →
        (s.group g).worker.doneWith i = true) := by
  refine ⟨h.delivered.2, fun g i r st hpush => ?_⟩
  have hgroup : GroupRun (L.conf g) (tr.filterMap (groupEvent g))
      (s.group g) := h.groupRun
  obtain ⟨hreg, hexit0⟩ := hgroup.push_origin (mem_groupEvents hpush)
  obtain ⟨m, hist, hmailbox⟩ := hgroup.mailbox hreg.1
  change History (mailboxHistory tr g i) m at hist
  have hput := mem_puts hpush
  refine ⟨hexit0, fun hopen => ?_, fun hkept => ?_,
    fun hwaits hst hexited => ?_⟩
  · rw [← hmailbox.queue]
    refine (waits_or_current hist hput hopen).imp id ?_
    rintro (htaken | hactive)
    · exact (Standing.of_taken (htaken ▸ hmailbox.stage)).1
    · exact hmailbox.stage.of_active hactive
  · rw [← hmailbox.queue]
    refine (waits_until_released hist hput hkept).imp id ?_
    rintro (htaken | hactive | hover)
    · exact .inl (Standing.of_taken (htaken ▸ hmailbox.stage)).1
    · exact .inl (hmailbox.stage.of_active hactive)
    · exact hmailbox.stage.of_over hover
  · by_contra hdone
    obtain ⟨hcur, hlate⟩ := ExitedQueues.ofRun hgroup i hreg hexited
      (by simpa using hdone)
    have hqueue : r ∈ ((s.group g).table i).queue :=
      hwaits.resolve_right (by simp [hcur])
    exact hst (h.push_unique hpush (of_mem_groupEvents (hlate r hqueue)))

/-- A request waits in the lazily loaded service when `eaf_exit` takes effect,
and the worker returns. -/
def lazyPairAbandon : List Act :=
  lazyPairLoad ++
    [.user (.createReq 5 0 0),
      .enter (.client 1) (.send ⟨.req, 9, 1, 0, false⟩)] ++
    clientSteps 1 8 ++ [.enter (.client 1) (.exit 0)] ++ clientSteps 1 5 ++
    workerSteps 0 8

/-- The request stays in the queue, and the worker is done with the service. -/
theorem accepted_messages_kept_lazy :
    ∃ tr s, Trace lazyPair (serial lazyPair) tr s ∧
      .group 0 (.push 0 ⟨0, some 7, 9, 1, 0⟩ .init2) ∈ tr ∧
      ⟨0, some 7, 9, 1, 0⟩ ∈ ((s.group 0).table 0).queue ∧
      (s.group 0).worker.doneWith 0 = true := by
  obtain ⟨tr, s, hrun, hcheck⟩ :=
    exists_trace lazyPair (serial lazyPair) lazyPairAbandon
      (fun o => decide (
        .group 0 (.push 0 ⟨0, some 7, 9, 1, 0⟩ .init2) ∈ o.2 ∧
        ⟨0, some 7, 9, 1, 0⟩ ∈ ((o.1.group 0).table 0).queue ∧
        ((o.1.group 0).table 0).state = .exit1)) (by decide +kernel)
  obtain ⟨hpush, hqueue, hexited⟩ := of_decide_eq_true hcheck
  exact ⟨tr, s, hrun, hpush, hqueue,
    ((accepted_messages_kept lazyPair hrun).2 0 0 _ _ hpush).2.2.2
      (.inl hqueue) (by decide) hexited⟩

/-- An accepted request, neither handled nor destroyed, in an exited service. -/
theorem abandoned_in_exited :
    ∃ tr s, Trace lazyPair (serial lazyPair) tr s ∧
      .ret (.client 1) .sendReq Errno.success ∈ tr ∧
      ((s.group 0).table 0).queue = [⟨0, some 7, 9, 1, 0⟩] ∧
      ((s.group 0).table 0).state = .exit1 := by
  obtain ⟨tr, s, hrun, hcheck⟩ :=
    exists_trace lazyPair (serial lazyPair) lazyPairAbandon
      (fun o => decide (.ret (.client 1) .sendReq Errno.success ∈ o.2 ∧
        ((o.1.group 0).table 0).queue = [⟨0, some 7, 9, 1, 0⟩] ∧
        ((o.1.group 0).table 0).state = .exit1)) (by decide +kernel)
  exact ⟨tr, s, hrun, of_decide_eq_true hcheck⟩

end Core
end Eaf
