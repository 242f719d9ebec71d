import Eaf.Foundation.SequentialMailbox
import Eaf.Group.ServiceFacts

/-!
# A service handles its messages one at a time

Seen from one service, every run of its group is a history of the abstract
mailbox of `SequentialMailbox`: records are put by senders, taken by the event
loop, dropped by the hook or started, suspended by a yield, woken by
`eaf_resume`, entered again, finished and released.  `Standing` says where the
current message of a service stands, given where the worker is.
-/

namespace Eaf
namespace Core

open LabelledRun SequentialMailbox

/-- The mailbox moves of service `i`. -/
def mailboxEvent (i : Nat) :
    GroupEvent → Option (SequentialMailbox.Event MsgqRecord)
  | .push j r _ => if j = i then some (.put r) else none
  | .resume j (some r) => if j = i then some (.wake r) else none
  | .take j r => if j = i then some (.take r) else none
  | .drop j r => if j = i then some (.drop r) else none
  | .start j r _ => if j = i then some (.start r) else none
  | .reenter j r _ => if j = i then some (.reenter r) else none
  | .suspend j r => if j = i then some (.suspend r) else none
  | .finish j r => if j = i then some (.finish r) else none
  | .release j r => if j = i then some (.release r) else none
  | .cancel j r => if j = i then some (.cancel r) else none
  | .flush j r => if j = i then some (.flush r) else none
  | .purge j r => if j = i then some (.purge r) else none
  | .resume _ none | .initStart _ | .initDone _ | .exitStart _ | .exitDone _
  | .answer _ _ _ | .answered _ _ _ _ | .ready | .failure => none

/-- A service the worker is not handling: its current message, if any, has
yielded or was woken by `eaf_resume`. -/
def Resting (S : Service) (st : Stage MsgqRecord) : Prop :=
  match S.curMsg with
  | none => st = .empty
  | some r => (S.state ≠ .busy ∧ st = .suspended r) ∨
      (S.state ≠ .yield ∧ st = .woken r)

/-- Where the current message of service `i` stands. -/
def Standing (i : Nat) (S : Service) (st : Stage MsgqRecord) : Pc → Prop
  | .hookBefore _ j =>
      if j = i then ∃ r, S.curMsg = some r ∧ st = .taken r else Resting S st
  | .inHandler _ j | .handled _ j =>
      if j = i then ∃ r, S.curMsg = some r ∧ st = .running r else Resting S st
  | .hookAfter _ j =>
      if j = i then ∃ r, S.curMsg = some r ∧ st = .finished r
      else Resting S st
  | .resetMsg _ j =>
      if j = i then ∃ r, S.curMsg = some r ∧ st.Over r else Resting S st
  | .tdMsg j r _ | .tdSend j r _ _ | .tdFree j r _ =>
      if j = i then st = .discarded r else Resting S st
  | _ => Resting S st

/-- The abstract mailbox of service `i` of a group. -/
structure MailboxOf (i : Nat) (G : Group)
    (m : SequentialMailbox.State MsgqRecord) : Prop where
  queue : m.queue = (G.table i).queue
  stage : Standing i (G.table i) m.stage G.worker

variable {c : GroupTable} {G G' : Group} {i j : Nat} {S S' : Service}
  {st : Stage MsgqRecord} {pc : Pc}

theorem Resting.of_none (hcur : S.curMsg = none) :
    Resting S st ↔ st = .empty := by
  simp [Resting, hcur]

/-- A resting message has yielded or was woken. -/
@[simp] theorem Resting.taken_iff {r : MsgqRecord} :
    Resting S (.taken r) ↔ False := by
  unfold Resting
  split <;> simp

@[simp] theorem Resting.running_iff {r : MsgqRecord} :
    Resting S (.running r) ↔ False := by
  unfold Resting
  split <;> simp

@[simp] theorem Resting.finished_iff {r : MsgqRecord} :
    Resting S (.finished r) ↔ False := by
  unfold Resting
  split <;> simp

@[simp] theorem Resting.discarded_iff {r : MsgqRecord} :
    Resting S (.discarded r) ↔ False := by
  unfold Resting
  split <;> simp

@[simp] theorem Resting.suspended_iff {r : MsgqRecord} :
    Resting S (.suspended r) ↔ S.curMsg = some r ∧ S.state ≠ .busy := by
  unfold Resting
  split <;> simp_all [and_comm, eq_comm]

@[simp] theorem Resting.woken_iff {r : MsgqRecord} :
    Resting S (.woken r) ↔ S.curMsg = some r ∧ S.state ≠ .yield := by
  unfold Resting
  split <;> simp_all [and_comm, eq_comm]

/-- A change of state that neither makes the service busy nor makes it yield,
or that happens while there is no current message. -/
theorem Resting.congr (h : Resting S st) (hcur : S'.curMsg = S.curMsg)
    (hstate : S.curMsg = none ∨ S'.state = S.state ∨
      (S'.state ≠ .busy ∧ S'.state ≠ .yield)) : Resting S' st := by
  unfold Resting at h ⊢
  rw [hcur]
  cases hc : S.curMsg with
  | none => simpa [hc] using h
  | some r =>
      rw [hc] at h hstate
      rcases hstate with hstate | hstate | ⟨hbusy, hyield⟩
      · cases hstate
      · rwa [hstate]
      · rcases h with ⟨-, h⟩ | ⟨-, h⟩
        · exact .inl ⟨hbusy, h⟩
        · exact .inr ⟨hyield, h⟩

/-- Away from the service the worker has in its hands there is only rest. -/
theorem Standing.of_ne (hfocus : pc.focus ≠ some i) :
    Standing i S st pc ↔ Resting S st := by
  cases pc <;> simp_all [Standing, Pc.focus]

@[simp] theorem Standing.handlerPc (ph : Phase) (fn : Option Fn) :
    Standing i S st (handlerPc ph j fn) ↔
      if j = i then ∃ r, S.curMsg = some r ∧ st = .running r
      else Resting S st := by
  cases fn <;> rfl

/-- A message that was taken and neither started nor dropped is being shown to
`on_message_handle_before`. -/
theorem Standing.of_taken {r : MsgqRecord} (h : Standing i S (.taken r) pc) :
    S.curMsg = some r ∧ ∃ ph, pc = .hookBefore ph i := by
  cases pc <;> simp [Standing, Stage.Over] at h
  case hookBefore ph j =>
    obtain ⟨rfl, hcur⟩ := h
    exact ⟨hcur, ph, rfl⟩

/-- A message that was started and is not done with is the current one. -/
theorem Standing.of_active {r : MsgqRecord} (h : Standing i S st pc)
    (hactive : st.Active r) : S.curMsg = some r := by
  rcases hactive with rfl | rfl | rfl <;>
    cases pc <;> simp [Standing, Stage.Over] at h <;> simp_all

/-- The record of service `i` that the worker is answering or destroying. -/
def Pc.inHand (i : Nat) : Pc → Option MsgqRecord
  | .tdMsg j r _ | .tdSend j r _ _ | .tdFree j r _ =>
      if j = i then some r else none
  | _ => none

/-- A message that is done with is still the current one, or in the hands of
the worker. -/
theorem Standing.of_over {r : MsgqRecord} (h : Standing i S st pc)
    (hover : st.Over r) : S.curMsg = some r ∨ pc.inHand i = some r := by
  rcases hover with rfl | rfl <;>
    cases pc <;> simp [Standing, Stage.Over] at h <;> simp_all [Pc.inHand]

/-- The mailbox does not notice. -/
theorem MailboxOf.quiet {m : SequentialMailbox.State MsgqRecord}
    {events : List GroupEvent} (hm : MailboxOf i G m)
    (hevents : events.filterMap (mailboxEvent i) = [])
    (hqueue : (G'.table i).queue = (G.table i).queue)
    (hstage : Standing i (G.table i) m.stage G.worker →
      Standing i (G'.table i) m.stage G'.worker) :
    ∃ m', Run Step m (events.filterMap (mailboxEvent i)) m' ∧
      MailboxOf i G' m' :=
  ⟨m, by rw [hevents]; exact .refl, hm.queue.trans hqueue.symm,
    hstage hm.stage⟩

/-- The mailbox makes the one move the step shows. -/
theorem MailboxOf.moves {q q' : List MsgqRecord}
    {st st' : Stage MsgqRecord} {events : List GroupEvent}
    {e : SequentialMailbox.Event MsgqRecord}
    (hevents : events.filterMap (mailboxEvent i) = [e])
    (hstep : Step ⟨q, st⟩ [e] ⟨q', st'⟩)
    (hqueue : q' = (G'.table i).queue)
    (hstage : Standing i (G'.table i) st' G'.worker) :
    ∃ m', Run Step ⟨q, st⟩ (events.filterMap (mailboxEvent i)) m' ∧
      MailboxOf i G' m' :=
  ⟨⟨q', st'⟩, by rw [hevents]; exact Run.single hstep, hqueue, hstage⟩

/-- The worker is busy with another service. -/
theorem MailboxOf.elsewhere {m : SequentialMailbox.State MsgqRecord}
    {events : List GroupEvent} (hm : MailboxOf i G m)
    (hevents : events.filterMap (mailboxEvent i) = [])
    (htable : G'.table i = G.table i) (hfocus : G.worker.focus ≠ some i)
    (hfocus' : G'.worker.focus ≠ some i) :
    ∃ m', Run Step m (events.filterMap (mailboxEvent i)) m' ∧
      MailboxOf i G' m' := by
  refine hm.quiet hevents (by rw [htable]) ?_
  rw [Standing.of_ne hfocus, Standing.of_ne hfocus', htable]
  exact id

/-! ## Every step of the group is a move of the mailbox, or none -/

/-- The worker moves the mailbox as the protocol allows. -/
theorem WorkerTrans.mailbox {e : Env} {o : Outcome} {events : List GroupEvent}
    (inv : GroupInv c G) (h : WorkerTrans c e G o G' events) (hi : i < c.size)
    {m : SequentialMailbox.State MsgqRecord} (hm : MailboxOf i G m) :
    ∃ m', Run Step m (events.filterMap (mailboxEvent i)) m' ∧
      MailboxOf i G' m' := by
  have hs := inv.sound i hi
  obtain ⟨q, st⟩ := m
  have hqueue := hm.queue
  have hstage := hm.stage
  simp only at hqueue hstage
  cases h
  case enterOk h _ | enterFail h _ | startWait h _ | startGo h _
    | startWake h _ | startNotBusy h _ | startBusy h _ | scanInit h _ _
    | scanSkip h _ _ | scanEnd h _ | readySome h _ | loopGo h _
    | loopBusyEnd h _ | loopTeardownEnd h _ | pickNone h _ | pickSome h _
    | pend h _ | tryPend h | handleInit h _ | handleGo h _
    | dispatchPop h _ _ | yieldDone h _ | tdEnter h _ | tdPass h _
    | tdSkip h _ _ | tdEnd h _ | tdExitedIdle h _ _ | tdPopNone h _
    | exitEnd h | exitSkip h _ =>
    exact hm.quiet rfl rfl (by rw [h]; exact id)
  case readyNone n h _ =>
    exact hm.quiet (by split <;> rfl) rfl (by rw [h]; exact id)
  case afterDone ph k h hcall => 
    refine hm.quiet rfl rfl ?_
    rw [h]
    simp only [Group.goto_worker, Group.goto_table, Standing, Stage.Over]
    split
    · rintro ⟨r, hcur, hst⟩
      exact ⟨r, hcur, .inl hst⟩
    · exact id
  case tdAnswer h _ _ _ | tdNoAnswer h _ _ | tdSent h _ =>
    exact hm.quiet rfl rfl (by rw [h]; exact id)
  case initDone idx caller h hcall hyield => 
    rw [h] at hs hstage
    have hrest : Resting (G.table i) st := hstage
    refine hm.quiet rfl ?_ fun _ => ?_
    · by_cases hk : i = idx <;> simp [hk]
    have hresting : ∀ S, Standing i S st (afterInit idx caller) ↔ Resting S st := by
      cases caller <;> simp [Standing, afterInit]
    rw [Group.goto_worker, hresting]
    by_cases hk : i = idx
    · subst hk
      have hcur := (hs.waiting (hs.holds rfl)).1
      exact hrest.congr (by simp) (.inl hcur)
    · exact hrest.congr (by simp [hk]) (.inr (.inl (by simp [hk])))
  case handlerReturn ph k h hcall => 
    refine hm.quiet rfl ?_ ?_
    · by_cases hk : i = k <;> simp [hk]
    · rw [h]
      by_cases hk : i = k
      · subst hk
        simp [Standing]
      · simp [Standing, hk, Ne.symm hk]
  case popNone ph k h hq =>
    rw [h] at hs hstage
    have hrest : Resting (G.table i) st := hstage
    refine hm.quiet rfl ?_ fun _ => ?_
    · by_cases hk : i = k <;> simp [hk]
    by_cases hk : i = k
    · subst hk
      exact hrest.congr (by simp) (.inl (hs.holds rfl).2)
    · exact hrest.congr (by simp [hk]) (.inr (.inl (by simp [hk])))
  case dispatchReenter ph k r fn h hst hcur hfn =>
    rw [h] at hstage
    by_cases hk : k = i
    · subst hk
      obtain rfl : st = .woken r := by
        simpa [Standing, Resting, hcur, hst] using hstage
      refine MailboxOf.moves (by simp [mailboxEvent]) (.reenter q r) hqueue ?_
      simp [hcur]
    · exact hm.elsewhere (by simp [mailboxEvent, hk]) rfl
        (by simp [h, Pc.focus, hk]) (by simp [hk])
  case popSome ph k r rest h hq =>
    rw [h] at hs hstage
    by_cases hk : k = i
    · subst hk
      have hcur := (hs.holds rfl).2
      obtain rfl : st = .empty := (Resting.of_none hcur).mp hstage
      obtain rfl : q = r :: rest := hqueue.trans hq
      refine MailboxOf.moves (by simp [mailboxEvent]) (.take rest r) (by simp) ?_
      simp [Standing]
    · exact hm.elsewhere (by simp [mailboxEvent, hk]) (by simp [Ne.symm hk])
        (by simp [h, Pc.focus, hk]) (by simp [Pc.focus, hk])
  case beforeDrop ph k r h hcur hcall hret =>
    rw [h] at hstage
    by_cases hk : k = i
    · subst hk
      obtain rfl : st = .taken r := by simpa [Standing, hcur] using hstage
      refine MailboxOf.moves (by simp [mailboxEvent]) (.drop q r) hqueue ?_
      simp [Standing, Stage.Over, hcur]
    · exact hm.elsewhere (by simp [mailboxEvent, hk]) rfl
        (by simp [h, Pc.focus, hk]) (by simp [Pc.focus, hk])
  case beforeStart ph k r fn h hcur hcall hret hfn =>
    rw [h] at hstage
    by_cases hk : k = i
    · subst hk
      obtain rfl : st = .taken r := by simpa [Standing, hcur] using hstage
      refine MailboxOf.moves (by simp [mailboxEvent]) (.start q r) hqueue ?_
      simp [hcur]
    · exact hm.elsewhere (by simp [mailboxEvent, hk]) rfl
        (by simp [h, Pc.focus, hk]) (by simp [hk])
  case handledYield ph k r h hcur hcc =>
    rw [h] at hstage
    by_cases hk : k = i
    · subst hk
      obtain rfl : st = .running r := by simpa [Standing, hcur] using hstage
      refine MailboxOf.moves (by simp [mailboxEvent]) (.suspend q r)
        (by simpa using hqueue) ?_
      simp [Standing, Resting, hcur]
    · exact hm.elsewhere (by simp [mailboxEvent, hk]) (by simp [Ne.symm hk])
        (by simp [h, Pc.focus, hk]) (by simp [Pc.focus, hk])
  case handledFinish ph k r h hcur hcc =>
    rw [h] at hstage
    by_cases hk : k = i
    · subst hk
      obtain rfl : st = .running r := by simpa [Standing, hcur] using hstage
      refine MailboxOf.moves (by simp [mailboxEvent]) (.finish q r) hqueue ?_
      simp [Standing, hcur]
    · exact hm.elsewhere (by simp [mailboxEvent, hk]) rfl
        (by simp [h, Pc.focus, hk]) (by simp [Pc.focus, hk])
  case reset ph k r h hcur =>
    rw [h] at hstage
    by_cases hk : k = i
    · subst hk
      have hover : st.Over r := by simpa [Standing, hcur] using hstage
      have hstep : Step ⟨q, st⟩ [.release r] ⟨q, .empty⟩ := by
        rcases hover with rfl | rfl
        · exact .releaseFinished q r
        · exact .releaseDiscarded q r
      refine MailboxOf.moves (by simp [mailboxEvent]) hstep
        (by simpa using hqueue) ?_
      simp [Standing, Resting]
    · exact hm.elsewhere (by simp [mailboxEvent, hk]) (by simp [Ne.symm hk])
        (by simp [h, Pc.focus, hk]) (by simp [Pc.focus])
  case tdExit0 k h _ _ | exitExit0 k h _ _ | tdSetExit1 k h | exitExit1 k h _ =>
    rw [h] at hstage
    have hrest : Resting (G.table i) st := hstage
    refine hm.quiet rfl ?_ fun _ => ?_
    · by_cases hk : i = k <;> simp [hk]
    by_cases hk : i = k
    · subst hk
      refine Resting.congr hrest ?_ (.inr (.inr ?_)) <;> simp
    · refine Resting.congr hrest ?_ (.inr (.inl ?_)) <;> simp [hk]
  case tdExitedCur k r h hcall hcur =>
    rw [h] at hs hstage
    by_cases hk : k = i
    · subst hk
      have hst := hs.holds rfl
      have hstep : Step ⟨q, st⟩ [.cancel r] ⟨q, .discarded r⟩ := by
        have hrest : st = .suspended r ∨ st = .woken r := by
          simpa [Standing, Resting, hcur, hst] using hstage
        rcases hrest with rfl | rfl
        · exact .cancelSuspended q r
        · exact .cancelWoken q r
      refine MailboxOf.moves (by simp [List.filterMap_cons, mailboxEvent])
        hstep hqueue ?_
      simp [Standing]
    · exact hm.elsewhere (by simp [List.filterMap_cons, mailboxEvent, hk]) rfl
        (by simp [h, Pc.focus, hk]) (by simp [Pc.focus, hk])
  case tdFreeCur k r h =>
    rw [h] at hstage
    by_cases hk : k = i
    · subst hk
      obtain rfl : st = .discarded r := by simpa [Standing] using hstage
      refine MailboxOf.moves (by simp [mailboxEvent]) (.releaseDiscarded q r)
        (by simpa using hqueue) ?_
      simp [Standing, Resting]
    · exact hm.elsewhere (by simp [mailboxEvent, hk]) (by simp [Ne.symm hk])
        (by simp [h, Pc.focus, hk]) (by simp [Pc.focus, hk])
  case tdFreeQueued k r h =>
    rw [h] at hs hstage
    by_cases hk : k = i
    · subst hk
      have hcur : (G.table k).curMsg = none := (hs.holds rfl).2
      obtain rfl : st = .discarded r := by simpa [Standing] using hstage
      refine MailboxOf.moves (by simp [mailboxEvent]) (.releaseDiscarded q r)
        hqueue ?_
      simp [Standing, Resting, hcur]
    · exact hm.elsewhere (by simp [mailboxEvent, hk]) rfl
        (by simp [h, Pc.focus, hk]) (by simp [Pc.focus, hk])
  case tdPopSome k r rest h hq =>
    rw [h] at hs hstage
    by_cases hk : k = i
    · subst hk
      have hcur := (hs.holds rfl).2
      obtain rfl : st = .empty := (Resting.of_none hcur).mp hstage
      obtain rfl : q = r :: rest := hqueue.trans hq
      refine MailboxOf.moves (by simp [mailboxEvent]) (.flush rest r) (by simp) ?_
      simp [Standing]
    · exact hm.elsewhere (by simp [mailboxEvent, hk]) (by simp [Ne.symm hk])
        (by simp [h, Pc.focus, hk]) (by simp [Pc.focus, hk])
/-- A sender puts its record at the end of the queue. -/
theorem MailboxOf.push {r : MsgqRecord} (inv : GroupInv c G) (hi : i < c.size)
    (hpush : G.pushMsg j r = some G')
    {m : SequentialMailbox.State MsgqRecord} (hm : MailboxOf i G m) :
    ∃ m', Run Step m
      ([GroupEvent.push j r (G.table j).state].filterMap (mailboxEvent i)) m' ∧
      MailboxOf i G' m' := by
  obtain ⟨hexit0, htable, hworker, -⟩ := Group.pushMsg_some hpush
  have hs := inv.sound i hi
  obtain ⟨q, st⟩ := m
  have hqueue : q = (G.table i).queue := hm.queue
  have hstage : Standing i (G.table i) st G.worker := hm.stage
  by_cases hj : j = i
  · subst hj
    refine MailboxOf.moves (by simp [mailboxEvent]) (.put q st r)
      (by simp [htable, hqueue]) ?_
    have hcur : (G'.table j).curMsg = (G.table j).curMsg := by simp [htable]
    -- only a service without a current message changes its state
    have hstate : (G.table j).curMsg = none ∨
        (G'.table j).state = (G.table j).state := by
      have hlazy := hs.lazy
      have hidle := hs.idle
      cases hst : (G.table j).state <;>
        simp_all [Group.pushedState]
    have hrest : Resting (G.table j) st → Resting (G'.table j) st :=
      fun h => h.congr hcur (hstate.imp_right .inl)
    rw [hworker]
    cases hpc : G.worker <;> rw [hpc] at hstage <;>
      simp only [Standing, hcur] at hstage ⊢ <;> try exact hrest hstage
    all_goals split <;> simp_all
  · refine hm.quiet (by simp [mailboxEvent, hj])
      (by simp [htable, Ne.symm hj]) ?_
    rw [hworker, htable, Function.update_of_ne (Ne.symm hj)]
    exact id

/-- `eaf_resume` wakes the message that yielded. -/
theorem MailboxOf.resume (inv : GroupInv c G) (hi : i < c.size)
    (hresume : G.resumeService j = some G')
    {m : SequentialMailbox.State MsgqRecord} (hm : MailboxOf i G m) :
    ∃ m', Run Step m
      ([GroupEvent.resume j (G.table j).curMsg].filterMap (mailboxEvent i)) m' ∧
      MailboxOf i G' m' := by
  obtain ⟨hst, rfl⟩ := Group.resumeService_some hresume
  have hs := inv.sound i hi
  obtain ⟨q, st⟩ := m
  have hqueue : q = (G.table i).queue := hm.queue
  have hstage : Standing i (G.table i) st G.worker := hm.stage
  by_cases hj : j = i
  · subst hj
    obtain ⟨r, hcur⟩ := Option.ne_none_iff_exists'.mp (hs.yielded hst)
    -- the worker has nothing to do with a yielded service
    have haway : ∀ S st', Standing j S st' G.worker ↔ Resting S st' := by
      have hholds := hs.holds
      intro S st'
      cases hpc : G.worker <;> rw [hpc] at hholds <;>
        simp_all [Standing, Pc.Holds]
    rw [haway] at hstage
    obtain rfl : st = .suspended r := by
      simpa [Resting, hcur, hst] using hstage
    rw [hcur]
    refine MailboxOf.moves (by simp [mailboxEvent]) (.wake q r)
      (by simpa using hqueue) ?_
    simp [haway, Resting, hcur]
  · refine hm.quiet ?_ (by simp [Ne.symm hj]) ?_
    · cases (G.table j).curMsg <;>
        simp [List.filterMap_cons, mailboxEvent, hj]
    · simp [Ne.symm hj]

/-- Every step of a group is a run of the mailbox of each service. -/
theorem GroupStep.mailbox {events : List GroupEvent} (inv : GroupInv c G)
    (h : GroupStep c G events G') (hi : i < c.size)
    {m : SequentialMailbox.State MsgqRecord} (hm : MailboxOf i G m) :
    ∃ m', Run Step m (events.filterMap (mailboxEvent i)) m' ∧
      MailboxOf i G' m' := by
  cases h with
  | work hfixed h => exact h.mailbox inv hi hm
  | fix hraw =>
      have hcur := ((inv.sound i hi).raw (hraw i hi)).2.2
      have hearly := ((inv.sound i hi).raw (hraw i hi)).1
      have haway : ∀ S st', Standing i S st' G.worker ↔ Resting S st' := by
        intro S st'
        cases hpc : G.worker <;> simp_all [Pc.early, Standing]
      refine hm.quiet rfl (by simp [hi]) ?_
      rw [Group.loadFixState_worker, haway, haway]
      exact fun hrest => hrest.congr (by simp [hi]) (.inl hcur)
  | push hfixed hreg h => exact hm.push inv hi h
  | resume hreg h => exact hm.resume inv hi h
  | post => exact hm.quiet rfl rfl id
  | @purgeQueued j r rest site hj hworker hq =>
      obtain ⟨q, st⟩ := m
      have hqueue : q = (G.table i).queue := hm.queue
      have hstage := hm.stage
      rw [hworker] at hstage
      by_cases hij : j = i
      · subst hij
        obtain rfl : q = r :: rest := hqueue.trans hq
        refine MailboxOf.moves (by simp [mailboxEvent]) (.purge rest st r)
          (by simp) ?_
        rw [Group.setService_worker, hworker]
        exact Resting.congr hstage (by simp) (.inr (.inl (by simp)))
      · exact hm.elsewhere (by simp [mailboxEvent, hij])
          (by simp [Ne.symm hij]) (by simp [hworker, Pc.focus])
          (by simp [hworker, Pc.focus])
  | @purgeCurrent j r site hj hworker hcur =>
      obtain ⟨q, st⟩ := m
      have hqueue : q = (G.table i).queue := hm.queue
      have hstage := hm.stage
      rw [hworker] at hstage
      by_cases hij : j = i
      · subst hij
        have hrest : st = .suspended r ∨ st = .woken r := by
          have hrest : Resting (G.table j) st := hstage
          rw [Resting, hcur] at hrest
          exact hrest.imp And.right And.right
        have hcancel : Step ⟨q, st⟩ [.cancel r] ⟨q, .discarded r⟩ := by
          rcases hrest with rfl | rfl
          · exact .cancelSuspended q r
          · exact .cancelWoken q r
        refine ⟨⟨q, .empty⟩, ?_, by simpa using hqueue, ?_⟩
        · simpa [mailboxEvent] using
            (Run.single hcancel).trans (Run.single (.releaseDiscarded q r))
        · rw [Group.setService_worker, hworker]
          simp [Standing, Resting]
      · exact hm.elsewhere (by simp [mailboxEvent, hij])
          (by simp [Ne.symm hij]) (by simp [hworker, Pc.focus])
          (by simp [hworker, Pc.focus])

/-- **Refinement.**  What a run of a group shows of one service is a history of
the mailbox, and it leads to the mailbox that the service now is. -/
theorem GroupRun.mailbox {tr : List GroupEvent} (h : GroupRun c tr G)
    (hi : i < c.size) :
    ∃ m, History (tr.filterMap (mailboxEvent i)) m ∧ MailboxOf i G m := by
  refine Run.simulate (mailboxEvent i) h ⟨rfl, rfl⟩ ?_
  intro tr G events G' m hrun hstep hm
  exact hstep.mailbox (GroupInv.ofRun hrun) hi hm

end Core
end Eaf
