import Eaf.Powerpack.Monitor
import Eaf.System.Handlings

/-!
# The running system with the monitor installed

Every step of the system in which a hook of the monitor is due invokes it.  A
hook may have read the clock `uv_hrtime` some time before it goes on to use the
value; the clock moves forward by itself.  The counters may be reset at any
time.

Beside the monitor stands an observer, who writes down when each handling
begins, and the clock value that was read in the last send to each service.  A
handling begins when the core has made its call of `on_message_handle_before`
and enters the handler for the first time, and it ends with the clock value that
`_monitor_on_message_handle_after` reads.
-/

namespace Eaf
namespace Powerpack

open Core KeyedTable LabelledRun

/-- A hook of the monitor that reads the clock: the one a send is in, or the
one at the end of a handling of group `g`. -/
inductive Reader
  | send (t : Tid)
  | handled (g : Nat)
  deriving DecidableEq, Repr

/-- The system, the monitor and the observer. -/
structure Watched where
  sys : Sys
  mon : Monitor
  /-- `uv_hrtime` -/
  now : UInt64
  /-- the clock values that hooks have read and not used yet -/
  clock : Reader → Option UInt64
  /-- when the handling of each record began -/
  begun : MsgqRecord → UInt64
  /-- the clock value that was read in the last send to each service -/
  sent : UInt32 → Option UInt64

/-- What the observer sees: a handling of service `sid` that began at `begun`
and ended at `finish`, when the last send to the service had read the clock at
`sent`, and the monitor subtracted `stamp`; or a reset of the counters. -/
inductive WatchEvent
  | handled (sid : UInt32) (begun : UInt64) (sent : Option UInt64)
      (stamp finish : UInt64)
  | reset
  deriving DecidableEq, Repr

/-- A step: the clock goes on, a hook reads it, the system makes a step, or
the counters are reset.  `memory` is the outcome of `malloc` in the hook. -/
inductive WatchAct
  | tick (now : UInt64)
  | read (rd : Reader)
  | sys (a : Act) (memory : Bool)
  | reset
  deriving DecidableEq, Repr

namespace Watched

/-- Before `eaf_load`. -/
def initial (L : Layout) : Watched where
  sys := .initial L
  mon := .initial
  now := 0
  clock _ := none
  begun _ := 0
  sent _ := none

/-- The clock value a hook uses: the one it has read, or it reads it now. -/
def time (w : Watched) (rd : Reader) : UInt64 := (w.clock rd).getD w.now

/-- The thread is in the hook. -/
def inHook (w : Watched) : Reader → Bool
  | .send t =>
      match w.sys.call t with
      | .sendHook _ => true
      | _ => false
  | .handled g =>
      match (w.sys.group g).worker with
      | .hookAfter _ _ => true
      | _ => false

/-- The hook has used its clock value. -/
@[simps -fullyApplied]
def used (w : Watched) (rd : Reader) : Watched :=
  { w with clock := Function.update w.clock rd none }

@[simps -fullyApplied]
def setMon (w : Watched) (mon : Monitor) : Watched := { w with mon := mon }

@[simps -fullyApplied]
def setSys (w : Watched) (sys : Sys) : Watched := { w with sys := sys }

/-- The handling of a record begins. -/
@[simps -fullyApplied]
def startHandling (w : Watched) (r : MsgqRecord) : Watched :=
  { w with begun := Function.update w.begun r w.now }

/-- A send to the service has read the clock. -/
@[simps -fullyApplied]
def noteSend (w : Watched) (sid : UInt32) (time : UInt64) : Watched :=
  { w with sent := Function.update w.sent sid (some time) }

/-- What the observer sees of the end of a handling. -/
def seen (w : Watched) (g : Nat) (r : MsgqRecord) : List WatchEvent :=
  match w.mon.findService r.dst with
  | none => []
  | some record =>
      [.handled r.dst (w.begun r) (w.sent r.dst) record.useTimeStart
        (w.time (.handled g))]

/-- The end of a handling: `_monitor_on_message_handle_after`. -/
def finish (w : Watched) (g : Nat) (r : MsgqRecord) : Watched :=
  (w.setMon (w.mon.onMessageHandleAfter r.dst (w.time (.handled g)))).used
    (.handled g)

/-- What a step of an API call does to the monitor. -/
def observeCall (L : Layout) (fate : Nat → Nat → Monitor.RecordFate)
    (memory : Bool) (w : Watched) (t : Tid) : Option Watched :=
  match w.sys.call t with
  | .loadHook => some (w.setMon (w.mon.onLoadBefore L fate))
  | .sendHook b =>
      some (((w.setMon (w.mon.onMessageHandleBefore b.dst
        (w.time (.send t)))).noteSend b.dst (w.time (.send t))).used (.send t))
  | .sendAfter b code =>
      (w.mon.onMessageSendAfter b.src b.dst code memory).map w.setMon
  | _ => some w

/-- What a step of a worker does to the monitor and the observer. -/
def observeWorker (w : Watched) (g : Nat) (o : Outcome) :
    Watched × List WatchEvent :=
  match (w.sys.group g).worker with
  | .hookBefore _ i =>
      match ((w.sys.group g).table i).curMsg with
      | none => (w, [])
      | some r => (if o.ret < 0 then w else w.startHandling r, [])
  | .hookAfter _ i =>
      match ((w.sys.group g).table i).curMsg with
      | none => (w.used (.handled g), [])
      | some r => (w.finish g r, w.seen g r)
  | _ => (w, [])

/-- The hook that is due in a step of the system. -/
def observe (L : Layout) (fate : Nat → Nat → Monitor.RecordFate)
    (memory : Bool) (w : Watched) : Act → Option (Watched × List WatchEvent)
  | .call t _ => (w.observeCall L fate memory t).map fun w' => (w', [])
  | .worker g o => some (w.observeWorker g o)
  | .enter _ _ | .user _ => some (w, [])

/-- One step; `none` also when a hook uses a record that is not there. -/
def step (L : Layout) (fate : Nat → Nat → Monitor.RecordFate) (w : Watched) :
    WatchAct → Option (Watched × List WatchEvent)
  | .tick now => if w.now ≤ now then some ({ w with now := now }, []) else none
  | .read rd =>
      if w.inHook rd then
        some ({ w with clock := Function.update w.clock rd (some w.now) }, [])
      else none
  | .sys a memory =>
      match Core.step L w.sys a with
      | none => none
      | some (sys, _) =>
          (w.observe L fate memory a).map fun out => (out.1.setSys sys, out.2)
  | .reset => some (w.setMon w.mon.resetFlush, [.reset])

end Watched

/-- The steps of the system with the monitor, under any schedule. -/
abbrev WatchStep (L : Layout) (fate : Nat → Nat → Monitor.RecordFate) :
    Watched → List WatchEvent → Watched → Prop :=
  Guarded (Watched.step L fate) fun _ _ => True

/-- Its runs. -/
abbrev WatchRun (L : Layout) (fate : Nat → Nat → Monitor.RecordFate)
    (tr : List WatchEvent) (w : Watched) : Prop :=
  Run (WatchStep L fate) (.initial L) tr w

/-! ## What happens to the measured times -/

/-- The measured times stay, except that new records begin with zero. -/
def Monitor.SameUse (m m' : Monitor) : Prop :=
  ∀ sid, (m'.service sid).map (·.flushUseTime) =
      (m.service sid).map (·.flushUseTime) ∨
    (m.service sid = none ∧
      (m'.service sid).map (·.flushUseTime) = some 0)

namespace Monitor

variable {m m' m'' : Monitor}

theorem SameUse.refl (m : Monitor) : m.SameUse m := fun _ => .inl rfl

theorem SameUse.trans (h : m.SameUse m') (h' : m'.SameUse m'') :
    m.SameUse m'' := by
  intro sid
  rcases h' sid with hsame | ⟨hnone, hzero⟩
  · rcases h sid with hold | ⟨hfresh, hzero⟩
    · exact .inl (hsame.trans hold)
    · exact .inr ⟨hfresh, hsame.trans hzero⟩
  · rcases h sid with hold | ⟨-, hold⟩
    · have hfresh : m.service sid = none := by
        rw [hnone] at hold
        simpa using hold.symm
      exact .inr ⟨hfresh, hzero⟩
    · simp [hnone] at hold

theorem SameUse.setRecord {sid : UInt32} {record record' : ServiceRecord}
    (hrecord : m.service sid = some record)
    (huse : record'.flushUseTime = record.flushUseTime) :
    m.SameUse (m.setRecord sid record') := by
  intro sid'
  left
  by_cases hsid : sid' = sid
  · subst hsid
    simp [hrecord, huse]
  · simp [hsid]

theorem sameUse_loadService (gid : Nat) (m : Monitor)
    (row : ServiceTable × RecordFate) : m.SameUse (loadService gid m row) := by
  simp only [loadService]
  split
  · cases hinsert : m.service.insert row.1.srvId _ with
    | none => exact .refl m
    | some table =>
        intro sid
        simp only [Table.insert] at hinsert
        split at hinsert
        · cases hinsert
        · next hnone =>
            obtain rfl := Option.some.inj hinsert
            by_cases hsid : sid = row.1.srvId
            · subst hsid
              right
              exact ⟨by simpa using hnone, by simp [newRecord]⟩
            · left
              simp [Function.update_of_ne hsid]
  · exact .refl m

theorem sameUse_onLoadBefore (L : Layout) (fate : Nat → Nat → RecordFate)
    (m : Monitor) : m.SameUse (m.onLoadBefore L fate) := by
  unfold onLoadBefore
  refine List.foldlRecOn _ _ (.refl m) fun m' hm' entry _ => ?_
  unfold loadGroup
  exact List.foldlRecOn _ _ hm' fun m'' hm'' row _ =>
    hm''.trans (sameUse_loadService _ _ _)

theorem sameUse_onMessageHandleBefore (m : Monitor) (dst : UInt32)
    (now : UInt64) : m.SameUse (m.onMessageHandleBefore dst now) := by
  simp only [onMessageHandleBefore, findService]
  split
  · exact .refl m
  · next record hrecord => exact .setRecord hrecord rfl

theorem sameUse_onMessageSendAfter {src dst : UInt32} {ret : Int}
    {memory : Bool} (h : m.onMessageSendAfter src dst ret memory = some m') :
    m.SameUse m' := by
  simp only [onMessageSendAfter] at h
  split at h
  · obtain rfl := Option.some.inj h
    exact .refl m
  · simp only [updateCounterSend, findService, updateMessagePath_service] at h
    cases hsrc : m.service src with
    | none => simp [hsrc] at h
    | some sender =>
        simp only [hsrc, Option.some.injEq] at h
        subst h
        have hsender : (m.updateMessagePath src dst memory).service src =
            some sender := by simpa using hsrc
        intro sid
        have hsid := SameUse.setRecord hsender
          (show ({ sender with
            flushSend := sender.flushSend + 1
            totalSend := sender.totalSend + 1 } : ServiceRecord).flushUseTime =
              sender.flushUseTime from rfl) sid
        rwa [updateMessagePath_service] at hsid

end Monitor

/-! ## The transitions -/

/-- What a step of the system makes of the monitor and the observer. -/
inductive ObserveTrans (w : Watched) : Act → Watched → List WatchEvent → Prop
  /-- no handling begins or ends -/
  | quiet {a : Act} {w' : Watched} (hnow : w'.now = w.now)
      (hbegun : w'.begun = w.begun) (huse : w.mon.SameUse w'.mon)
      (hclock : ∀ rd x, w'.clock rd = some x → w.clock rd = some x)
      (hafter : ∀ g o ph i, a = .worker g o →
        (w.sys.group g).worker = .hookAfter ph i → w'.clock (.handled g) = none)
      (hbefore : ∀ g o ph i r, a = .worker g o →
        (w.sys.group g).worker = .hookBefore ph i →
        ((w.sys.group g).table i).curMsg = some r → o.ret < 0) :
      ObserveTrans w a w' []
  /-- a handling begins -/
  | start {g : Nat} {o : Outcome} {ph : Phase} {i : Nat} {r : MsgqRecord}
      (hpc : (w.sys.group g).worker = .hookBefore ph i)
      (hcur : ((w.sys.group g).table i).curMsg = some r) (hret : 0 ≤ o.ret) :
      ObserveTrans w (.worker g o) (w.startHandling r) []
  /-- a handling ends -/
  | finish {g : Nat} {o : Outcome} {ph : Phase} {i : Nat} {r : MsgqRecord}
      (hpc : (w.sys.group g).worker = .hookAfter ph i)
      (hcur : ((w.sys.group g).table i).curMsg = some r) :
      ObserveTrans w (.worker g o) (w.finish g r) (w.seen g r)

section Transitions

variable {L : Layout} {fate : Nat → Nat → Monitor.RecordFate} {w w' : Watched}
  {a : Act} {memory : Bool} {events : List WatchEvent}

/-- Nothing was noted. -/
theorem ObserveTrans.same (hpc : ∀ g o ph i, a = .worker g o →
    (w.sys.group g).worker ≠ .hookAfter ph i ∧
      (w.sys.group g).worker ≠ .hookBefore ph i) : ObserveTrans w a w [] :=
  .quiet rfl rfl (.refl _) (fun _ _ h => h)
    (fun g o ph i ha h => absurd h (hpc g o ph i ha).1)
    (fun g o ph i _ ha h => absurd h (hpc g o ph i ha).2)

/-- A step of a call changes the monitor at most. -/
theorem ObserveTrans.of_call {t : Tid} {o : Outcome}
    (h : w.observeCall L fate memory t = some w') :
    ObserveTrans w (.call t o) w' [] := by
  have hquiet : ∀ {v : Watched}, v.now = w.now → v.begun = w.begun →
      w.mon.SameUse v.mon →
      (∀ rd x, v.clock rd = some x → w.clock rd = some x) →
      ObserveTrans w (.call t o) v [] := fun hnow hbegun huse hclock =>
    .quiet hnow hbegun huse hclock (by simp) (by simp)
  unfold Watched.observeCall at h
  cases hcall : w.sys.call t
  case loadHook =>
    simp only [hcall, Option.some.injEq] at h
    subst h
    exact hquiet rfl rfl (Monitor.sameUse_onLoadBefore L fate w.mon)
      fun _ _ hx => hx
  case sendHook b =>
    simp only [hcall, Option.some.injEq] at h
    subst h
    refine hquiet rfl rfl
      (Monitor.sameUse_onMessageHandleBefore w.mon b.dst _) fun rd x hx => ?_
    by_cases hrd : rd = .send t
    · simp [hrd] at hx
    · simpa [hrd] using hx
  case sendAfter b code =>
    simp only [hcall, Option.map_eq_some_iff] at h
    obtain ⟨mon, hmon, rfl⟩ := h
    exact hquiet rfl rfl (Monitor.sameUse_onMessageSendAfter hmon)
      fun _ _ hx => hx
  all_goals
    simp only [hcall, Option.some.injEq] at h
    subst h
    exact hquiet rfl rfl (.refl _) fun _ _ hx => hx

theorem ObserveTrans.of_worker (w : Watched) (g : Nat) (o : Outcome) :
    ObserveTrans w (.worker g o) (w.observeWorker g o).1
      (w.observeWorker g o).2 := by
  unfold Watched.observeWorker
  cases hpc : (w.sys.group g).worker
  case hookBefore ph i =>
    cases hcur : ((w.sys.group g).table i).curMsg with
    | none =>
        simp only [hcur]
        refine .quiet rfl rfl (.refl _) (fun _ _ h => h) ?_ ?_
        · rintro g' o' ph' i' ha hpc'
          obtain ⟨rfl, -⟩ : g = g' ∧ o = o' := by simpa using ha
          simp [hpc] at hpc'
        · rintro g' o' ph' i' r ha hpc' hr
          obtain ⟨rfl, -⟩ : g = g' ∧ o = o' := by simpa using ha
          obtain ⟨-, rfl⟩ : ph = ph' ∧ i = i' := by simpa [hpc] using hpc'
          simp [hcur] at hr
    | some r =>
        simp only [hcur]
        by_cases hret : o.ret < 0
        · rw [if_pos hret]
          refine .quiet rfl rfl (.refl _) (fun _ _ h => h) ?_ ?_
          · rintro g' o' ph' i' ha hpc'
            obtain ⟨rfl, -⟩ : g = g' ∧ o = o' := by simpa using ha
            simp [hpc] at hpc'
          · rintro g' o' ph' i' r ha - -
            obtain ⟨-, rfl⟩ : g = g' ∧ o = o' := by simpa using ha
            exact hret
        · rw [if_neg hret]
          exact .start hpc hcur (Int.not_lt.mp hret)
  case hookAfter ph i =>
    cases hcur : ((w.sys.group g).table i).curMsg with
    | none =>
        simp only [hcur]
        refine .quiet rfl rfl (.refl _) (fun rd x hx => ?_) ?_ ?_
        · by_cases hrd : rd = .handled g
          · simp [hrd] at hx
          · simpa [hrd] using hx
        · rintro g' o' ph' i' ha -
          obtain ⟨rfl, -⟩ : g = g' ∧ o = o' := by simpa using ha
          simp
        · rintro g' o' ph' i' r ha hpc' -
          obtain ⟨rfl, -⟩ : g = g' ∧ o = o' := by simpa using ha
          simp [hpc] at hpc'
    | some r =>
        simp only [hcur]
        exact .finish hpc hcur
  all_goals
    refine .same ?_
    rintro g' o' ph' i' ha
    obtain ⟨rfl, -⟩ : g = g' ∧ o = o' := by simpa using ha
    simp [hpc]

/-- The list is complete. -/
theorem Watched.observe_trans
    (h : w.observe L fate memory a = some (w', events)) :
    ObserveTrans w a w' events := by
  cases a with
  | worker g o =>
      simp only [observe, Option.some.injEq] at h
      rw [← show (w.observeWorker g o).1 = w' by rw [h],
        ← show (w.observeWorker g o).2 = events by rw [h]]
      exact .of_worker w g o
  | call t o =>
      simp only [observe, Option.map_eq_some_iff, Prod.mk.injEq] at h
      obtain ⟨w'', hcall, rfl, rfl⟩ := h
      exact .of_call hcall
  | enter t q | user op =>
      simp only [observe, Option.some.injEq, Prod.mk.injEq] at h
      obtain ⟨rfl, rfl⟩ := h
      exact .same (by simp)

/-- The kinds of step. -/
theorem WatchStep.cases (h : WatchStep L fate w events w') :
    (∃ now, w.now ≤ now ∧ w' = { w with now := now } ∧ events = []) ∨
    (∃ rd, w.inHook rd = true ∧
      w' = { w with clock := Function.update w.clock rd (some w.now) } ∧
      events = []) ∨
    (w' = w.setMon w.mon.resetFlush ∧ events = [.reset]) ∨
    ∃ a memory v sys sysEvents, Core.step L w.sys a = some (sys, sysEvents) ∧
      w.observe L fate memory a = some (v, events) ∧ w' = v.setSys sys := by
  obtain ⟨act, -, hstep⟩ := h
  cases act with
  | tick now =>
      simp only [Watched.step, Option.ite_none_right_eq_some,
        Option.some.injEq, Prod.mk.injEq] at hstep
      obtain ⟨hle, rfl, rfl⟩ := hstep
      exact .inl ⟨now, hle, rfl, rfl⟩
  | read rd =>
      simp only [Watched.step, Option.ite_none_right_eq_some,
        Option.some.injEq, Prod.mk.injEq] at hstep
      obtain ⟨hin, rfl, rfl⟩ := hstep
      exact .inr (.inl ⟨rd, hin, rfl, rfl⟩)
  | sys a memory =>
      cases hsys : Core.step L w.sys a with
      | none => simp [Watched.step, hsys] at hstep
      | some next =>
          obtain ⟨sys, sysEvents⟩ := next
          simp only [Watched.step, hsys, Option.map_eq_some_iff,
            Prod.mk.injEq] at hstep
          obtain ⟨out, hout, rfl, rfl⟩ := hstep
          exact .inr (.inr (.inr ⟨a, memory, out.1, sys, sysEvents, hsys, hout,
            rfl⟩))
  | reset =>
      simp only [Watched.step, Option.some.injEq, Prod.mk.injEq] at hstep
      obtain ⟨rfl, rfl⟩ := hstep
      exact .inr (.inr (.inl ⟨rfl, rfl⟩))

/-- The system does not notice the monitor. -/
theorem WatchRun.trace {tr : List WatchEvent} (h : WatchRun L fate tr w) :
    ∃ sysTr, Trace L (fun _ _ => True) sysTr w.sys := by
  refine h.preserved
    (P := fun w => ∃ sysTr, Trace L (fun _ _ => True) sysTr w.sys)
    ⟨[], .refl⟩ ?_
  rintro w events w' ⟨sysTr, hrun⟩ hstep
  rcases hstep.cases with ⟨now, -, rfl, -⟩ | ⟨rd, -, rfl, -⟩ | ⟨rfl, -⟩ |
    ⟨a, memory, v, sys, sysEvents, hsys, -, rfl⟩
  · exact ⟨sysTr, hrun⟩
  · exact ⟨sysTr, hrun⟩
  · exact ⟨sysTr, hrun⟩
  · exact ⟨_, hrun.snoc ⟨a, trivial, hsys⟩⟩

end Transitions

end Powerpack
end Eaf
