import Eaf.Foundation.Ledger
import Eaf.Guarantees.ListMembership
import Eaf.Powerpack.MonitorStamps

/-!
# The time that services spend on their messages

`flush_use_time` of a service is meant to be the time the service has spent on
the messages it is through with since the last reset.  The monitor takes the
end of a handling in `_monitor_on_message_handle_after`, but it takes the
begin in a hook that `powerpack.c` calls before a *send* to the service.  So
the measured time is right exactly when, at the end of every handling, the clock
value read in the last send to the service is the time at which that handling
began.
-/

namespace Eaf
namespace Powerpack

open Core KeyedTable LabelledRun

variable {L : Layout} {fate : Nat → Nat → Monitor.RecordFate} {w w' : Watched}
  {tr events : List WatchEvent} {sid : UInt32} {g i : Nat} {r : MsgqRecord}

/-! ## What is to be measured -/

/-- The time a service has spent on a message. -/
def WatchEvent.use (sid : UInt32) : WatchEvent → Nat
  | .handled sid' begun _ _ finish =>
      if sid' = sid then finish.toNat - begun.toNat else 0
  | .reset => 0

/-- What happened since the last reset, the latest first. -/
def sinceReset (tr : List WatchEvent) : List WatchEvent :=
  tr.reverse.takeWhile fun e => e != .reset

/-- The time a service has spent on messages since the last reset. -/
def useTime (sid : UInt32) (tr : List WatchEvent) : Nat :=
  Ledger.total (sinceReset tr) (·.use sid)

@[simp] theorem useTime_nil (sid : UInt32) : useTime sid [] = 0 := rfl

@[simp] theorem useTime_reset (sid : UInt32) (tr : List WatchEvent) :
    useTime sid (tr ++ [.reset]) = 0 := by
  simp [useTime, sinceReset]

theorem useTime_handled (sid sid' : UInt32) (begun stamp finish : UInt64)
    (sent : Option UInt64) (tr : List WatchEvent) :
    useTime sid (tr ++ [.handled sid' begun sent stamp finish]) =
      (if sid' = sid then finish.toNat - begun.toNat else 0) +
        useTime sid tr := by
  have hsince : sinceReset (tr ++ [.handled sid' begun sent stamp finish]) =
      .handled sid' begun sent stamp finish :: sinceReset tr := by
    simp [sinceReset]
  rw [useTime, hsince]
  simp [useTime, Ledger.total, WatchEvent.use]

/-- The counters show what the services have spent, and no subtraction has
wrapped around. -/
structure UseTimeRight (tr : List WatchEvent) (w : Watched) : Prop where
  forward : ∀ sid begun sent stamp finish,
    .handled sid begun sent stamp finish ∈ tr → stamp ≤ finish
  shown : ∀ sid record, w.mon.service sid = some record →
    record.flushUseTime.toNat = useTime sid tr

/-- At the end of every handling, the last send to the service was the one that
read the clock at the value at which the handling began. -/
def Matched (tr : List WatchEvent) : Prop :=
  ∀ sid begun sent stamp finish, .handled sid begun sent stamp finish ∈ tr →
    sent = some begun

/-! ## Time in a run -/

/-- The observed times are in order, and leave room for one another. -/
structure Timed (tr : List WatchEvent) (w : Watched) : Prop where
  read : ∀ rd x, w.clock rd = some x → x ≤ w.now
  begun : ∀ r, w.begun r ≤ w.now
  /-- a clock value for the end of a handling is read after its begin -/
  ending : ∀ g x, w.clock (.handled g) = some x →
    ∃ ph i, (w.sys.group g).worker = .hookAfter ph i ∧
      ∀ r, ((w.sys.group g).table i).curMsg = some r → w.begun r ≤ x
  past : ∀ sid, useTime sid tr ≤ w.now.toNat
  /-- a handling begins after the earlier ones of the service -/
  earlier : ∀ g i r, (w.sys.group g).Handling i r →
    useTime r.dst tr ≤ (w.begun r).toNat
  unknown : ∀ sid, w.mon.service sid = none → useTime sid tr = 0

/-- A record is current in one place at most. -/
theorem WatchRun.current_unique (h : WatchRun L fate tr w) {g' i' : Nat}
    {r' : MsgqRecord} (hr : ((w.sys.group g).table i).curMsg = some r)
    (hr' : ((w.sys.group g').table i').curMsg = some r')
    (hdst : r.dst = r'.dst) : g = g' ∧ i = i' := by
  obtain ⟨sysTr, hsys⟩ := h.trace
  have hfind := hsys.record_target (g := g) (i := i) (r := r)
    (by simp [Service.records, hr])
  have hfind' := hsys.record_target (g := g') (i := i') (r := r')
    (by simp [Service.records, hr'])
  rw [hdst, hfind'] at hfind
  simpa [eq_comm] using hfind

theorem Timed.initial (L : Layout) : Timed [] (.initial L) where
  read rd x hx := by cases hx
  begun r := UInt64.le_refl 0
  ending g x hx := by cases hx
  past sid := Nat.zero_le _
  earlier g i r _ := Nat.zero_le _
  unknown sid _ := rfl

/-- A clock value that has been read stays with its hook. -/
theorem Timed.ending_kept {a : Act} {sys : Sys} {sysEvents : List Event}
    (ht : Timed tr w) (hsys : Core.step L w.sys a = some (sys, sysEvents))
    {x : UInt64} (hx : w.clock (.handled g) = some x)
    (hother : ∀ o, a ≠ .worker g o) :
    ∃ ph i, (sys.group g).worker = .hookAfter ph i ∧
      ∀ r, ((sys.group g).table i).curMsg = some r →
        ((w.sys.group g).table i).curMsg = some r ∧ w.begun r ≤ x := by
  obtain ⟨hworker, hcur⟩ := (step_trans hsys).others hother
  obtain ⟨ph, i, hpc, hle⟩ := ht.ending g x hx
  refine ⟨ph, i, hworker.trans hpc, fun r hr => ?_⟩
  exact ⟨hcur i r hr, hle r (hcur i r hr)⟩

/-- A step of the system in which no handling begins or ends. -/
theorem Timed.quiet {a : Act} {v : Watched} {sys : Sys}
    {sysEvents : List Event} (ht : Timed tr w)
    (hsys : Core.step L w.sys a = some (sys, sysEvents))
    (hnow : v.now = w.now) (hbegun : v.begun = w.begun)
    (huse : w.mon.SameUse v.mon)
    (hclock : ∀ rd x, v.clock rd = some x → w.clock rd = some x)
    (hafter : ∀ g o ph i, a = .worker g o →
      (w.sys.group g).worker = .hookAfter ph i → v.clock (.handled g) = none)
    (hbefore : ∀ g o ph i r, a = .worker g o →
      (w.sys.group g).worker = .hookBefore ph i →
      ((w.sys.group g).table i).curMsg = some r → o.ret < 0) :
    Timed tr (v.setSys sys) where
  read rd x hx := by
    rw [Watched.setSys_now, hnow]
    exact ht.read rd x (hclock rd x hx)
  begun r := by
    rw [Watched.setSys_now, Watched.setSys_begun, hnow, hbegun]
    exact ht.begun r
  ending g x hx := by
    have hold := hclock _ x hx
    obtain ⟨ph, i, hpc, -⟩ := ht.ending g x hold
    have hother : ∀ o, a ≠ .worker g o := by
      intro o ha
      have hnone := hafter g o ph i ha hpc
      rw [Watched.setSys_clock, hnone] at hx
      cases hx
    obtain ⟨ph', i', hpc', hcur⟩ := ht.ending_kept hsys hold hother
    refine ⟨ph', i', hpc', fun r hr => ?_⟩
    rw [Watched.setSys_begun, hbegun]
    exact (hcur r hr).2
  past sid := by
    rw [Watched.setSys_now, hnow]
    exact ht.past sid
  earlier g i r hr := by
    rw [Watched.setSys_begun, hbegun]
    rcases (step_trans hsys).handling hr with hold | ⟨o, ph, ha, hpc, hcur, hret⟩
    · exact ht.earlier g i r hold
    · exact absurd (hbefore g o ph i r ha hpc hcur) (Int.not_lt.mpr hret)
  unknown sid hnone := by
    apply ht.unknown sid
    have hv : v.mon.service sid = none := hnone
    rcases huse sid with hsame | ⟨hold, -⟩
    · rw [hv] at hsame
      simpa using hsame.symm
    · exact hold

/-- A step in which a handling begins. -/
theorem Timed.start {o : Outcome} {ph : Phase} {sys : Sys}
    {sysEvents : List Event} (hrun : WatchRun L fate tr w) (ht : Timed tr w)
    (hsys : Core.step L w.sys (.worker g o) = some (sys, sysEvents))
    (hpc : (w.sys.group g).worker = .hookBefore ph i)
    (hcur : ((w.sys.group g).table i).curMsg = some r) :
    Timed tr ((w.startHandling r).setSys sys) where
  read rd x hx := ht.read rd x hx
  begun r' := by
    show Function.update w.begun r w.now r' ≤ w.now
    by_cases hr : r' = r
    · rw [hr, Function.update_self]
      exact UInt64.le_refl _
    · rw [Function.update_of_ne hr]
      exact ht.begun r'
  ending g' x hx := by
    have hold : w.clock (.handled g') = some x := hx
    -- the hook that holds the clock value belongs to another group
    have hg : g' ≠ g := by
      rintro rfl
      obtain ⟨ph', i', hpc', -⟩ := ht.ending _ x hold
      rw [hpc] at hpc'
      cases hpc'
    obtain ⟨ph', i', hpc', hle⟩ := ht.ending_kept hsys hold
      (by simpa using fun h => absurd h.symm hg)
    refine ⟨ph', i', hpc', fun r' hr' => ?_⟩
    obtain ⟨hold', hle'⟩ := hle r' hr'
    show Function.update w.begun r w.now r' ≤ x
    rw [Function.update_of_ne]
    · exact hle'
    · rintro rfl
      exact hg (hrun.current_unique hold' hcur rfl).1
  past sid := ht.past sid
  earlier g' i' r' hr' := by
    show _ ≤ (Function.update w.begun r w.now r').toNat
    by_cases hr : r' = r
    · rw [hr, Function.update_self]
      exact ht.past r.dst
    · rw [Function.update_of_ne hr]
      rcases (step_trans hsys).handling hr' with hold |
        ⟨o', ph', ha, hpc', hcur', -⟩
      · exact ht.earlier g' i' r' hold
      · obtain ⟨rfl, -⟩ : g = g' ∧ o = o' := by simpa using ha
        obtain ⟨-, rfl⟩ : ph = ph' ∧ i = i' := by simpa [hpc] using hpc'
        exact absurd (Option.some.inj (hcur'.symm.trans hcur)) hr
  unknown sid hnone := ht.unknown sid hnone

/-- The clock value at the end of a handling. -/
theorem Timed.finish_time {ph : Phase} (ht : Timed tr w)
    (hpc : (w.sys.group g).worker = .hookAfter ph i)
    (hcur : ((w.sys.group g).table i).curMsg = some r) :
    w.begun r ≤ w.time (.handled g) ∧ w.time (.handled g) ≤ w.now := by
  unfold Watched.time
  cases hclock : w.clock (.handled g) with
  | none => exact ⟨ht.begun r, UInt64.le_refl _⟩
  | some x =>
      obtain ⟨ph', i', hpc', hle⟩ := ht.ending g x hclock
      obtain ⟨-, rfl⟩ : ph = ph' ∧ i = i' := by simpa [hpc] using hpc'
      exact ⟨hle r hcur, ht.read _ x hclock⟩

/-- What the end of a handling adds to the time that its service has spent. -/
theorem useTime_seen (w : Watched) (g : Nat) (r : MsgqRecord)
    (tr : List WatchEvent) (sid : UInt32) :
    useTime sid (tr ++ w.seen g r) =
      (if r.dst = sid ∧ (w.mon.service sid).isSome then
        (w.time (.handled g)).toNat - (w.begun r).toNat else 0) +
        useTime sid tr := by
  unfold Watched.seen Monitor.findService
  cases hrecord : w.mon.service r.dst with
  | none =>
      have hno : ¬(r.dst = sid ∧ (w.mon.service sid).isSome = true) := by
        rintro ⟨rfl, hsome⟩
        simp [hrecord] at hsome
      rw [if_neg hno]
      simp
  | some record =>
      simp only [useTime_handled]
      by_cases hsid : r.dst = sid
      · subst hsid
        simp [hrecord]
      · simp [hsid]

theorem Watched.finish_service_eq_none :
    ((w.finish g r).mon.service sid = none ↔ w.mon.service sid = none) := by
  show ((w.mon.onMessageHandleAfter r.dst (w.time (.handled g))).service sid =
    none ↔ _)
  simp only [Monitor.onMessageHandleAfter, Monitor.findService]
  split
  · exact Iff.rfl
  · next record hrecord =>
    by_cases hsid : sid = r.dst
    · subst hsid
      simp [hrecord]
    · simp [hsid]

/-- A step in which a handling ends. -/
theorem Timed.finish {o : Outcome} {ph : Phase} {sys : Sys}
    {sysEvents : List Event} (hrun : WatchRun L fate tr w) (ht : Timed tr w)
    (hsys : Core.step L w.sys (.worker g o) = some (sys, sysEvents))
    (hpc : (w.sys.group g).worker = .hookAfter ph i)
    (hcur : ((w.sys.group g).table i).curMsg = some r) :
    Timed (tr ++ w.seen g r) ((w.finish g r).setSys sys) := by
  obtain ⟨hbegun, hfinish⟩ := ht.finish_time hpc hcur
  rw [UInt64.le_iff_toNat_le] at hbegun hfinish
  have hhandling : (w.sys.group g).Handling i r :=
    ⟨hcur, by simp [hpc], by simp [hpc]⟩
  have hearlier := ht.earlier g i r hhandling
  refine ⟨?_, ht.begun, ?_, ?_, ?_, ?_⟩
  · intro rd x hx
    have hx' : Function.update w.clock (.handled g) none rd = some x := hx
    by_cases hrd : rd = .handled g
    · simp [hrd] at hx'
    · rw [Function.update_of_ne hrd] at hx'
      exact ht.read rd x hx'
  · intro g' x hx
    have hx' : Function.update w.clock (.handled g) none (.handled g') =
      some x := hx
    have hg : g' ≠ g := by
      rintro rfl
      simp at hx'
    rw [Function.update_of_ne (by simpa using hg)] at hx'
    obtain ⟨ph', i', hpc', hle⟩ := ht.ending_kept hsys hx'
      (by simpa using fun h => absurd h.symm hg)
    exact ⟨ph', i', hpc', fun r' hr' => (hle r' hr').2⟩
  · intro sid
    show useTime sid (tr ++ w.seen g r) ≤ w.now.toNat
    rw [useTime_seen]
    split
    · next hmine =>
      rw [← hmine.1]
      omega
    · have hpast := ht.past sid
      omega
  · intro g' i' r' hr'
    show useTime r'.dst (tr ++ w.seen g r) ≤ (w.begun r').toNat
    have hafter := (step_trans hsys).hookAfter rfl hpc
    rcases (step_trans hsys).handling hr' with hold |
      ⟨o', ph', ha, hpc', -, -⟩
    · -- the other handlings go on, and they are not of this service
      have hdst : r.dst ≠ r'.dst := by
        intro hdst
        obtain ⟨rfl, rfl⟩ := hrun.current_unique hcur hold.current hdst
        exact hr'.unfinished ph hafter
      rw [useTime_seen, if_neg fun h => hdst h.1, Nat.zero_add]
      exact ht.earlier g' i' r' hold
    · obtain ⟨rfl, -⟩ : g = g' ∧ o = o' := by simpa using ha
      rw [hpc] at hpc'
      cases hpc'
  · intro sid hnone
    have hold : w.mon.service sid = none :=
      Watched.finish_service_eq_none.mp hnone
    show useTime sid (tr ++ w.seen g r) = 0
    rw [useTime_seen, if_neg (by simp [hold]), Nat.zero_add]
    exact ht.unknown sid hold

/-- Every run keeps time. -/
theorem WatchRun.timed (h : WatchRun L fate tr w) : Timed tr w := by
  refine Run.invariant (P := Timed) h (.initial L) ?_
  intro tr w events w' hrun ht hstep
  rcases hstep.cases with ⟨now, hle, rfl, rfl⟩ | ⟨rd, hin, rfl, rfl⟩ |
    ⟨rfl, rfl⟩ | ⟨a, memory, v, sys, sysEvents, hsys, hobserve, rfl⟩
  · rw [List.append_nil]
    have hle' := UInt64.le_iff_toNat_le.mp hle
    exact ⟨fun rd x hx => UInt64.le_trans (ht.read rd x hx) hle,
      fun r => UInt64.le_trans (ht.begun r) hle, ht.ending,
      fun sid => Nat.le_trans (ht.past sid) hle', ht.earlier, ht.unknown⟩
  · rw [List.append_nil]
    refine ⟨?_, ht.begun, ?_, ht.past, ht.earlier, ht.unknown⟩
    · intro rd' x hx
      by_cases hrd : rd' = rd
      · simp only [hrd, Function.update_self, Option.some.injEq] at hx
        rw [← hx]
        exact UInt64.le_refl _
      · simp only [Function.update_of_ne hrd] at hx
        exact ht.read rd' x hx
    · intro g x hx
      by_cases hrd : Reader.handled g = rd
      · subst hrd
        simp only [Function.update_self, Option.some.injEq] at hx
        subst hx
        simp only [Watched.inHook] at hin
        split at hin
        · next ph i hpc => exact ⟨ph, i, hpc, fun r _ => ht.begun r⟩
        · cases hin
      · simp only [Function.update_of_ne hrd] at hx
        exact ht.ending g x hx
  · exact ⟨ht.read, ht.begun, ht.ending,
      fun sid => by rw [useTime_reset]; exact Nat.zero_le _,
      fun g i r _ => by rw [useTime_reset]; exact Nat.zero_le _,
      fun sid _ => useTime_reset sid tr⟩
  · cases Watched.observe_trans hobserve with
    | quiet hnow hbegun huse hclock hafter hbefore =>
        rw [List.append_nil]
        exact ht.quiet hsys hnow hbegun huse hclock hafter hbefore
    | start hpc hcur hret =>
        rw [List.append_nil]
        exact ht.start hrun hsys hpc hcur
    | finish hpc hcur => exact ht.finish hrun hsys hpc hcur

/-! ## The measured times -/

/-- The measured time of a service, if it has a record. -/
def Monitor.flushUseTime (m : Monitor) (sid : UInt32) : Option UInt64 :=
  (m.service sid).map (·.flushUseTime)

/-- What the end of a handling does to the measured times. -/
theorem Watched.finish_flushUseTime (w : Watched) (g : Nat) (r : MsgqRecord)
    (sid : UInt32) :
    (w.finish g r).mon.flushUseTime sid =
      if r.dst = sid then (w.mon.service sid).map fun record =>
        record.flushUseTime + (w.time (.handled g) - record.useTimeStart)
      else w.mon.flushUseTime sid := by
  show (w.mon.onMessageHandleAfter r.dst (w.time (.handled g))).flushUseTime
    sid = _
  simp only [Monitor.flushUseTime, Monitor.onMessageHandleAfter,
    Monitor.findService]
  by_cases hsid : r.dst = sid
  · subst hsid
    cases hrecord : w.mon.service r.dst with
    | none => simp [hrecord]
    | some record => simp
  · rw [if_neg hsid]
    cases hrecord : w.mon.service r.dst with
    | none => rfl
    | some record => simp [Ne.symm hsid]

/-- What a step does to the measured times, and what it shows. -/
theorem WatchStep.flush_cases (hrun : WatchRun L fate tr w)
    (h : WatchStep L fate w events w') :
    (events = [.reset] ∧
      ∀ sid, w'.mon.flushUseTime sid = (w.mon.flushUseTime sid).map fun _ => 0) ∨
    (events = [] ∧ w.mon.SameUse w'.mon) ∨
    ∃ sid begun stamp finish flush,
      events = [.handled sid begun (some stamp) stamp finish] ∧
      begun ≤ finish ∧ w.mon.flushUseTime sid = some flush ∧
      ∀ sid', w'.mon.flushUseTime sid' =
        if sid = sid' then some (flush + (finish - stamp))
        else w.mon.flushUseTime sid' := by
  rcases h.cases with ⟨now, -, rfl, rfl⟩ | ⟨rd, -, rfl, rfl⟩ | ⟨rfl, rfl⟩ |
    ⟨a, memory, v, sys, sysEvents, -, hobserve, rfl⟩
  · exact .inr (.inl ⟨rfl, .refl _⟩)
  · exact .inr (.inl ⟨rfl, .refl _⟩)
  · left
    refine ⟨rfl, fun sid => ?_⟩
    simp only [Watched.setMon_mon, Monitor.flushUseTime, Monitor.resetFlush,
      Option.map_map]
    rfl
  · right
    cases Watched.observe_trans hobserve with
    | quiet _ _ huse => exact .inl ⟨rfl, huse⟩
    | start => exact .inl ⟨rfl, .refl _⟩
    | @finish g o ph i r hpc hcur =>
        have htime := (hrun.timed.finish_time hpc hcur).1
        have hr : r ∈ ((w.sys.group g).table i).records := by
          simp [Service.records, hcur]
        have hafter := w.finish_flushUseTime g r
        unfold Watched.seen Monitor.findService
        cases hrecord : w.mon.service r.dst with
        | none =>
            left
            refine ⟨rfl, fun sid => .inl ?_⟩
            refine (hafter sid).trans ?_
            split
            · next hsid =>
              rw [← hsid, hrecord]
              rfl
            · rfl
        | some record =>
            right
            refine ⟨r.dst, w.begun r, record.useTimeStart,
              w.time (.handled g), record.flushUseTime, ?_, htime, ?_, ?_⟩
            · rw [hrun.sent_eq hr hrecord]
            · rw [Monitor.flushUseTime, hrecord]
              rfl
            · intro sid
              refine (hafter sid).trans ?_
              split
              · next hsid =>
                rw [← hsid, hrecord]
                rfl
              · rfl

/-- Time that has passed, in the arithmetic of the counters. -/
theorem add_elapsed {begun finish : UInt64} (h : begun ≤ finish)
    (spent : Nat) :
    UInt64.ofNat spent + (finish - begun) =
      UInt64.ofNat (finish.toNat - begun.toNat + spent) := by
  have hle := UInt64.le_iff_toNat_le.mp h
  apply UInt64.toNat_inj.mp
  rw [UInt64.toNat_add, UInt64.toNat_sub_of_le _ _ h, UInt64.toNat_ofNat',
    UInt64.toNat_ofNat']
  omega

/-- Every counter holds the time its service has spent, as long as the sends
have matched the handlings. -/
theorem WatchRun.flushUseTime (h : WatchRun L fate tr w) (hm : Matched tr)
    {flush : UInt64} (hflush : w.mon.flushUseTime sid = some flush) :
    flush = UInt64.ofNat (useTime sid tr) := by
  refine Run.invariant (P := fun tr w => Matched tr → ∀ sid flush,
    w.mon.flushUseTime sid = some flush →
      flush = UInt64.ofNat (useTime sid tr)) h ?_ ?_ hm sid flush hflush
  · intro _ sid flush hflush
    simp [Monitor.flushUseTime, Watched.initial, Monitor.initial] at hflush
  · intro tr w events w' hrun ih hstep hm sid flush hflush
    have hold := ih fun sid begun sent stamp finish hmem =>
      hm sid begun sent stamp finish (List.mem_append_left _ hmem)
    rcases hstep.flush_cases hrun with ⟨rfl, hreset⟩ | ⟨rfl, huse⟩ |
      ⟨sid', begun, stamp, finish, flush', rfl, hle, hbefore, hafter⟩
    · rw [hreset, Option.map_eq_some_iff] at hflush
      obtain ⟨-, -, rfl⟩ := hflush
      rw [useTime_reset]
      rfl
    · rw [List.append_nil]
      rcases huse sid with hsame | ⟨hnone, hzero⟩
      · exact hold sid flush (hsame.symm.trans hflush)
      · rw [(WatchRun.timed hrun).unknown sid hnone]
        exact Option.some.inj (hflush.symm.trans hzero)
    · obtain rfl := Option.some.inj (hm sid' begun (some stamp) stamp finish
        (List.mem_append_right _ (List.mem_singleton_self _)))
      rw [useTime_handled]
      rw [hafter] at hflush
      by_cases hsid : sid' = sid
      · subst hsid
        rw [if_pos rfl, Option.some.injEq] at hflush
        rw [if_pos rfl, ← hflush, hold sid' flush' hbefore]
        exact add_elapsed hle _
      · rw [if_neg hsid] at hflush
        rw [if_neg hsid, Nat.zero_add]
        exact hold sid flush hflush

/-- As long as the sends have matched the handlings, the counters are right. -/
theorem WatchRun.useTimeRight (h : WatchRun L fate tr w) (hm : Matched tr) :
    UseTimeRight tr w where
  forward sid begun sent stamp finish he := by
    obtain ⟨front, v, events, v', rest, hfront, hstep, -, -, hmem⟩ :=
      h.step_of_mem he
    have hsent := hm sid begun sent stamp finish he
    rcases hstep.flush_cases hfront with ⟨rfl, -⟩ | ⟨rfl, -⟩ |
      ⟨sid', begun', stamp', finish', -, rfl, hle, -⟩
    · simp at hmem
    · cases hmem
    · simp only [List.mem_singleton, WatchEvent.handled.injEq] at hmem
      obtain ⟨-, rfl, rfl, rfl, rfl⟩ := hmem
      rwa [Option.some.inj hsent]
  shown sid record hrecord := by
    have hshown : w.mon.flushUseTime sid = some record.flushUseTime := by
      rw [Monitor.flushUseTime, hrecord]
      rfl
    rw [h.flushUseTime hm hshown, UInt64.toNat_ofNat']
    exact Nat.mod_eq_of_lt
      (Nat.lt_of_le_of_lt (h.timed.past sid) w.now.toNat_lt)

/-- Throughout a run, the time a service has spent is right exactly when at the
end of every handling the clock value read in the last send to the service was
the begin of this handling. -/
theorem use_time_right_iff (h : WatchRun L fate tr w) :
    (∀ front v rest, WatchRun L fate front v →
      Run (WatchStep L fate) v rest w → tr = front ++ rest →
        UseTimeRight front v) ↔ Matched tr := by
  constructor
  · intro hall sid begun sent stamp finish he
    obtain ⟨front, v, events, v', rest, hfront, hstep, hrest, rfl, hmem⟩ :=
      h.step_of_mem he
    have hbefore := hall front v (events ++ rest) hfront
      ((Run.single hstep).trans hrest) (List.append_assoc ..)
    have hafter := hall (front ++ events) v' rest (hfront.snoc hstep) hrest rfl
    rcases hstep.flush_cases hfront with ⟨rfl, -⟩ | ⟨rfl, -⟩ |
      ⟨sid', begun', stamp', finish', flush, rfl, hle, hflush, hadd⟩
    · simp at hmem
    · cases hmem
    · simp only [List.mem_singleton, WatchEvent.handled.injEq] at hmem
      obtain ⟨rfl, rfl, rfl, rfl, rfl⟩ := hmem
      obtain ⟨record, hrecord, rfl⟩ := Option.map_eq_some_iff.mp hflush
      have hnew := hadd sid
      rw [if_pos rfl] at hnew
      obtain ⟨record', hrecord', huse⟩ := Option.map_eq_some_iff.mp hnew
      have hsum : (record.flushUseTime + (finish - stamp)).toNat =
          finish.toNat - begun.toNat + record.flushUseTime.toNat := by
        rw [← huse, hafter.shown sid record' hrecord', useTime_handled,
          if_pos rfl, hbefore.shown sid record hrecord]
      -- the subtraction does not wrap, and then it is the right one
      have hstamp := hafter.forward sid begun (some stamp) stamp finish (by simp)
      have hstamp' := UInt64.le_iff_toNat_le.mp hstamp
      have hle' := UInt64.le_iff_toNat_le.mp hle
      have hfinish := finish.toNat_lt
      rw [UInt64.toNat_add, UInt64.toNat_sub_of_le _ _ hstamp] at hsum
      rw [Option.some.injEq, ← UInt64.toNat_inj]
      omega
  · intro hm front v rest hfront _ hsplit
    refine hfront.useTimeRight fun sid begun sent stamp finish he => ?_
    exact hm sid begun sent stamp finish (hsplit ▸ List.mem_append_left _ he)

/-! ## A request to a service that is busy for some time -/

/-- The records of the monitor can be made. -/
def plainFate : Nat → Nat → Monitor.RecordFate := fun _ _ => ⟨true, 0⟩

/-- Steps of the system in which `malloc` succeeds. -/
def watched (actions : List Act) : List WatchAct :=
  actions.map fun a => .sys a true

/-- A request that is sent at time 1 and handled from `begun` to `finish`. -/
def timedRequest (begun finish : UInt64) : List WatchAct :=
  watched lazyPairLoad ++ [.tick 1] ++
    watched ([.user (.createReq 5 0 0),
      .enter (.client 1) (.send ⟨.req, 2, 1, 0, false⟩)] ++
      clientSteps 1 8) ++ [.tick begun] ++
    watched (workerSteps 0 8) ++ [.tick finish] ++ watched (workerSteps 0 3)

theorem use_time_right_at_once :
    ∃ tr w, WatchRun lazyPair plainFate tr w ∧
      .handled 1 1 (some 1) 1 3 ∈ tr ∧
      ∀ front v rest, WatchRun lazyPair plainFate front v →
        Run (WatchStep lazyPair plainFate) v rest w → tr = front ++ rest →
          UseTimeRight front v := by
  have hreplay : (replay (Watched.step lazyPair plainFate) (fun _ _ => True)
      (.initial lazyPair) (timedRequest 1 3)).any (fun o =>
        decide (o.2 = [.handled 1 1 (some 1) 1 3])) = true := by decide +kernel
  obtain ⟨w, tr, hrun, hcheck⟩ := exists_run_of_replay hreplay
  obtain rfl : tr = [.handled 1 1 (some 1) 1 3] := of_decide_eq_true hcheck
  refine ⟨_, w, hrun, by simp, (use_time_right_iff hrun).mpr ?_⟩
  intro sid begun sent stamp finish he
  simp only [List.mem_singleton, WatchEvent.handled.injEq] at he
  rw [he.2.1, he.2.2.1]

/-- A request that waits from time 1 to time 5 and is handled until 7 counts
for 6 units, although the service has spent 2 on it. -/
theorem waiting_counted :
    ∃ tr w record, WatchRun lazyPair plainFate tr w ∧
      w.mon.service 1 = some record ∧ record.flushUseTime = 6 ∧
      useTime 1 tr = 2 ∧ ¬ UseTimeRight tr w := by
  have hreplay : (replay (Watched.step lazyPair plainFate) (fun _ _ => True)
      (.initial lazyPair) (timedRequest 5 7)).any (fun o =>
        decide (o.1.mon.flushUseTime 1 = some 6 ∧ useTime 1 o.2 = 2)) =
      true := by decide +kernel
  obtain ⟨w, tr, hrun, hcheck⟩ := exists_run_of_replay hreplay
  obtain ⟨hflush, huse⟩ := of_decide_eq_true hcheck
  obtain ⟨record, hrecord, hsix⟩ := Option.map_eq_some_iff.mp hflush
  refine ⟨tr, w, record, hrun, hrecord, hsix, huse, fun hright => ?_⟩
  have hshown := hright.shown 1 record hrecord
  rw [huse, hsix] at hshown
  exact absurd hshown (by decide)

end Powerpack
end Eaf
