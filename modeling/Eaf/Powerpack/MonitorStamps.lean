import Eaf.Powerpack.MonitoredSystem

/-!
# The stamps of the monitor

`_monitor_on_load_before` makes the records of the services before a message can
be sent, and leaves in `use_time_start` what `malloc` has found there.  Every
send to a service stamps its record.  So where a service has a message, its
record bears the clock value that was read in the last send to the service.
-/

namespace Eaf
namespace Powerpack

open Core KeyedTable LabelledRun

/-! ## The records of the layout -/

section Fold

variable {M ρ : Type*} {f : M → ρ → M} {P : M → ρ → Prop} {m : M}

/-- What each round of a loop brings about, and no round undoes, holds after
the loop. -/
theorem foldl_all (hself : ∀ m x, P (f m x) x)
    (hkeep : ∀ m x y, P m x → P (f m y) x) (xs : List ρ) :
    ∀ x ∈ xs, P (xs.foldl f m) x := by
  induction xs generalizing m with
  | nil => simp
  | cons y rest ih =>
      intro x hx
      rw [List.foldl_cons]
      rcases List.mem_cons.mp hx with rfl | hmem
      · exact List.foldlRecOn rest f (hself m x) fun m' hm' z _ =>
          hkeep m' x z hm'
      · exact ih x hmem

/-- A loop whose rounds have nothing to do changes nothing. -/
theorem foldl_of_all (hdone : ∀ m x, P m x → f m x = m) {xs : List ρ}
    (h : ∀ x ∈ xs, P m x) : xs.foldl f m = m := by
  induction xs with
  | nil => rfl
  | cons y rest ih =>
      rw [List.foldl_cons, hdone m y (h y (by simp))]
      exact ih fun x hx => h x (by simp [hx])

end Fold

namespace Monitor

variable {L : Layout} {fate : Nat → Nat → RecordFate} {m m' : Monitor}
  {gid : Nat} {row row' : ServiceTable × RecordFate} {sid : UInt32}

/-- `temp.use_time_start` of a service that has a record. -/
def stamp (m : Monitor) (sid : UInt32) : Option UInt64 :=
  (m.service sid).map (·.useTimeStart)

/-- The record of the row is there, if it can be made. -/
def HasRecord (m : Monitor) (row : ServiceTable × RecordFate) : Prop :=
  row.2.mutex = true → (m.stamp row.1.srvId).isSome = true

/-- The rows of a group, with the fates of their records. -/
def rowsOf (fate : Nat → Nat → RecordFate) (entry : GroupTable × Nat) :
    List (ServiceTable × RecordFate) :=
  entry.1.service.zipIdx.map fun row => (row.1, fate entry.2 row.2)

/-- Every record that can be made is there. -/
def Loaded (L : Layout) (fate : Nat → Nat → RecordFate) (m : Monitor) : Prop :=
  ∀ entry ∈ L.group.zipIdx, ∀ row ∈ rowsOf fate entry, m.HasRecord row

theorem Loaded.mono (h : m.Loaded L fate)
    (hstamp : ∀ sid, (m.stamp sid).isSome = true →
      (m'.stamp sid).isSome = true) : m'.Loaded L fate :=
  fun entry hentry row hrow hmutex => hstamp _ (h entry hentry row hrow hmutex)

/-- A record that is there, or cannot be made, is not made again. -/
theorem loadService_of_hasRecord (h : m.HasRecord row) :
    loadService gid m row = m := by
  unfold loadService
  split
  · next hmutex =>
    have hsome : (m.service row.1.srvId).isSome = true := by
      simpa [stamp] using h hmutex
    rw [Table.insert_eq_none.mpr hsome]
  · rfl

/-- A record that is not there is made. -/
theorem loadService_of_not_hasRecord (h : ¬m.HasRecord row) :
    (loadService gid m row).stamp =
      Function.update m.stamp row.1.srvId (some row.2.stamp) := by
  obtain ⟨hmutex, hnone⟩ : row.2.mutex = true ∧ m.service row.1.srvId = none := by
    simpa [HasRecord, stamp] using h
  rw [loadService, if_pos hmutex, Table.insert_of_none hnone]
  funext sid
  by_cases hsid : sid = row.1.srvId
  · subst hsid
    simp [stamp, newRecord]
  · simp [stamp, hsid]

theorem loadService_hasRecord (m : Monitor) (row : ServiceTable × RecordFate) :
    (loadService gid m row).HasRecord row := by
  by_cases h : m.HasRecord row
  · rwa [loadService_of_hasRecord h]
  · intro _
    rw [loadService_of_not_hasRecord h, Function.update_self]
    rfl

/-- No record is lost. -/
theorem HasRecord.after_loadService (h : m.HasRecord row) :
    (loadService gid m row').HasRecord row := by
  by_cases h' : m.HasRecord row'
  · rwa [loadService_of_hasRecord h']
  · intro hmutex
    rw [loadService_of_not_hasRecord h']
    by_cases hsid : row.1.srvId = row'.1.srvId
    · rw [hsid, Function.update_self]
      rfl
    · rw [Function.update_of_ne hsid]
      exact h hmutex

theorem loadGroup_hasRecord (m : Monitor) (entry : GroupTable × Nat) :
    ∀ row ∈ rowsOf fate entry, (loadGroup fate m entry).HasRecord row :=
  foldl_all (f := loadService entry.2) (P := HasRecord) loadService_hasRecord
    (fun _ _ _ h => h.after_loadService) _

theorem HasRecord.after_loadGroup {entry : GroupTable × Nat}
    (h : m.HasRecord row) : (loadGroup fate m entry).HasRecord row := by
  unfold loadGroup
  exact List.foldlRecOn (motive := fun m : Monitor => m.HasRecord row) _ _ h
    fun _ h' _ _ => h'.after_loadService

/-- After `_monitor_on_load_before` every record that can be made is there. -/
theorem loaded_onLoadBefore (L : Layout) (fate : Nat → Nat → RecordFate)
    (m : Monitor) : (m.onLoadBefore L fate).Loaded L fate :=
  foldl_all (P := fun (m : Monitor) (entry : GroupTable × Nat) =>
      ∀ row ∈ rowsOf fate entry, m.HasRecord row)
    loadGroup_hasRecord (fun _ _ _ h row hrow => (h row hrow).after_loadGroup) _

/-- A second `_monitor_on_load_before` changes nothing. -/
theorem Loaded.onLoadBefore (h : m.Loaded L fate) :
    m.onLoadBefore L fate = m :=
  foldl_of_all (P := fun (m : Monitor) (entry : GroupTable × Nat) =>
      ∀ row ∈ rowsOf fate entry, m.HasRecord row)
    (fun _ _ hrows => foldl_of_all (P := HasRecord)
      (fun _ _ => loadService_of_hasRecord) hrows) h

/-! ## Who stamps a record -/

theorem stamp_setRecord {record : ServiceRecord} (r : ServiceRecord)
    (hrecord : m.service sid = some record)
    (hstamp : r.useTimeStart = record.useTimeStart) :
    (m.setRecord sid r).stamp = m.stamp := by
  funext sid'
  by_cases hsid : sid' = sid
  · subst hsid
    simp [stamp, hrecord, hstamp]
  · simp [stamp, hsid]

theorem stamp_resetFlush (m : Monitor) : m.resetFlush.stamp = m.stamp := by
  funext sid
  simp only [stamp, resetFlush, Option.map_map]
  rfl

theorem stamp_onMessageHandleBefore (m : Monitor) (dst : UInt32)
    (now : UInt64) :
    (m.onMessageHandleBefore dst now).stamp =
      Function.update m.stamp dst ((m.stamp dst).map fun _ => now) := by
  simp only [onMessageHandleBefore, findService]
  cases hrecord : m.service dst with
  | none => simp [stamp, hrecord]
  | some record =>
      funext sid
      by_cases hsid : sid = dst
      · subst hsid
        simp [stamp, hrecord]
      · simp [stamp, hsid]

theorem stamp_onMessageHandleAfter (m : Monitor) (dst : UInt32)
    (now : UInt64) : (m.onMessageHandleAfter dst now).stamp = m.stamp := by
  simp only [onMessageHandleAfter, findService]
  split
  · rfl
  · next record hrecord =>
    exact stamp_setRecord { record with
      flushRecv := record.flushRecv + 1
      flushUseTime := record.flushUseTime + (now - record.useTimeStart)
      totalRecv := record.totalRecv + 1 } hrecord rfl

theorem stamp_onMessageSendAfter {src dst : UInt32} {ret : Int} {memory : Bool}
    (h : m.onMessageSendAfter src dst ret memory = some m') :
    m'.stamp = m.stamp := by
  unfold onMessageSendAfter updateCounterSend findService at h
  rw [updateMessagePath_service] at h
  split at h
  · obtain rfl := Option.some.inj h
    rfl
  · split at h
    · cases h
    · next record hrecord =>
      obtain rfl := Option.some.inj h
      have hpath := m.updateMessagePath_service src dst memory
      rw [← show (m.updateMessagePath src dst memory).stamp = m.stamp by
        unfold stamp
        rw [hpath]]
      exact stamp_setRecord _ ((congrFun hpath src).trans hrecord) rfl

end Monitor

/-! ## The order of the calls -/

section Order

variable {L : Layout} {s s' : Sys} {t : Tid} {a : Act} {events : List Event}
  {b : SendArgs}

/-- The call is an `eaf_load` that is through with the hook, and has not stored
its state. -/
def afterLoadHook : Call → Bool
  | .loadFix _ | .loadWrite => true
  | _ => false

/-- A send that is through with `on_message_send_before`. -/
def askedHook : Call → Option SendArgs
  | .sendFind b | .pushTest b _ _ _ | .pushAlloc b _ _ _ | .pushLock b _ _ _
  | .pushRevert b _ | .pushPost b _ | .sendAfter b _ => some b
  | _ => none

/-- An `eaf_load` is through with its hook. -/
def HookedLoad (s : Sys) : Prop :=
  s.ctx = .busy ∨ ∃ t, afterLoadHook (s.call t) = true ∨
    (s.call t).sending = true

/-- A call is behind the hook of `eaf_load` after this hook, or after the store
that follows. -/
theorem hookedLoad_call (h : Core.CallTrans L s t events s')
    (hcall : afterLoadHook (s'.call t) = true ∨ (s'.call t).sending = true) :
    HookedLoad s ∨ s.call t = .loadHook := by
  cases h
  case loadHooked h => exact .inr h
  case sendAccepted h hctx => exact .inl (.inl hctx)
  case loadFixed h _ | loadAllFixed h _ =>
    exact .inl (.inr ⟨t, .inl (by rw [h]; rfl)⟩)
  case sendHooked h | sendNotFound h | sendFound h _ | pushOverflow h
    | pushRoom h | pushNoMemory h | pushRecord h | pushRefused h _
    | pushAccepted h _ | pushReverted h | pushPosted h =>
    exact .inl (.inr ⟨t, .inr (by rw [h]; rfl)⟩)
  case cleanQueued h _ _ | cleanCurrent h _ _ _ =>
    simp [h, afterLoadHook, Call.sending] at hcall
  all_goals simp [afterLoadHook, Call.sending] at hcall

/-- Nobody gets behind the hook of `eaf_load` without it. -/
theorem SysTrans.hookedLoad (h : SysTrans L s a events s')
    (hnew : HookedLoad s') :
    HookedLoad s ∨ ∃ t o, a = .call t o ∧ s.call t = .loadHook := by
  have hstart : ∀ t', (s'.call t' = s.call t' ∨ s'.call t' = .idle ∨
      ∃ q : Core.Request, s'.call t' = q.start) →
      (afterLoadHook (s'.call t') = true ∨ (s'.call t').sending = true) →
      HookedLoad s := by
    rintro t' (hc | hc | ⟨q, hc⟩) ht' <;> rw [hc] at ht'
    · exact .inr ⟨t', ht'⟩
    · simp [afterLoadHook, Call.sending] at ht'
    · cases q <;> simp [Core.Request.start, afterLoadHook, Call.sending] at ht'
  rcases hnew with hctx | ⟨t', ht'⟩
  · cases h with
    | worker => exact .inl (.inl (by simpa using hctx))
    | @call t o events s' hlive hc =>
        rcases hc.ctx_cases with hsame | ⟨td, reason, -, hexit, -⟩ |
          ⟨hwrite, -, -⟩
        · exact .inl (.inl (hsame ▸ hctx))
        · cases td <;> simp [hexit, Sys.exitState] at hctx
        · exact .inl (.inr ⟨t, .inl (by rw [hwrite]; rfl)⟩)
    | enter he => exact .inl (.inl (he.ctx_eq ▸ hctx))
    | user hu => exact .inl (.inl (hu.ctx_eq ▸ hctx))
  · rcases h.call_cases t' with hc | ⟨o, rfl, hc⟩ | hc | hc
    · exact .inl (hstart t' (.inl hc) ht')
    · exact (hookedLoad_call hc ht').imp id fun hcall => ⟨t', o, rfl, hcall⟩
    · exact .inl (hstart t' (.inr (.inl hc)) ht')
    · exact .inl (hstart t' (.inr (.inr hc)) ht')

/-- A send gets behind its hook by the hook. -/
theorem SysTrans.askedHook (h : SysTrans L s a events s')
    (hasked : askedHook (s'.call t) = some b) :
    askedHook (s.call t) = some b ∨ ∃ o, a = .call t o ∧
      s.call t = .sendHook b := by
  rcases h.call_cases t with hc | ⟨o, rfl, hc⟩ | hc | ⟨q, hc⟩
  · exact .inl (hc ▸ hasked)
  · cases hc
    case sendHooked b' hcall =>
      obtain rfl : b' = b := by simpa [Powerpack.askedHook] using hasked
      exact .inr ⟨o, rfl, hcall⟩
    case cleanQueued hcall _ _ | cleanCurrent hcall _ _ _ =>
      simp [hcall, Powerpack.askedHook] at hasked
    all_goals simp_all [Powerpack.askedHook]
  · simp [hc, Powerpack.askedHook] at hasked
  · cases q <;> simp [hc, Core.Request.start, Powerpack.askedHook] at hasked

end Order

/-! ## The stamps in a run -/

variable {L : Layout} {fate : Nat → Nat → Monitor.RecordFate}
  {w w' v : Watched} {a : Act} {memory : Bool} {tr events : List WatchEvent}

/-- What a step of the system does to the stamps: the hook of `eaf_load` makes
records, the hook of a send stamps one, and nothing else touches them. -/
theorem Watched.observe_stamps
    (h : w.observe L fate memory a = some (v, events)) :
    v.sys = w.sys ∧
    ((∃ t o, a = .call t o ∧ w.sys.call t = .loadHook ∧
        v.mon = w.mon.onLoadBefore L fate ∧ v.sent = w.sent) ∨
      (∃ t o b, a = .call t o ∧ w.sys.call t = .sendHook b ∧
        v.mon = w.mon.onMessageHandleBefore b.dst (w.time (.send t)) ∧
        v.sent = Function.update w.sent b.dst (some (w.time (.send t)))) ∨
      (v.mon.stamp = w.mon.stamp ∧ v.sent = w.sent ∧
        ∀ t o, a = .call t o → w.sys.call t ≠ .loadHook ∧
          ∀ b, w.sys.call t ≠ .sendHook b)) := by
  cases a with
  | call t o =>
      simp only [observe, Option.map_eq_some_iff, Prod.mk.injEq] at h
      obtain ⟨v', hcall, rfl, -⟩ := h
      unfold observeCall at hcall
      split at hcall
      next hpc =>
        obtain rfl := Option.some.inj hcall
        exact ⟨rfl, .inl ⟨t, o, rfl, hpc, rfl, rfl⟩⟩
      next b hpc =>
        obtain rfl := Option.some.inj hcall
        exact ⟨rfl, .inr (.inl ⟨t, o, b, rfl, hpc, rfl, rfl⟩)⟩
      next b code hpc =>
        obtain ⟨mon, hmon, rfl⟩ := Option.map_eq_some_iff.mp hcall
        refine ⟨rfl, .inr (.inr ⟨Monitor.stamp_onMessageSendAfter hmon, rfl, ?_⟩)⟩
        rintro t' o' heq
        obtain ⟨rfl, -⟩ : t = t' ∧ o = o' := by simpa using heq
        simp [hpc]
      next hload hsend _ =>
        obtain rfl := Option.some.inj hcall
        refine ⟨rfl, .inr (.inr ⟨rfl, rfl, ?_⟩)⟩
        rintro t' o' heq
        obtain ⟨rfl, -⟩ : t = t' ∧ o = o' := by simpa using heq
        exact ⟨hload, hsend⟩
  | worker g o =>
      simp only [observe, Option.some.injEq] at h
      have hv : v = (w.observeWorker g o).1 := by rw [h]
      subst hv
      have hother : ∀ t o', Act.worker g o = .call t o' →
          w.sys.call t ≠ .loadHook ∧ ∀ b, w.sys.call t ≠ .sendHook b :=
        fun _ _ heq => by cases heq
      unfold observeWorker
      split
      · split
        · exact ⟨rfl, .inr (.inr ⟨rfl, rfl, hother⟩)⟩
        · split <;> exact ⟨rfl, .inr (.inr ⟨rfl, rfl, hother⟩)⟩
      · split
        · exact ⟨rfl, .inr (.inr ⟨rfl, rfl, hother⟩)⟩
        · refine ⟨rfl, .inr (.inr ⟨?_, rfl, hother⟩)⟩
          exact Monitor.stamp_onMessageHandleAfter ..
      · exact ⟨rfl, .inr (.inr ⟨rfl, rfl, hother⟩)⟩
  | enter t q | user op =>
      simp only [observe, Option.some.injEq, Prod.mk.injEq] at h
      obtain ⟨rfl, -⟩ := h
      exact ⟨rfl, .inr (.inr ⟨rfl, rfl, fun _ _ heq => (by cases heq)⟩)⟩

/-- The stamps, and what the observer has noted. -/
structure Stamped (L : Layout) (fate : Nat → Nat → Monitor.RecordFate)
    (w : Watched) : Prop where
  loaded : HookedLoad w.sys → w.mon.Loaded L fate
  noted : ∀ sid, (w.sent sid).isSome = true → w.mon.Loaded L fate
  asked : ∀ t b, askedHook (w.sys.call t) = some b →
    (w.sent b.dst).isSome = true
  queued : ∀ g i, ∀ r ∈ ((w.sys.group g).table i).records,
    (w.sent r.dst).isSome = true
  stamped : ∀ sid x y, w.sent sid = some x → w.mon.stamp sid = some y → y = x

theorem Stamped.initial (L : Layout) (fate : Nat → Nat → Monitor.RecordFate) :
    Stamped L fate (.initial L) where
  loaded h := by
    rcases h with h | ⟨t, h | h⟩ <;> cases h
  noted sid h := by cases h
  asked t b h := by cases h
  queued g i r hr := by
    simp [Watched.initial, Sys.initial, Group.initial, Service.initial,
      Service.records] at hr
  stamped sid x y h := by cases h

/-- A step that leaves the system and the stamps alone. -/
theorem Stamped.keep (h : Stamped L fate w) (hsys : w'.sys = w.sys)
    (hstamp : w'.mon.stamp = w.mon.stamp) (hsent : w'.sent = w.sent) :
    Stamped L fate w' where
  loaded hopen := (h.loaded (hsys ▸ hopen)).mono fun sid => by rw [hstamp]; exact id
  noted sid hsome := (h.noted sid (hsent ▸ hsome)).mono fun sid => by
    rw [hstamp]; exact id
  asked t b hasked := by
    rw [hsent]
    exact h.asked t b (hsys ▸ hasked)
  queued g i r hr := by
    rw [hsent]
    exact h.queued g i r (hsys ▸ hr)
  stamped sid x y := by
    rw [hsent, hstamp]
    exact h.stamped sid x y

/-- The records stay, and are there after the hook of `eaf_load`. -/
theorem Watched.observe_loaded
    (h : w.observe L fate memory a = some (v, events))
    (hloaded : w.mon.Loaded L fate ∨
      ∃ t o, a = .call t o ∧ w.sys.call t = .loadHook) :
    v.mon.Loaded L fate := by
  obtain ⟨-, ⟨t, o, rfl, hcall, hmon, -⟩ | ⟨t, o, b, rfl, hcall, hmon, -⟩ |
    ⟨hstamp, -, hother⟩⟩ := observe_stamps h
  · rw [hmon]
    exact Monitor.loaded_onLoadBefore L fate w.mon
  · rcases hloaded with hold | ⟨t', o', heq, hload⟩
    · refine hold.mono fun sid hsome => ?_
      rw [hmon, Monitor.stamp_onMessageHandleBefore]
      by_cases hsid : sid = b.dst
      · subst hsid
        simpa using hsome
      · rwa [Function.update_of_ne hsid]
    · obtain ⟨rfl, -⟩ : t = t' ∧ o = o' := by simpa using heq
      rw [hcall] at hload
      cases hload
  · rcases hloaded with hold | ⟨t, o, heq, hload⟩
    · exact hold.mono fun sid => by rw [hstamp]; exact id
    · exact absurd hload (hother t o heq).1

/-- The observer notes the sends. -/
theorem Watched.observe_sent
    (h : w.observe L fate memory a = some (v, events)) (sid : UInt32) :
    (v.sent sid).isSome = true ↔ (w.sent sid).isSome = true ∨
      ∃ t o b, a = .call t o ∧ w.sys.call t = .sendHook b ∧ b.dst = sid := by
  obtain ⟨-, ⟨t, o, rfl, hcall, -, hsent⟩ | ⟨t, o, b, rfl, hcall, -, hsent⟩ |
    ⟨-, hsent, hother⟩⟩ := observe_stamps h
  · rw [hsent, or_iff_left]
    rintro ⟨t', o', b, heq, hsend, -⟩
    obtain ⟨rfl, -⟩ : t = t' ∧ o = o' := by simpa using heq
    rw [hcall] at hsend
    cases hsend
  · rw [hsent]
    by_cases hsid : sid = b.dst
    · subst hsid
      simp only [Function.update_self, Option.isSome_some, true_iff]
      exact .inr ⟨t, o, b, rfl, hcall, rfl⟩
    · rw [Function.update_of_ne hsid, or_iff_left]
      rintro ⟨t', o', b', heq, hsend, rfl⟩
      obtain ⟨rfl, -⟩ : t = t' ∧ o = o' := by simpa using heq
      obtain rfl := Call.sendHook.inj (hcall.symm.trans hsend)
      exact hsid rfl
  · rw [hsent, or_iff_left]
    rintro ⟨t, o, b, heq, hsend, -⟩
    exact (hother t o heq).2 b hsend

/-- A stamp is the clock value of the last send, unless there was none. -/
theorem Stamped.observe (h : Stamped L fate w)
    (hobserve : w.observe L fate memory a = some (v, events)) (sid : UInt32)
    (x y : UInt64) (hx : v.sent sid = some x) (hy : v.mon.stamp sid = some y) :
    y = x := by
  obtain ⟨-, ⟨t, o, rfl, hcall, hmon, hsent⟩ |
    ⟨t, o, b, rfl, hcall, hmon, hsent⟩ | ⟨hstamp, hsent, -⟩⟩ :=
      Watched.observe_stamps hobserve
  · -- the records have been made before the first send
    rw [hsent] at hx
    rw [hmon, (h.noted sid (by simp [hx])).onLoadBefore] at hy
    exact h.stamped sid x y hx hy
  · rw [hsent] at hx
    rw [hmon, Monitor.stamp_onMessageHandleBefore] at hy
    by_cases hsid : sid = b.dst
    · subst hsid
      rw [Function.update_self, Option.some.injEq] at hx
      rw [Function.update_self, Option.map_eq_some_iff] at hy
      obtain ⟨-, -, rfl⟩ := hy
      exact hx
    · rw [Function.update_of_ne hsid] at hx hy
      exact h.stamped sid x y hx hy
  · rw [hsent] at hx
    rw [hstamp] at hy
    exact h.stamped sid x y hx hy

/-- Every step of the system keeps the stamps right. -/
theorem Stamped.system {sysTr sysEvents : List Event} {sys : Sys}
    {ok : Sys → Act → Prop} (h : Stamped L fate w)
    (hrun : Trace L ok sysTr w.sys)
    (hobserve : w.observe L fate memory a = some (v, events))
    (hsys : SysTrans L w.sys a sysEvents sys) :
    Stamped L fate (v.setSys sys) where
  loaded hhooked := by
    have hbefore := (SysTrans.hookedLoad hsys hhooked).imp_left h.loaded
    show v.mon.Loaded L fate
    exact Watched.observe_loaded hobserve hbefore
  noted sid hsome := by
    have hbefore : w.mon.Loaded L fate := by
      rcases (Watched.observe_sent hobserve sid).mp hsome with
        hold | ⟨t, o, b, -, hsend, -⟩
      · exact h.noted sid hold
      · exact h.loaded (.inr ⟨t, .inr (by rw [hsend]; rfl)⟩)
    show v.mon.Loaded L fate
    exact Watched.observe_loaded hobserve (.inl hbefore)
  asked t b hasked := by
    apply (Watched.observe_sent hobserve b.dst).mpr
    rcases SysTrans.askedHook hsys hasked with hold | ⟨o, rfl, hsend⟩
    · exact .inl (h.asked t b hold)
    · exact .inr ⟨t, o, b, rfl, hsend, rfl⟩
  queued g i r hr := by
    apply (Watched.observe_sent hobserve r.dst).mpr
    rcases hsys.mem_records hr with hold | ⟨t, o, b, -, hcall, -⟩
    · exact .inl (h.queued g i r hold)
    · -- the record is addressed to the service its send has asked the hook about
      have haim := (Trace.delivered hrun).1 t
      rw [hcall] at haim
      obtain ⟨-, -, hdst, -⟩ := haim
      rw [hdst]
      exact .inl (h.asked t b (by rw [hcall]; rfl))
  stamped sid x y hx hy := h.observe hobserve sid x y hx hy

/-- **The stamps.**  In every run the stamp of a service to which a message was
sent is the clock value that was read in the last send to it. -/
theorem WatchRun.stamped (h : WatchRun L fate tr w) : Stamped L fate w := by
  refine h.invariant (P := fun _ w => Stamped L fate w) (.initial L fate) ?_
  rintro tr w events w' hrun ih hstep
  rcases hstep.cases with ⟨now, -, rfl, -⟩ | ⟨rd, -, rfl, -⟩ | ⟨rfl, -⟩ |
    ⟨a, memory, v, sys, sysEvents, hsys, hobserve, rfl⟩
  · exact ih.keep rfl rfl rfl
  · exact ih.keep rfl rfl rfl
  · exact ih.keep rfl (Monitor.stamp_resetFlush w.mon) rfl
  · obtain ⟨sysTr, htrace⟩ := WatchRun.trace hrun
    exact ih.system htrace hobserve (step_trans hsys)

/-- The record of a service that has a message bears the clock value of the last
send to the service. -/
theorem WatchRun.sent_eq (h : WatchRun L fate tr w) {g i : Nat} {r : MsgqRecord}
    {record : ServiceRecord} (hr : r ∈ ((w.sys.group g).table i).records)
    (hrecord : w.mon.service r.dst = some record) :
    w.sent r.dst = some record.useTimeStart := by
  have hstamped := h.stamped
  obtain ⟨x, hx⟩ := Option.isSome_iff_exists.mp (hstamped.queued g i r hr)
  have hstamp : w.mon.stamp r.dst = some record.useTimeStart := by
    rw [Monitor.stamp, hrecord]
    rfl
  rw [hx, hstamped.stamped r.dst x _ hx hstamp]

end Powerpack
end Eaf
