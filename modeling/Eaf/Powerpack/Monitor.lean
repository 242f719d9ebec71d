import Eaf.Core.Layout
import Eaf.Foundation.KeyedTable
import Mathlib.Tactic.Simps.Basic

/-!
# The monitor

`monitor.c` counts the messages that every service sends and handles, and the
time it spends on them.  It gets to know of them through the hooks of
PowerPack.  The function `_monitor_on_message_handle_before` sits in the slot
of `on_message_send_before`, so this is the call that it is told about.

The records are found by service id in `record_split`; `record_group` holds
the same records in another order, and `_monitor_reset_flush_nolock` walks it.
A record that is looked up and not found, but used, is undefined behaviour and
ends the run: the result is `none`.
-/

namespace Eaf
namespace Powerpack

open Core KeyedTable

/-- `monitor_service_record_t` -/
structure ServiceRecord where
  gid : UInt32
  sid : UInt32
  flushSend : UInt32
  flushRecv : UInt32
  flushUseTime : UInt64
  totalSend : UInt64
  totalRecv : UInt64
  /-- `temp.use_time_start` -/
  useTimeStart : UInt64
  deriving DecidableEq, Repr

/-- `eaf_monitor_ctx_t` -/
structure Monitor where
  /-- `serivce.record_split` -/
  service : Table UInt32 ServiceRecord
  /-- `counter.flush_use_time` in `group.table` -/
  group : Nat → UInt64
  /-- `data.count` in `dataflow.record` -/
  dataflow : Table (UInt32 × UInt32) UInt64

namespace Monitor

/-- After `eaf_monitor_init`. -/
def initial : Monitor := ⟨fun _ => none, fun _ => 0, fun _ => none⟩

/-- The record of a service changes. -/
@[simps -fullyApplied]
def setRecord (m : Monitor) (sid : UInt32) (record : ServiceRecord) : Monitor :=
  { m with service := Function.update m.service sid (some record) }

/-- `_monitor_reset_flush_nolock` -/
def resetFlush (m : Monitor) : Monitor :=
  { m with
    service := fun sid => (m.service sid).map fun record =>
      { record with flushSend := 0, flushRecv := 0, flushUseTime := 0 }
    group := fun _ => 0 }

/-- `_monitor_find_serivce` -/
def findService (m : Monitor) (sid : UInt32) : Option ServiceRecord :=
  m.service sid

/-- `_monitor_update_counter_send`; the record is used without a test. -/
def updateCounterSend (m : Monitor) (sid : UInt32) : Option Monitor :=
  match m.findService sid with
  | none => none
  | some record =>
      some (m.setRecord sid { record with
        flushSend := record.flushSend + 1
        totalSend := record.totalSend + 1 })

/-- `_monitor_dataflow_insert_new_record`; `memory` is the result of its
`malloc`. -/
def dataflowInsertNewRecord (m : Monitor) (src dst : UInt32) (memory : Bool) :
    Monitor :=
  if memory then
    match m.dataflow.insert (src, dst) 1 with
    | none => m
    | some table => { m with dataflow := table }
  else m

/-- `_monitor_update_message_path` -/
def updateMessagePath (m : Monitor) (src dst : UInt32) (memory : Bool) :
    Monitor :=
  match m.dataflow (src, dst) with
  | none => m.dataflowInsertNewRecord src dst memory
  | some count =>
      { m with
        dataflow := Function.update m.dataflow (src, dst) (some (count + 1)) }

/-- The counters have nothing to do with the message paths. -/
@[simp] theorem updateMessagePath_service (m : Monitor) (src dst : UInt32)
    (memory : Bool) :
    (m.updateMessagePath src dst memory).service = m.service := by
  simp only [updateMessagePath, dataflowInsertNewRecord]
  split
  · split
    · split <;> rfl
    · rfl
  · rfl

/-- `_monitor_on_message_handle_before`, which reads the clock at `now`. -/
def onMessageHandleBefore (m : Monitor) (dst : UInt32) (now : UInt64) :
    Monitor :=
  match m.findService dst with
  | none => m
  | some record => m.setRecord dst { record with useTimeStart := now }

/-- `_monitor_on_message_handle_after`, which reads the clock at `now`. -/
def onMessageHandleAfter (m : Monitor) (dst : UInt32) (now : UInt64) :
    Monitor :=
  match m.findService dst with
  | none => m
  | some record =>
      { m.setRecord dst { record with
          flushRecv := record.flushRecv + 1
          flushUseTime := record.flushUseTime + (now - record.useTimeStart)
          totalRecv := record.totalRecv + 1 } with
        group := Function.update m.group record.gid.toNat
          (m.group record.gid.toNat + (now - record.useTimeStart)) }

/-- `_monitor_on_message_send_after` -/
def onMessageSendAfter (m : Monitor) (src dst : UInt32) (ret : Int)
    (memory : Bool) : Option Monitor :=
  if ret < 0 then some m
  else (m.updateMessagePath src dst memory).updateCounterSend src

/-! ## The records of the layout -/

/-- A new record; its stamp is whatever `malloc` has found there. -/
def newRecord (gid sid : UInt32) (stamp : UInt64) : ServiceRecord where
  gid := gid
  sid := sid
  flushSend := 0
  flushRecv := 0
  flushUseTime := 0
  totalSend := 0
  totalRecv := 0
  useTimeStart := stamp

/-- How the parts of `_monitor_on_load_before` that the program does not
determine turn out for a service: `uv_mutex_init`, and what the new record
holds. -/
structure RecordFate where
  mutex : Bool
  stamp : UInt64
  deriving DecidableEq, Repr

/-- The record of one service; the second record of an id is dropped. -/
def loadService (gid : Nat) (m : Monitor) (row : ServiceTable × RecordFate) :
    Monitor :=
  if row.2.mutex then
    match m.service.insert row.1.srvId
        (newRecord (UInt32.ofNat gid) row.1.srvId row.2.stamp) with
    | none => m
    | some table => { m with service := table }
  else m

/-- The records of one group. -/
def loadGroup (fate : Nat → Nat → RecordFate) (m : Monitor)
    (entry : GroupTable × Nat) : Monitor :=
  (entry.1.service.zipIdx.map fun row =>
    (row.1, fate entry.2 row.2)).foldl (loadService entry.2) m

/-- `_monitor_on_load_before` -/
def onLoadBefore (L : Layout) (fate : Nat → Nat → RecordFate) (m : Monitor) :
    Monitor :=
  L.group.zipIdx.foldl (loadGroup fate) m

end Monitor

/-- An invocation of a hook of the monitor, or a reset of the counters by its
timer or by a flush request. -/
inductive HookCall
  /-- `_monitor_on_message_handle_before` -/
  | handleBefore (src dst : UInt32) (now : UInt64)
  /-- `_monitor_on_message_send_after` -/
  | sendAfter (src dst : UInt32) (ret : Int) (memory : Bool)
  /-- `_monitor_on_message_handle_after` -/
  | handleAfter (src dst : UInt32) (now : UInt64)
  /-- `_monitor_reset_flush_nolock` -/
  | reset
  deriving DecidableEq, Repr

namespace Monitor

/-- One invocation. -/
def call (m : Monitor) : HookCall → Option Monitor
  | .handleBefore _ dst now => some (m.onMessageHandleBefore dst now)
  | .sendAfter src dst ret memory => m.onMessageSendAfter src dst ret memory
  | .handleAfter _ dst now => some (m.onMessageHandleAfter dst now)
  | .reset => some m.resetFlush

/-- A sequence of invocations; each of them has returned. -/
def calls (m : Monitor) (cs : List HookCall) : Option Monitor :=
  cs.foldlM call m

end Monitor

/-! ## The records after loading -/

section Load

variable {L : Layout} {fate : Nat → Nat → Monitor.RecordFate} {m : Monitor}
  {sid : UInt32}

/-- The record has not counted anything. -/
def ServiceRecord.Fresh (record : ServiceRecord) : Prop :=
  record.flushSend = 0 ∧ record.flushRecv = 0 ∧ record.flushUseTime = 0 ∧
    record.totalSend = 0 ∧ record.totalRecv = 0

/-- All records are stored under their ids and have not counted anything. -/
def Monitor.Fresh (m : Monitor) : Prop :=
  ∀ sid record, m.service sid = some record → record.sid = sid ∧ record.Fresh

theorem Monitor.Fresh.loadService {gid : Nat}
    {row : ServiceTable × Monitor.RecordFate} (h : m.Fresh) :
    (Monitor.loadService gid m row).Fresh := by
  simp only [Monitor.loadService]
  split
  · cases hinsert : m.service.insert row.1.srvId _ with
    | none => exact h
    | some table =>
        intro sid record hrecord
        simp only [Table.insert] at hinsert
        split at hinsert
        · cases hinsert
        · obtain rfl := Option.some.inj hinsert
          by_cases hsid : sid = row.1.srvId
          · subst hsid
            simp only [Function.update_self, Option.some.injEq] at hrecord
            subst hrecord
            exact ⟨rfl, rfl, rfl, rfl, rfl, rfl⟩
          · simp only [Function.update_of_ne hsid] at hrecord
            exact h sid record hrecord
  · exact h

/-- `_monitor_on_load_before` starts all counters at zero. -/
theorem Monitor.fresh_onLoadBefore (L : Layout)
    (fate : Nat → Nat → Monitor.RecordFate) :
    (Monitor.initial.onLoadBefore L fate).Fresh := by
  have hinitial : Monitor.initial.Fresh := fun _ _ h => by cases h
  unfold Monitor.onLoadBefore
  refine List.foldlRecOn _ _ hinitial fun m hm entry _ => ?_
  unfold Monitor.loadGroup
  exact List.foldlRecOn _ _ hm fun m hm row _ => hm.loadService

/-- The service is in the layout, and a record could be made for it. -/
def Recorded (L : Layout) (fate : Nat → Nat → Monitor.RecordFate)
    (sid : UInt32) : Prop :=
  ∃ g i, i < (L.conf g).size ∧ ((L.conf g).row i).srvId = sid ∧
    (fate g i).mutex = true

theorem Monitor.loadService_isSome {gid : Nat}
    {row : ServiceTable × Monitor.RecordFate} :
    ((Monitor.loadService gid m row).service sid).isSome ↔
      (m.service sid).isSome ∨ (row.2.mutex = true ∧ row.1.srvId = sid) := by
  simp only [Monitor.loadService]
  by_cases hmutex : row.2.mutex = true
  · rw [if_pos hmutex]
    by_cases hrow : (m.service row.1.srvId).isSome
    · rw [show m.service.insert row.1.srvId _ = none from
        Table.insert_eq_none.mpr hrow]
      constructor
      · exact .inl
      · rintro (h | ⟨-, rfl⟩)
        · exact h
        · exact hrow
    · rw [Table.insert_of_none (by simpa using hrow)]
      by_cases hsid : sid = row.1.srvId
      · subst hsid
        simp [hmutex]
      · simp [Function.update_of_ne hsid, Ne.symm hsid]
  · simp [hmutex]

theorem Monitor.foldl_loadService_isSome {gid : Nat}
    {rows : List (ServiceTable × Monitor.RecordFate)} :
    ((rows.foldl (Monitor.loadService gid) m).service sid).isSome ↔
      (m.service sid).isSome ∨
        ∃ row ∈ rows, row.2.mutex = true ∧ row.1.srvId = sid := by
  induction rows generalizing m with
  | nil => simp
  | cons row rest ih =>
      rw [List.foldl_cons, ih, loadService_isSome]
      simp [or_assoc]

theorem Monitor.foldl_loadGroup_isSome {entries : List (GroupTable × Nat)} :
    ((entries.foldl (Monitor.loadGroup fate) m).service sid).isSome ↔
      (m.service sid).isSome ∨ ∃ entry ∈ entries, ∃ row ∈ entry.1.service.zipIdx,
        (fate entry.2 row.2).mutex = true ∧ row.1.srvId = sid := by
  induction entries generalizing m with
  | nil => simp
  | cons entry rest ih =>
      rw [List.foldl_cons, ih, loadGroup, foldl_loadService_isSome]
      simp [or_assoc]

/-- These are the services with a record. -/
theorem Monitor.onLoadBefore_isSome :
    ((Monitor.initial.onLoadBefore L fate).service sid).isSome ↔
      Recorded L fate sid := by
  rw [onLoadBefore, foldl_loadGroup_isSome]
  constructor
  · rintro (h | ⟨⟨c, g⟩, hentry, ⟨row, i⟩, hrow, hmutex, hid⟩)
    · cases h
    · rw [List.mk_mem_zipIdx_iff_getElem?] at hentry hrow
      have hconf : L.conf g = c := by
        simp [Layout.conf, List.getD_eq_getElem?_getD, hentry]
      refine ⟨g, i, ?_, ?_, hmutex⟩
      · rw [hconf]
        exact (List.getElem?_eq_some_iff.mp hrow).1
      · rw [hconf, GroupTable.row, List.getD_eq_getElem?_getD, hrow]
        exact hid
  · rintro ⟨g, i, hi, hid, hmutex⟩
    right
    have hg : g < L.group.length := Layout.lt_size_of_lt hi
    have hconf : L.conf g = L.group[g] := List.getD_eq_getElem _ _ hg
    rw [hconf] at hi hid
    refine ⟨(L.group[g], g), ?_, (L.group[g].service[i], i), ?_, hmutex, ?_⟩
    · rw [List.mk_mem_zipIdx_iff_getElem?]
      exact List.getElem?_eq_getElem hg
    · rw [List.mk_mem_zipIdx_iff_getElem?]
      exact List.getElem?_eq_getElem hi
    · rw [← hid]
      exact (congrArg ServiceTable.srvId (List.getD_eq_getElem _ _ hi)).symm

end Load

end Powerpack
end Eaf
