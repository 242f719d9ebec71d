import Eaf.Core.ServiceGroup
import Eaf.Foundation.FormattedText
import Eaf.Foundation.JsonText
import Eaf.Powerpack.Monitor
import Eaf.Powerpack.StringApply
import Mathlib.Data.List.Destutter

/-!
# The reports of the monitor

The two reports that `monitor.c` writes about the services, in a table and as
JSON.  Both walk once over `record_group`, which is ordered by group and
service, and tell a new group from the group number of the record before.
-/

namespace Eaf
namespace Powerpack

open Core FormattedText

/-! ## What is reported -/

/-- `_monitor_cmp_service_record_group` -/
def cmpServiceRecordGroup (rec1 rec2 : ServiceRecord) : Int :=
  if rec1.gid < rec2.gid then -1
  else if rec1.gid > rec2.gid then 1
  else if rec1.sid < rec2.sid then -1
  else if rec1.sid > rec2.sid then 1
  else 0

/-- What a report is made from. -/
structure ReportContext where
  monitor : Monitor
  /-- the records of `serivce.record_group`, in the order of the map -/
  recordGroup : List ServiceRecord
  /-- `group.size` -/
  groupSize : Nat
  /-- `gls->tid` of a group -/
  tid : Nat → UInt64
  /-- `sls->state` of a service -/
  state : UInt32 → ServiceState
  /-- `eaf_message_queue_size` of a service -/
  queueSize : UInt32 → Nat
  /-- `record_group` has the records of `record_split` -/
  complete : ∀ r, r ∈ recordGroup ↔ monitor.service r.sid = some r
  ordered : recordGroup.Pairwise fun r r' => cmpServiceRecordGroup r r' < 0
  known : ∀ r ∈ recordGroup, r.gid.toNat < groupSize

/-- `_monitor_calculate_cpu` -/
def calculateCpu (use total : UInt64) : ℚ :=
  if total = 0 then 0
  else
    let ret := toSingle (toSingle (toSingle use.toNat / toSingle total.toNat) * 100)
    if ret > 100 then 100 else ret

/-- `_monitor_state_2_string` -/
def state2String : ServiceState → List Char
  | .init0 => "init0".toList
  | .init1 => "init1".toList
  | .init2 => "init2".toList
  | .idle => "idle".toList
  | .busy => "busy".toList
  | .yield => "yield".toList
  | .exit0 => "exit0".toList
  | .exit1 => "exit1".toList

namespace ReportContext

/-- `(unsigned)eaf_message_queue_size(record->data.sls)` -/
def msgq (c : ReportContext) (r : ServiceRecord) : UInt32 :=
  UInt32.ofNat (c.queueSize r.sid)

/-- `(unsigned)(record->counter.flush_use_time / 1000 / 1000)` -/
def useMsec (r : ServiceRecord) : UInt32 := (r.flushUseTime / 1000 / 1000).toUInt32

/-- The text of `_monitor_calculate_cpu` for a record in a group. -/
def cpuText (c : ReportContext) (g : Nat) (r : ServiceRecord) : List Char :=
  oneDecimal (calculateCpu r.flushUseTime (c.monitor.group g))

/-! ## The texts of the table -/

def normalHead : List Char :=
  "[SERVICE]    [STATE]   [RECV]   [SEND] [MSGQ] [TIME] [CPU%]\n".toList

/-- `"%u:%lu\n"` -/
def normalGroup (c : ReportContext) (gid : UInt32) : List Char :=
  decimal gid.toNat ++ ':' :: decimal (c.tid gid.toNat).toNat ++ ['\n']

/-- `"|-0x%08x %-7s %8u %8u %6u %6u  %5.1f\n"` -/
def normalService (c : ReportContext) (g : Nat) (r : ServiceRecord) : List Char :=
  "|-0x".toList ++ (hexadecimal r.sid.toNat).leftpad 8 '0' ++
    ' ' :: (state2String (c.state r.sid)).rightpad 7 ' ' ++
    ' ' :: (decimal r.flushRecv.toNat).leftpad 8 ' ' ++
    ' ' :: (decimal r.flushSend.toNat).leftpad 8 ' ' ++
    ' ' :: (decimal (c.msgq r).toNat).leftpad 6 ' ' ++
    ' ' :: (decimal (useMsec r).toNat).leftpad 6 ' ' ++
    "  ".toList ++ (c.cpuText g r).leftpad 5 ' ' ++ ['\n']

/-! ## The texts of the JSON report -/

def jsonHead : List Char := "\x7b\"group\":[".toList

/-- `"{\"gid\":%u,\"tid\":%lu,\"service\":["` -/
def jsonGroup (c : ReportContext) (gid : UInt32) : List Char :=
  "\x7b\"gid\":".toList ++ decimal gid.toNat ++
    ",\"tid\":".toList ++ decimal (c.tid gid.toNat).toNat ++
    ",\"service\":[".toList

/-- `"{\"id\":%u,\"state\":\"%s\",\"recv\":%u,\"send\":%u,\"msgq\":%u,\"time\":%u,\"cpu\":%.1f}"` -/
def jsonService (c : ReportContext) (g : Nat) (r : ServiceRecord) : List Char :=
  "\x7b\"id\":".toList ++ decimal r.sid.toNat ++
    ",\"state\":\"".toList ++ state2String (c.state r.sid) ++
    "\",\"recv\":".toList ++ decimal r.flushRecv.toNat ++
    ",\"send\":".toList ++ decimal r.flushSend.toNat ++
    ",\"msgq\":".toList ++ decimal (c.msgq r).toNat ++
    ",\"time\":".toList ++ decimal (useMsec r).toNat ++
    ",\"cpu\":".toList ++ c.cpuText g r ++ "\x7d".toList

/-- After a group. -/
def jsonGroupEnd : List Char := "]\x7d,".toList

def jsonEnd : List Char := "]\x7d]\x7d".toList

end ReportContext

/-! ## Writing a report -/

/-- The buffer of a report, `token` and `write_size`. -/
structure ReportOutput where
  buffer : Nat → Char
  token : Nat
  writeSize : Nat

/-- `write_size += eaf_string_apply(buffer, size, &token, ...)` -/
def ReportOutput.put (o : ReportOutput) (size : Nat) (text : List Char) :
    ReportOutput :=
  let (buffer, token, length) := eafStringApply o.buffer size (some o.token) text
  ⟨buffer, token.getD 0, o.writeSize + length⟩

/-- The locals of the two loops.  `g_record` is a place in `group.table`. -/
structure ReportLoop where
  out : ReportOutput
  lastGid : UInt32
  gRecord : Option Nat
  flagWriteServiceEnd : Bool

/-- `(uint32_t)-1` -/
def noGid : UInt32 := 0xffffffff

namespace ReportContext

/-- The body of the loop of `_monitor_stringify_normal_fill_nolock`. -/
def normalRecord (c : ReportContext) (size : Nat) (s : ReportLoop)
    (r : ServiceRecord) : Option ReportLoop :=
  let s :=
    if s.lastGid ≠ r.gid then
      { s with
        lastGid := r.gid
        gRecord := some r.gid.toNat
        out := s.out.put size (c.normalGroup r.gid) }
    else s
  match s.gRecord with
  | none => none
  | some g => some { s with out := s.out.put size (c.normalService g r) }

/-- `_monitor_stringify_normal_fill_nolock`; `none` when a `NULL` pointer is
used. -/
def stringifyNormalFill (c : ReportContext) (buffer : Nat → Char) (size : Nat) :
    Option ReportOutput :=
  let out : ReportOutput := ⟨buffer, 0, 0⟩
  (c.recordGroup.foldlM (c.normalRecord size)
    ⟨out.put size normalHead, noGid, none, false⟩).map ReportLoop.out

/-- The body of the loop of `_monitor_stringify_json_fill_nolock`. -/
def jsonRecord (c : ReportContext) (size : Nat) (s : ReportLoop)
    (r : ServiceRecord) : Option ReportLoop :=
  let s :=
    if s.lastGid ≠ r.gid then
      let out := if s.gRecord.isSome then s.out.put size jsonGroupEnd else s.out
      { lastGid := r.gid
        gRecord := some r.gid.toNat
        out := out.put size (c.jsonGroup r.gid)
        flagWriteServiceEnd := false }
    else s
  let out := if s.flagWriteServiceEnd then s.out.put size [','] else s.out
  match s.gRecord with
  | none => none
  | some g =>
      some { s with
        out := out.put size (c.jsonService g r)
        flagWriteServiceEnd := true }

/-- `_monitor_stringify_json_fill_nolock` -/
def stringifyJsonFill (c : ReportContext) (buffer : Nat → Char) (size : Nat) :
    Option ReportOutput :=
  let out : ReportOutput := ⟨buffer, 0, 0⟩
  (c.recordGroup.foldlM (c.jsonRecord size)
    ⟨out.put size jsonHead, noGid, none, false⟩).map fun s =>
      s.out.put size jsonEnd

/-- `string_size` in `_monitor_on_req_stringify_normal`; `record_split` has as
many records as `record_group`. -/
def normalStringSize (c : ReportContext) : Nat :=
  60 + 32 * c.groupSize + 60 * c.recordGroup.length + 1

/-- `string_size` in `_monitor_on_req_stringify_json` -/
def jsonStringSize (c : ReportContext) : Nat :=
  12 + 59 * c.groupSize + 120 * c.recordGroup.length + 1

end ReportContext

/-- `eaf_monitor_stringify_rsp_t` -/
structure StringifyRsp where
  size : Nat
  data : Nat → Char

namespace ReportContext

/-- `_monitor_on_req_stringify_normal`: the response, in new memory. -/
def onReqStringifyNormal (c : ReportContext) (memory : Nat → Char) :
    Option StringifyRsp :=
  (c.stringifyNormalFill memory c.normalStringSize).map fun out =>
    ⟨out.writeSize, out.buffer⟩

/-- `_monitor_on_req_stringify_json`: the response, in new memory. -/
def onReqStringifyJson (c : ReportContext) (memory : Nat → Char) :
    Option StringifyRsp :=
  (c.stringifyJsonFill memory c.jsonStringSize).map fun out =>
    ⟨out.writeSize, out.buffer⟩

end ReportContext

end Powerpack
end Eaf
