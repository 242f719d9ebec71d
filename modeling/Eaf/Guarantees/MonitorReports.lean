import Eaf.Powerpack.JsonReport

/-!
# The reports of the monitor fit into their messages

The memory for a report is computed from a template before the report is
written.
-/

namespace Eaf
namespace Powerpack

open Core FormattedText

/-- The response holds the whole text, within the memory that was computed for
it, and gives its length. -/
def Reports (rsp : Option StringifyRsp) (text : List Char) (stringSize : Nat) :
    Prop :=
  ∃ r, rsp = some r ∧ text.length + 1 ≤ stringSize ∧
    (∀ i < text.length, r.data i = text.getD i nul) ∧ Strlen r.data r.size

namespace ReportContext

variable {c : ReportContext} {size : Nat} {text : List Char} {out : ReportOutput}

/-- What was written is a whole report if and only if it fits. -/
theorem reports_iff (h : out.Wrote size text) (hne : text ≠ []) (hnul : nul ∉ text)
    (hsize : 0 < size) : Reports (some ⟨out.writeSize, out.buffer⟩) text size ↔
      text.length + 1 ≤ size := by
  have hstrlen := h.written.strlen_iff hne hnul hsize
  constructor
  · rintro ⟨r, -, hfits, -⟩
    exact hfits
  · intro hfits
    refine ⟨_, rfl, hfits, fun i hi => h.written.shown i (by omega), ?_⟩
    rw [h.length]
    exact hstrlen.mpr hfits

/-! ## The table -/

/-- The table is written as a whole if and only if its first record is not in
the group with the number of no group, and the lines of the groups leave enough
room for the columns that are wider than in the template. -/
theorem normal_report_iff (c : ReportContext) (memory : Nat → Char) :
    Reports (c.onReqStringifyNormal memory) c.normalText c.normalStringSize ↔
      c.startsAtNoGid = false ∧
      Ledger.total c.recordGroup c.overrun + Ledger.total c.gids c.groupWidth ≤
        32 * c.groupSize := by
  have hsize : 0 < c.normalStringSize := Nat.succ_pos _
  cases hstart : c.startsAtNoGid with
  | true =>
      rw [onReqStringifyNormal, stringifyNormalFill_none hstart]
      constructor
      · rintro ⟨r, hr, -⟩
        cases hr
      · rintro ⟨h, -⟩
        cases h
  | false =>
      obtain ⟨out, hfill, hwrote⟩ := c.stringifyNormalFill_some
        memory hsize hstart
      have hlen := length_normalText hstart
      have hne : c.normalText ≠ [] := fun hnil => by
        rw [hnil, List.length_nil] at hlen
        omega
      rw [onReqStringifyNormal, hfill]
      show Reports (some ⟨out.writeSize, out.buffer⟩) _ _ ↔ _
      rw [reports_iff hwrote hne nul_not_mem_normalText hsize, hlen, normalStringSize]
      constructor
      · intro hfits
        exact ⟨rfl, by omega⟩
      · rintro ⟨-, hroom⟩
        omega

/-- Records with different ids are found by their ids. -/
theorem mem_iff_find {records : List ServiceRecord}
    (h : (records.map ServiceRecord.sid).Nodup) (r : ServiceRecord) :
    r ∈ records ↔ (records.find? fun r' => r'.sid = r.sid) = some r := by
  constructor
  · intro hr
    induction records with
    | nil => cases hr
    | cons r' rest ih =>
        rw [List.map_cons, List.nodup_cons] at h
        rw [List.find?_cons]
        rcases List.mem_cons.mp hr with rfl | hrest
        · simp
        · have hne : r'.sid ≠ r.sid := fun heq =>
            h.1 (heq ▸ List.mem_map_of_mem hrest)
          simp only [hne, decide_false]
          exact ih h.2 hrest
  · exact List.mem_of_find?_eq_some

/-- Records for the services 1 to 6 of group 0, which have sent and received as
many messages as can be counted. -/
def busyRecords : List ServiceRecord :=
  (List.range 6).map fun i =>
    ⟨0, UInt32.ofNat (i + 1), 4294967295, 4294967295, 0, 0, 0, 0⟩

/-- One group with a thread id of seven digits. -/
def busyContext : ReportContext where
  monitor := ⟨fun sid => busyRecords.find? fun r => r.sid = sid, fun _ => 0,
    fun _ => none⟩
  recordGroup := busyRecords
  groupSize := 1
  tid := fun _ => 1234567
  state := fun _ => .idle
  queueSize := fun _ => 0
  complete := mem_iff_find (by decide)
  ordered := by decide
  known := by decide

/-- Its table does not fit. -/
theorem normal_report_truncated :
    ¬ Reports (busyContext.onReqStringifyNormal fun _ => nul)
      busyContext.normalText busyContext.normalStringSize := by
  rintro ⟨r, -, hfits, -⟩
  rw [length_normalText (by decide)] at hfits
  exact absurd hfits (by decide +kernel)

/-! ## The JSON report -/

/-- The response is the whole text of a well-formed JSON value, which has every
group with records once and in it exactly the services of the group; both are in
ascending order. -/
def JsonReports (c : ReportContext) (rsp : Option StringifyRsp) : Prop :=
  Reports rsp c.document.text c.jsonStringSize ∧ c.document.WellFormed ∧
  c.gids.Pairwise (· < ·) ∧
  (∀ gid, gid ∈ c.gids ↔ ∃ r ∈ c.recordGroup, r.gid = gid) ∧
  ∀ gid, ((c.recordGroup.filter fun r => r.gid = gid).map
    ServiceRecord.sid).Pairwise (· < ·)

/-- The services of a group are in order. -/
theorem services_ascending (c : ReportContext) (gid : UInt32) :
    ((c.recordGroup.filter fun r => r.gid = gid).map
      ServiceRecord.sid).Pairwise (· < ·) := by
  rw [List.pairwise_map]
  refine (c.ordered.filter _).imp_of_mem fun {r r'} hr hr' hlt => ?_
  have hgid : r.gid = gid := of_decide_eq_true (List.mem_filter.mp hr).2
  have hgid' : r'.gid = gid := of_decide_eq_true (List.mem_filter.mp hr').2
  unfold cmpServiceRecordGroup at hlt
  rw [hgid, hgid', if_neg (UInt32.lt_irrefl gid), if_neg (UInt32.lt_irrefl gid)] at hlt
  by_contra hge
  rw [if_neg hge] at hlt
  split at hlt <;> omega

/-- With at least one record, the JSON report is whole and describes the groups
and services if and only if its first record is not in the group with the number
of no group. -/
theorem json_report_iff (c : ReportContext) (memory : Nat → Char)
    (hne : c.recordGroup ≠ []) :
    JsonReports c (c.onReqStringifyJson memory) ↔ c.startsAtNoGid = false := by
  have hsize : 0 < c.jsonStringSize := Nat.succ_pos _
  cases hstart : c.startsAtNoGid with
  | true =>
      rw [onReqStringifyJson, stringifyJsonFill_none hstart]
      constructor
      · rintro ⟨⟨r, hr, -⟩, -⟩
        cases hr
      · intro h
        cases h
  | false =>
      refine iff_of_true ?_ rfl
      obtain ⟨out, hfill, hwrote⟩ := c.stringifyJsonFill_some
        memory hsize hstart hne
      obtain ⟨hascending, hmem⟩ := c.gids_spec
      have hfits := length_jsonText hne
      have htext : c.jsonText ≠ [] := by
        obtain ⟨r, rs, hrecords⟩ := List.exists_cons_of_ne_nil hne
        intro hnil
        rw [jsonText_cons hrecords] at hnil
        simp only [List.append_eq_nil_iff] at hnil
        exact absurd hnil.1.1.1.1 (by decide)
      refine ⟨?_, c.wellFormed_document, hascending, hmem, c.services_ascending⟩
      rw [onReqStringifyJson, hfill]
      exact (reports_iff hwrote htext (nul_not_mem_jsonText hne) hsize).mpr hfits

/-- With fewer than `2 ^ 32` groups no group has the number of no group. -/
theorem startsAtNoGid_of_lt (c : ReportContext)
    (hgroups : c.groupSize < 2 ^ 32) : c.startsAtNoGid = false := by
  cases hrecords : c.recordGroup with
  | nil => rw [startsAtNoGid, hrecords]; rfl
  | cons r rs =>
      have hlt := c.known r (by simp [hrecords])
      rw [← Bool.not_eq_true, startsAtNoGid_cons hrecords]
      intro hgid
      rw [hgid, show noGid.toNat = 4294967295 from rfl] at hlt
      omega

/-- **The JSON report is right.**  With at least one record the report is whole
and describes the groups and services.  A `gid` is a `uint32_t` and each group
runs a thread of its own, so the platform has fewer than `2 ^ 32` groups
(`hgroups`). -/
theorem json_report_right (c : ReportContext) (memory : Nat → Char)
    (hne : c.recordGroup ≠ []) (hgroups : c.groupSize < 2 ^ 32) :
    JsonReports c (c.onReqStringifyJson memory) :=
  (c.json_report_iff memory hne).mpr (c.startsAtNoGid_of_lt hgroups)

/-- The report about six busy services is whole. -/
theorem json_report_busy :
    JsonReports busyContext (busyContext.onReqStringifyJson fun _ => nul) :=
  json_report_right busyContext (fun _ => nul) (by decide) (by decide)

end ReportContext

end Powerpack
end Eaf
