import Eaf.Powerpack.ReportTexts

/-!
# The JSON report

The flat loop writes the text of a JSON value that has one member for every
group with records, and in it one for every service.
-/

namespace Eaf
namespace Powerpack

open Core FormattedText JsonText

namespace ReportContext

variable {c : ReportContext} {size : Nat} {s : ReportLoop} {r : ServiceRecord}
  {rs : List ServiceRecord} {text : List Char} {last gid : UInt32}

/-! ## The value -/

/-- A service in the report. -/
def serviceJson (c : ReportContext) (g : Nat) (r : ServiceRecord) : Json :=
  .object [
    ("id".toList, .number (decimal r.sid.toNat)),
    ("state".toList, .string (state2String (c.state r.sid))),
    ("recv".toList, .number (decimal r.flushRecv.toNat)),
    ("send".toList, .number (decimal r.flushSend.toNat)),
    ("msgq".toList, .number (decimal (c.msgq r).toNat)),
    ("time".toList, .number (decimal (useMsec r).toNat)),
    ("cpu".toList, .number (c.cpuText g r))]

/-- A group in the report, with the services among some records. -/
def groupJson (c : ReportContext) (records : List ServiceRecord) (gid : UInt32) :
    Json :=
  .object [
    ("gid".toList, .number (decimal gid.toNat)),
    ("tid".toList, .number (decimal (c.tid gid.toNat).toNat)),
    ("service".toList, .array
      ((records.filter fun r => r.gid = gid).map (c.serviceJson gid.toNat)))]

/-- The report: every group with records, with exactly its services. -/
def document (c : ReportContext) : Json :=
  .object [("group".toList, .array (c.gids.map (c.groupJson c.recordGroup)))]

/-! ## The text -/

theorem text_serviceJson (g : Nat) : (c.serviceJson g r).text = c.jsonService g r := by
  unfold serviceJson jsonService
  generalize decimal r.sid.toNat = sid
  generalize state2String (c.state r.sid) = state
  generalize decimal r.flushRecv.toNat = recv
  generalize decimal r.flushSend.toNat = send
  generalize decimal (c.msgq r).toNat = msgq
  generalize decimal (useMsec r).toNat = time
  generalize c.cpuText g r = cpu
  simp [Json.text, memberTexts, memberText, commas, quoted]

theorem text_groupJson (records : List ServiceRecord) :
    (c.groupJson records gid).text = c.jsonGroup gid ++
      commas ((records.filter fun r => r.gid = gid).map
        (c.jsonService gid.toNat)) ++ "]\x7d".toList := by
  have hservices : itemTexts ((records.filter fun r => r.gid = gid).map
      (c.serviceJson gid.toNat)) = (records.filter fun r => r.gid = gid).map
        (c.jsonService gid.toNat) := by
    rw [itemTexts_eq, List.map_map]
    exact List.map_congr_left fun r _ => text_serviceJson _
  unfold groupJson jsonGroup
  generalize decimal gid.toNat = number
  generalize decimal (c.tid gid.toNat).toNat = tid
  simp [Json.text, memberTexts, memberText, quoted, hservices]
  simp [commas]

theorem text_document : c.document.text = jsonHead ++
    commas (c.gids.map fun gid => (c.groupJson c.recordGroup gid).text) ++
      "]\x7d".toList := by
  have hgroups : itemTexts (c.gids.map (c.groupJson c.recordGroup)) =
      c.gids.map fun gid => (c.groupJson c.recordGroup gid).text := by
    rw [itemTexts_eq, List.map_map]
    rfl
  unfold document jsonHead
  simp [Json.text, memberTexts, memberText, quoted, hgroups]

/-- What is written for the records that follow one of the group `last`. -/
def jsonLines (c : ReportContext) : UInt32 → List ServiceRecord → List Char
  | _, [] => []
  | last, r :: rs =>
      (if last ≠ r.gid then jsonGroupEnd ++ c.jsonGroup r.gid else [',']) ++
        c.jsonService r.gid.toNat r ++ jsonLines c r.gid rs

/-- The records are in the order of their groups. -/
theorem gid_le_of_ordered {rs : List ServiceRecord}
    (h : rs.Pairwise fun r r' => cmpServiceRecordGroup r r' < 0) :
    rs.Pairwise fun r r' => r.gid ≤ r'.gid := by
  refine h.imp fun {r r'} hlt => ?_
  unfold cmpServiceRecordGroup at hlt
  by_contra hgt
  have hgt' := UInt32.not_le.mp hgt
  rw [if_neg (UInt32.not_lt.mpr (UInt32.le_of_lt hgt')), if_pos hgt'] at hlt
  omega

/-- The groups that follow the group `last`. -/
def gidsAfter : UInt32 → List ServiceRecord → List UInt32
  | _, [] => []
  | last, r :: rs =>
      if last ≠ r.gid then r.gid :: gidsAfter r.gid rs else gidsAfter last rs

theorem destutter_gids (last : UInt32) (rs : List ServiceRecord) :
    (rs.map ServiceRecord.gid).destutter' (· ≠ ·) last = last :: gidsAfter last rs := by
  induction rs generalizing last with
  | nil => rfl
  | cons r rs ih =>
      rw [List.map_cons, List.destutter'_cons, gidsAfter]
      split
      · rw [ih]
      · exact ih last

/-- They have greater numbers, in ascending order. -/
theorem gidsAfter_ascending (h : rs.Pairwise fun r r' => r.gid ≤ r'.gid)
    (hlast : ∀ r ∈ rs, last ≤ r.gid) : (last :: gidsAfter last rs).Pairwise (· < ·) := by
  induction rs generalizing last with
  | nil => exact List.pairwise_singleton _ _
  | cons r rs ih =>
      obtain ⟨hfirst, hrest⟩ := List.pairwise_cons.mp h
      rw [gidsAfter]
      by_cases hnew : last ≠ r.gid
      · have hlt : last < r.gid :=
          UInt32.lt_of_le_of_ne (hlast r List.mem_cons_self) hnew
        have htail := ih hrest hfirst
        rw [if_pos hnew, List.pairwise_cons]
        refine ⟨fun gid hgid => ?_, htail⟩
        rcases List.mem_cons.mp hgid with rfl | hlater
        · exact hlt
        · exact UInt32.lt_trans hlt ((List.pairwise_cons.mp htail).1 gid hlater)
      · rw [if_neg hnew]
        exact ih hrest fun r' hr' => hlast r' (List.mem_cons_of_mem _ hr')

/-- They are the groups of the records. -/
theorem mem_gidsAfter (last : UInt32) (rs : List ServiceRecord) :
    gid ∈ last :: gidsAfter last rs ↔ gid = last ∨ ∃ r ∈ rs, r.gid = gid := by
  induction rs generalizing last with
  | nil => simp [gidsAfter]
  | cons r rs ih =>
      rw [gidsAfter]
      by_cases hnew : last ≠ r.gid
      · rw [if_pos hnew, List.mem_cons, ih r.gid]
        simp [eq_comm]
      · rw [if_neg hnew, ih last]
        simp [not_not.mp hnew, eq_comm]

/-- What is written for a group that is no longer the last one does not depend
on the records before it. -/
theorem text_groupJson_cons (h : r.gid ≠ gid) :
    (c.groupJson (r :: rs) gid).text = (c.groupJson rs gid).text := by
  rw [text_groupJson, text_groupJson, List.filter_cons_of_neg (by simpa using h)]

/-- A group begins with its first record. -/
theorem text_groupJson_first : (c.groupJson (r :: rs) r.gid).text =
    c.jsonGroup r.gid ++ c.jsonService r.gid.toNat r ++
      ((rs.filter fun r' => r'.gid = r.gid).flatMap fun r' =>
        ',' :: c.jsonService r.gid.toNat r') ++ "]\x7d".toList := by
  rw [text_groupJson, List.filter_cons_of_pos (by simp), List.map_cons,
    commas_cons, List.flatMap_map]
  simp only [List.append_assoc]

/-- The groups after one that is still being written. -/
theorem flatMap_gidsAfter_cons {r : ServiceRecord}
    (hascending : (r.gid :: gidsAfter r.gid rs).Pairwise (· < ·)) :
    ((gidsAfter r.gid rs).flatMap fun gid => ',' :: (c.groupJson (r :: rs) gid).text) =
      (gidsAfter r.gid rs).flatMap fun gid => ',' :: (c.groupJson rs gid).text := by
  rw [List.flatMap_def, List.flatMap_def]
  refine congrArg List.flatten (List.map_congr_left fun gid hgid => ?_)
  have hlt := (List.pairwise_cons.mp hascending).1 gid hgid
  rw [text_groupJson_cons (UInt32.ne_of_lt hlt)]

theorem jsonGroupEnd_eq : jsonGroupEnd = "]\x7d".toList ++ [','] := by decide

/-- The flat text is that of the groups and their services. -/
theorem jsonLines_eq (h : rs.Pairwise fun r r' => r.gid ≤ r'.gid)
    (hlast : ∀ r ∈ rs, last ≤ r.gid) :
    c.jsonLines last rs ++ "]\x7d".toList =
      ((rs.filter fun r => r.gid = last).flatMap fun r =>
        ',' :: c.jsonService last.toNat r) ++ "]\x7d".toList ++
      (gidsAfter last rs).flatMap fun gid => ',' :: (c.groupJson rs gid).text := by
  induction rs generalizing last with
  | nil => simp [jsonLines, gidsAfter]
  | cons r rs ih =>
      obtain ⟨hfirst, hrest⟩ := List.pairwise_cons.mp h
      have hlater := flatMap_gidsAfter_cons (c := c) (gidsAfter_ascending hrest hfirst)
      by_cases hnew : last ≠ r.gid
      · -- no record of the old group is left
        have hnone : (r :: rs).filter (fun r => r.gid = last) = [] := by
          rw [List.filter_eq_nil_iff]
          intro r' hr' heq
          have hgid : r'.gid = last := of_decide_eq_true heq
          have hlt : last < r.gid :=
            UInt32.lt_of_le_of_ne (hlast r List.mem_cons_self) hnew
          have hge : r.gid ≤ r'.gid := by
            rcases List.mem_cons.mp hr' with rfl | hmem
            · exact UInt32.le_refl _
            · exact hfirst r' hmem
          rw [hgid] at hge
          exact UInt32.not_le.mpr hlt hge
        have hnext := ih hrest hfirst
        rw [hnone, List.flatMap_nil, List.nil_append, gidsAfter, if_pos hnew,
          List.flatMap_cons, text_groupJson_first, hlater, jsonLines, if_pos hnew,
          jsonGroupEnd_eq]
        simp only [List.append_assoc, List.cons_append, List.nil_append] at hnext ⊢
        rw [hnext]
      · have hsame := not_not.mp hnew
        subst hsame
        have hnext := ih hrest hfirst
        rw [List.filter_cons_of_pos (by simp), List.flatMap_cons, gidsAfter,
          if_neg hnew, hlater, jsonLines, if_neg hnew]
        simp only [List.append_assoc, List.cons_append, List.nil_append] at hnext ⊢
        rw [hnext]

/-- The whole report. -/
def jsonText (c : ReportContext) : List Char := c.document.text

theorem gids_cons (h : c.recordGroup = r :: rs) :
    c.gids = r.gid :: gidsAfter r.gid rs := by
  rw [gids, h, List.map_cons, List.destutter_cons', destutter_gids]

theorem jsonEnd_eq : jsonEnd = "]\x7d".toList ++ "]\x7d".toList := by decide

theorem jsonText_cons (h : c.recordGroup = r :: rs) :
    c.jsonText = jsonHead ++ c.jsonGroup r.gid ++ c.jsonService r.gid.toNat r ++
      c.jsonLines r.gid rs ++ jsonEnd := by
  have hordered := gid_le_of_ordered c.ordered
  rw [h] at hordered
  obtain ⟨hfirst, hrest⟩ := List.pairwise_cons.mp hordered
  have hlines := jsonLines_eq (c := c) hrest hfirst
  rw [jsonText, text_document, gids_cons h, h, List.map_cons, commas_cons,
    List.flatMap_map, flatMap_gidsAfter_cons (gidsAfter_ascending hrest hfirst),
    text_groupJson_first, jsonEnd_eq]
  simp only [List.append_assoc] at hlines ⊢
  rw [← List.append_assoc (c.jsonLines r.gid rs), hlines]
  simp only [List.append_assoc]

/-- The groups of the report, in ascending order. -/
theorem gids_spec (c : ReportContext) : c.gids.Pairwise (· < ·) ∧
    ∀ gid, gid ∈ c.gids ↔ ∃ r ∈ c.recordGroup, r.gid = gid := by
  cases hrecords : c.recordGroup with
  | nil => simp [gids, hrecords]
  | cons r rs =>
      have hordered := gid_le_of_ordered c.ordered
      rw [hrecords] at hordered
      obtain ⟨hfirst, hrest⟩ := List.pairwise_cons.mp hordered
      rw [gids_cons hrecords]
      refine ⟨gidsAfter_ascending hrest hfirst, fun gid => ?_⟩
      rw [mem_gidsAfter]
      simp [eq_comm]

/-! ## The loop -/

/-- The first record is written. -/
theorem jsonRecord_first {out : ReportOutput} (hnew : noGid ≠ r.gid) :
    c.jsonRecord size ⟨out, noGid, none, false⟩ r =
      some ⟨(out.put size (c.jsonGroup r.gid)).put size
        (c.jsonService r.gid.toNat r), r.gid, some r.gid.toNat, true⟩ := by
  simp only [jsonRecord, if_pos hnew]
  rfl

/-- A record is written after another one. -/
theorem jsonRecord_next (hgroup : s.gRecord = some s.lastGid.toNat)
    (hflag : s.flagWriteServiceEnd = true) (hwrote : s.out.Wrote size text)
    (hsize : 0 < size) :
    ∃ s', c.jsonRecord size s r = some s' ∧ s'.lastGid = r.gid ∧
      s'.gRecord = some r.gid.toNat ∧ s'.flagWriteServiceEnd = true ∧
      s'.out.Wrote size (text ++ ((if s.lastGid ≠ r.gid then
        jsonGroupEnd ++ c.jsonGroup r.gid else [',']) ++
          c.jsonService r.gid.toNat r)) := by
  by_cases hnew : s.lastGid ≠ r.gid
  · refine ⟨_, by simp only [jsonRecord, if_pos hnew, hgroup]; rfl, rfl, rfl, rfl, ?_⟩
    rw [if_pos hnew, ← List.append_assoc, ← List.append_assoc]
    exact ((hwrote.put hsize _).put hsize _).put hsize _
  · have hsame := not_not.mp hnew
    have hmark : s.gRecord = some r.gid.toNat := by rw [hgroup, hsame]
    refine ⟨{ s with
      out := (s.out.put size [',']).put size (c.jsonService r.gid.toNat r) },
      ?_, hsame, hmark, hflag, ?_⟩
    · simp only [jsonRecord, if_neg hnew, hmark, hflag, if_true]
    · rw [if_neg hnew, ← List.append_assoc]
      exact (hwrote.put hsize _).put hsize _

theorem foldlM_jsonRecord (c : ReportContext) (rs : List ServiceRecord)
    (hgroup : s.gRecord = some s.lastGid.toNat)
    (hflag : s.flagWriteServiceEnd = true) (hwrote : s.out.Wrote size text)
    (hsize : 0 < size) :
    ∃ s', rs.foldlM (c.jsonRecord size) s = some s' ∧
      s'.out.Wrote size (text ++ c.jsonLines s.lastGid rs) := by
  induction rs generalizing s text with
  | nil => exact ⟨s, rfl, by rw [jsonLines, List.append_nil]; exact hwrote⟩
  | cons r rs ih =>
      obtain ⟨s', hstep, hlast, hgroup', hflag', hwrote'⟩ :=
        jsonRecord_next (c := c) (r := r) hgroup hflag hwrote hsize
      obtain ⟨s'', hrest, hwrote''⟩ := ih (s := s')
        (by rw [hlast]; exact hgroup') hflag' hwrote'
      refine ⟨s'', ?_, ?_⟩
      · rw [List.foldlM_cons, hstep]
        exact hrest
      · rw [hlast, List.append_assoc] at hwrote''
        exact hwrote''

/-- A first record in the group with the number of no group uses a `NULL`
pointer. -/
theorem stringifyJsonFill_none {buffer : Nat → Char} (h : c.startsAtNoGid = true) :
    c.stringifyJsonFill buffer size = none := by
  unfold stringifyJsonFill
  cases hrecords : c.recordGroup with
  | nil =>
      rw [startsAtNoGid, hrecords] at h
      cases h
  | cons r rs =>
      have hgid := (startsAtNoGid_cons hrecords).mp h
      have hstep : c.jsonRecord size
          ⟨ReportOutput.put ⟨buffer, 0, 0⟩ size jsonHead, noGid, none, false⟩ r =
          none := by
        simp only [jsonRecord, hgid, ne_eq, not_true_eq_false, if_false]
      simp only [List.foldlM_cons, hstep]
      rfl

theorem stringifyJsonFill_some (c : ReportContext) (buffer : Nat → Char)
    (hsize : 0 < size) (h : c.startsAtNoGid = false) (hne : c.recordGroup ≠ []) :
    ∃ out, c.stringifyJsonFill buffer size = some out ∧
      out.Wrote size c.jsonText := by
  obtain ⟨r, rs, hrecords⟩ := List.exists_cons_of_ne_nil hne
  have hnew : noGid ≠ r.gid := fun heq => by
    rw [(startsAtNoGid_cons hrecords).mpr heq.symm] at h
    cases h
  obtain ⟨s, hrun, hwrote⟩ := c.foldlM_jsonRecord rs
    (s := ⟨((ReportOutput.put ⟨buffer, 0, 0⟩ size jsonHead).put size
      (c.jsonGroup r.gid)).put size (c.jsonService r.gid.toNat r), r.gid,
      some r.gid.toNat, true⟩) rfl rfl
    ((((ReportOutput.wrote_nil size buffer).put hsize jsonHead).put hsize _).put
      hsize _) hsize
  refine ⟨s.out.put size jsonEnd, ?_, ?_⟩
  · unfold stringifyJsonFill
    rw [hrecords]
    simp only [List.foldlM_cons, jsonRecord_first hnew]
    exact congrArg (Option.map fun s : ReportLoop => s.out.put size jsonEnd) hrun
  · rw [jsonText_cons hrecords]
    exact hwrote.put hsize jsonEnd

/-! ## Its length -/

theorem length_jsonGroup (c : ReportContext) (gid : UInt32) :
    (c.jsonGroup gid).length ≤ 56 := by
  have hgid := length_decimal_le_ten gid
  have htid := length_decimal_le_twenty (c.tid gid.toNat)
  unfold jsonGroup
  generalize decimal gid.toNat = number at hgid ⊢
  generalize decimal (c.tid gid.toNat).toNat = tid at htid ⊢
  have hgidName : "\x7b\"gid\":".toList.length = 7 := by decide
  have htidName : ",\"tid\":".toList.length = 7 := by decide
  have hservice : ",\"service\":[".toList.length = 12 := by decide
  simp only [List.length_append, hgidName, htidName, hservice]
  omega

theorem length_jsonService (g : Nat) : (c.jsonService g r).length ≤ 119 := by
  have hid := length_decimal_le_ten r.sid
  have hstate := length_state2String (c.state r.sid)
  have hrecv := length_decimal_le_ten r.flushRecv
  have hsend := length_decimal_le_ten r.flushSend
  have hmsgq := length_decimal_le_ten (c.msgq r)
  have htime := length_decimal_le_ten (useMsec r)
  have hcpu := c.length_cpuText g r
  have hnames : "\x7b\"id\":".toList.length = 6 ∧ ",\"state\":\"".toList.length = 10 ∧
      "\",\"recv\":".toList.length = 9 ∧ ",\"send\":".toList.length = 8 ∧
      ",\"msgq\":".toList.length = 8 ∧ ",\"time\":".toList.length = 8 ∧
      ",\"cpu\":".toList.length = 7 ∧ "\x7d".toList.length = 1 := by decide
  obtain ⟨hidName, hstateName, hrecvName, hsendName, hmsgqName, htimeName, hcpuName,
    hend⟩ := hnames
  unfold jsonService
  generalize decimal r.sid.toNat = sid at hid ⊢
  generalize state2String (c.state r.sid) = state at hstate ⊢
  generalize decimal r.flushRecv.toNat = recv at hrecv ⊢
  generalize decimal r.flushSend.toNat = send at hsend ⊢
  generalize decimal (c.msgq r).toNat = msgq at hmsgq ⊢
  generalize decimal (useMsec r).toNat = time at htime ⊢
  generalize c.cpuText g r = cpu at hcpu ⊢
  simp only [List.length_append, hidName, hstateName, hrecvName, hsendName,
    hmsgqName, htimeName, hcpuName, hend]
  omega

/-- A record needs no more than 120 characters, and 58 more where a group
begins. -/
theorem length_jsonLines (last : UInt32) (rs : List ServiceRecord) :
    (c.jsonLines last rs).length ≤
      120 * rs.length + 58 * (gidsAfter last rs).length := by
  induction rs generalizing last with
  | nil => exact Nat.zero_le _
  | cons r rs ih =>
      have hservice := c.length_jsonService (r := r) r.gid.toNat
      rw [jsonLines, gidsAfter]
      simp only [List.length_append, List.length_cons]
      by_cases hnew : last ≠ r.gid
      · have hrest := ih r.gid
        have hgroup := c.length_jsonGroup r.gid
        have hend : jsonGroupEnd.length = 3 := by decide
        rw [if_pos hnew, if_pos hnew, List.length_append, List.length_cons, hend]
        omega
      · have hrest := ih last
        rw [if_neg hnew, if_neg hnew, ← not_not.mp hnew, List.length_singleton]
        rw [← not_not.mp hnew] at hservice
        omega

/-- There are no more groups with records than groups. -/
theorem length_gids (c : ReportContext) : c.gids.length ≤ c.groupSize := by
  obtain ⟨hascending, hmem⟩ := c.gids_spec
  have hnodup : (c.gids.map UInt32.toNat).Nodup :=
    List.Pairwise.map _ (fun a b hlt => Nat.ne_of_lt (UInt32.lt_iff_toNat_lt.mp hlt))
      hascending
  have hsub : c.gids.map UInt32.toNat ⊆ List.range c.groupSize := by
    intro g hg
    obtain ⟨gid, hgid, rfl⟩ := List.mem_map.mp hg
    obtain ⟨r, hr, rfl⟩ := (hmem gid).mp hgid
    exact List.mem_range.mpr (c.known r hr)
  have hle := (List.subperm_of_subset hnodup hsub).length_le
  rw [List.length_map, List.length_range] at hle
  exact hle

/-- The report fits into the memory that is computed for it. -/
theorem length_jsonText (hne : c.recordGroup ≠ []) :
    c.jsonText.length + 1 ≤ c.jsonStringSize := by
  obtain ⟨r, rs, hrecords⟩ := List.exists_cons_of_ne_nil hne
  have hlines := c.length_jsonLines r.gid rs
  have hgroup := c.length_jsonGroup r.gid
  have hservice := c.length_jsonService (r := r) r.gid.toNat
  have hgids := c.length_gids
  have hhead : jsonHead.length = 10 := by decide
  have hend : jsonEnd.length = 4 := by decide
  rw [gids_cons hrecords, List.length_cons] at hgids
  rw [jsonText_cons hrecords, jsonStringSize, hrecords]
  simp only [List.length_append, List.length_cons, hhead, hend]
  omega

/-! ## It is well formed -/

theorem isInt_decimal (n : Nat) : IsInt (decimal n) := by
  refine ⟨Nat.toDigits_ne_nil, fun c hc => isDigit_of_mem_decimal hc, fun hzero => ?_⟩
  rcases Nat.eq_zero_or_pos n with rfl | hpos
  · rfl
  · exact absurd hzero (head_decimal hpos)

theorem isNumber_cpuText (c : ReportContext) (g : Nat) (r : ServiceRecord) :
    IsNumber (c.cpuText g r) := by
  refine .inr ⟨_, _, rfl, isInt_decimal _, Nat.toDigits_ne_nil, fun ch hch => ?_⟩
  exact isDigit_of_mem_decimal hch

theorem wellFormed_serviceJson (g : Nat) : (c.serviceJson g r).WellFormed := by
  have hstate : IsPlain (state2String (c.state r.sid)) := by
    cases c.state r.sid <;> decide +kernel
  unfold serviceJson
  refine .object ?_ ?_ ?_
  · simp only [List.forall_mem_cons, List.not_mem_nil, false_implies, implies_true,
      and_true]
    decide +kernel
  · simp only [List.map_cons, List.map_nil]
    decide
  · simp only [List.forall_mem_cons, List.not_mem_nil, false_implies, implies_true,
      and_true]
    exact ⟨.number (.inl (isInt_decimal _)), .string hstate,
      .number (.inl (isInt_decimal _)), .number (.inl (isInt_decimal _)),
      .number (.inl (isInt_decimal _)), .number (.inl (isInt_decimal _)),
      .number (isNumber_cpuText c g r)⟩

theorem wellFormed_groupJson (records : List ServiceRecord) :
    (c.groupJson records gid).WellFormed := by
  unfold groupJson
  refine .object ?_ ?_ ?_
  · simp only [List.forall_mem_cons, List.not_mem_nil, false_implies, implies_true,
      and_true]
    decide +kernel
  · simp only [List.map_cons, List.map_nil]
    decide
  · simp only [List.forall_mem_cons, List.not_mem_nil, false_implies, implies_true,
      and_true]
    refine ⟨.number (.inl (isInt_decimal _)), .number (.inl (isInt_decimal _)),
      .array fun item hitem => ?_⟩
    obtain ⟨r, -, rfl⟩ := List.mem_map.mp hitem
    exact wellFormed_serviceJson _

theorem wellFormed_document (c : ReportContext) : c.document.WellFormed := by
  unfold document
  refine .object ?_ ?_ ?_
  · simp only [List.forall_mem_cons, List.not_mem_nil, false_implies, implies_true,
      and_true]
    decide +kernel
  · simp only [List.map_cons, List.map_nil]
    decide
  · simp only [List.forall_mem_cons, List.not_mem_nil, false_implies, implies_true,
      and_true]
    refine .array fun item hitem => ?_
    obtain ⟨gid, -, rfl⟩ := List.mem_map.mp hitem
    exact wellFormed_groupJson _

/-! ## There is no NUL in it -/

theorem nul_not_mem_jsonGroup : nul ∉ c.jsonGroup gid := by
  unfold jsonGroup
  simp only [List.mem_append, nul_not_mem_decimal, or_false]
  decide

theorem nul_not_mem_jsonService (g : Nat) : nul ∉ c.jsonService g r := by
  unfold jsonService
  simp only [List.mem_append, nul_not_mem_decimal, nul_not_mem_state2String,
    nul_not_mem_cpuText, or_false]
  decide

theorem nul_not_mem_jsonLines : nul ∉ c.jsonLines last rs := by
  induction rs generalizing last with
  | nil => exact List.not_mem_nil
  | cons r rs ih =>
      rw [jsonLines, List.mem_append, List.mem_append, not_or, not_or]
      refine ⟨⟨?_, nul_not_mem_jsonService _⟩, ih⟩
      split
      · rw [List.mem_append, not_or]
        exact ⟨by decide, nul_not_mem_jsonGroup⟩
      · decide

theorem nul_not_mem_jsonText (hne : c.recordGroup ≠ []) : nul ∉ c.jsonText := by
  obtain ⟨r, rs, hrecords⟩ := List.exists_cons_of_ne_nil hne
  rw [jsonText_cons hrecords]
  simp only [List.mem_append, not_or]
  exact ⟨⟨⟨⟨by decide, nul_not_mem_jsonGroup⟩, nul_not_mem_jsonService _⟩,
    nul_not_mem_jsonLines⟩, by decide⟩

end ReportContext

end Powerpack
end Eaf
