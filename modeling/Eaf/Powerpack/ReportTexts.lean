import Eaf.Foundation.Ledger
import Eaf.Powerpack.MonitorReport

/-!
# The texts of the reports

The loops write their reports from the first to the last record, unless the
first record is in the group with the number that stands for no group.
-/

namespace Eaf
namespace Powerpack

open Core FormattedText Ledger

/-! ## What has been written -/

/-- The text has been written, as far as there was room, and counted. -/
structure ReportOutput.Wrote (size : Nat) (o : ReportOutput) (text : List Char) :
    Prop where
  written : Written size o.buffer o.token text
  length : o.writeSize = text.length

theorem ReportOutput.wrote_nil (size : Nat) (buffer : Nat → Char) :
    Wrote size ⟨buffer, 0, 0⟩ [] :=
  ⟨.nil, rfl⟩

theorem ReportOutput.Wrote.put {size : Nat} {o : ReportOutput} {text : List Char}
    (h : o.Wrote size text) (hsize : 0 < size) (more : List Char) :
    (o.put size more).Wrote size (text ++ more) where
  written := h.written.apply hsize
  length := by
    rw [List.length_append, ← h.length]
    rfl

namespace ReportContext

variable {c : ReportContext} {size : Nat} {s : ReportLoop} {r : ServiceRecord}
  {rs : List ServiceRecord} {text : List Char} {last gid : UInt32}

/-- The numbers of the groups with records. -/
def gids (c : ReportContext) : List UInt32 :=
  (c.recordGroup.map ServiceRecord.gid).destutter (· ≠ ·)

/-! ## The table -/

/-- The lines for the records that follow one of the group `last`. -/
def normalLines (c : ReportContext) : UInt32 → List ServiceRecord → List Char
  | _, [] => []
  | last, r :: rs =>
      (if last ≠ r.gid then c.normalGroup r.gid else []) ++
        c.normalService r.gid.toNat r ++ normalLines c r.gid rs

/-- The whole table. -/
def normalText (c : ReportContext) : List Char :=
  normalHead ++ c.normalLines noGid c.recordGroup

/-- A record is written, with its group before it where that is new. -/
theorem normalRecord_eq (h : s.lastGid = r.gid → s.gRecord = some r.gid.toNat)
    (hwrote : s.out.Wrote size text) (hsize : 0 < size) :
    ∃ s', c.normalRecord size s r = some s' ∧ s'.lastGid = r.gid ∧
      s'.gRecord = some r.gid.toNat ∧
      s'.out.Wrote size (text ++ ((if s.lastGid ≠ r.gid then c.normalGroup r.gid
        else []) ++ c.normalService r.gid.toNat r)) := by
  by_cases hnew : s.lastGid ≠ r.gid
  · refine ⟨_, by simp only [normalRecord, if_pos hnew]; rfl, rfl, rfl, ?_⟩
    rw [if_pos hnew, ← List.append_assoc]
    exact (hwrote.put hsize _).put hsize _
  · have hsame := not_not.mp hnew
    refine ⟨{ s with out := s.out.put size (c.normalService r.gid.toNat r) }, ?_,
      hsame, h hsame, ?_⟩
    · simp only [normalRecord, if_neg hnew, h hsame]
    · rw [if_neg hnew, List.nil_append]
      exact hwrote.put hsize _

/-- The loop writes the lines of the records. -/
theorem foldlM_normalRecord
    (h : ∀ r ∈ rs.head?, s.lastGid = r.gid → s.gRecord = some r.gid.toNat)
    (hwrote : s.out.Wrote size text) (hsize : 0 < size) :
    ∃ s', rs.foldlM (c.normalRecord size) s = some s' ∧
      s'.out.Wrote size (text ++ c.normalLines s.lastGid rs) := by
  induction rs generalizing s text with
  | nil => exact ⟨s, rfl, by rw [normalLines, List.append_nil]; exact hwrote⟩
  | cons r rs ih =>
      obtain ⟨s', hstep, hlast, hgroup, hwrote'⟩ :=
        normalRecord_eq (c := c) (h r rfl) hwrote hsize
      obtain ⟨s'', hrest, hwrote''⟩ := ih (s := s')
        (fun r' _ heq => by rw [hgroup, ← hlast, heq]) hwrote'
      refine ⟨s'', ?_, ?_⟩
      · rw [List.foldlM_cons, hstep]
        exact hrest
      · rw [hlast, List.append_assoc] at hwrote''
        exact hwrote''

/-- The first record is in the group with the number that stands for none. -/
def startsAtNoGid (c : ReportContext) : Bool :=
  c.recordGroup.head?.any fun r => r.gid = noGid

theorem startsAtNoGid_cons (h : c.recordGroup = r :: rs) :
    c.startsAtNoGid = true ↔ r.gid = noGid := by
  rw [startsAtNoGid, h]
  exact decide_eq_true_iff

/-- Such a first record uses a `NULL` pointer. -/
theorem stringifyNormalFill_none {buffer : Nat → Char} (h : c.startsAtNoGid = true) :
    c.stringifyNormalFill buffer size = none := by
  unfold stringifyNormalFill
  cases hrecords : c.recordGroup with
  | nil =>
      rw [startsAtNoGid, hrecords] at h
      cases h
  | cons r rs =>
      have hgid := (startsAtNoGid_cons hrecords).mp h
      have hstep : c.normalRecord size
          ⟨ReportOutput.put ⟨buffer, 0, 0⟩ size normalHead, noGid, none, false⟩ r =
          none := by
        simp only [normalRecord, hgid, ne_eq, not_true_eq_false, if_false]
      simp only [List.foldlM_cons, hstep]
      rfl

theorem stringifyNormalFill_some (c : ReportContext) (buffer : Nat → Char)
    (hsize : 0 < size)
    (h : c.startsAtNoGid = false) :
    ∃ out, c.stringifyNormalFill buffer size = some out ∧
      out.Wrote size c.normalText := by
  have hfirst : ∀ r ∈ c.recordGroup.head?, noGid = r.gid →
      none = some r.gid.toNat := by
    intro r hr heq
    rw [Option.mem_def] at hr
    rw [startsAtNoGid, hr, Option.any_some, decide_eq_false_iff_not] at h
    exact absurd heq.symm h
  obtain ⟨s, hrun, hwrote⟩ := foldlM_normalRecord (c := c)
    (s := ⟨ReportOutput.put ⟨buffer, 0, 0⟩ size normalHead, noGid, none, false⟩)
    hfirst ((ReportOutput.wrote_nil size buffer).put hsize normalHead) hsize
  exact ⟨s.out, congrArg (Option.map ReportLoop.out) hrun, hwrote⟩

/-! ### Its length -/

/-- By how much the columns of a record are wider than in the template. -/
def overrun (c : ReportContext) (r : ServiceRecord) : Nat :=
  ((decimal r.flushRecv.toNat).length - 8) + ((decimal r.flushSend.toNat).length - 8) +
    ((decimal (c.msgq r).toNat).length - 6) + ((decimal (useMsec r).toNat).length - 6)

/-- The length of the line of a group. -/
def groupWidth (c : ReportContext) (gid : UInt32) : Nat :=
  (decimal gid.toNat).length + (decimal (c.tid gid.toNat).toNat).length + 2

theorem length_state2String (state : ServiceState) :
    (state2String state).length ≤ 7 := by
  cases state <;> decide

theorem calculateCpu_le (use total : UInt64) : calculateCpu use total ≤ 100 := by
  unfold calculateCpu
  simp only
  split
  · norm_num
  · split
    · exact le_refl _
    · next hle => exact not_lt.mp hle

theorem length_cpuText (c : ReportContext) (g : Nat) (r : ServiceRecord) :
    (c.cpuText g r).length ≤ 5 := by
  rw [cpuText]
  exact length_oneDecimal_le (calculateCpu_le _ _)

theorem length_normalGroup : (c.normalGroup gid).length = c.groupWidth gid := by
  simp only [normalGroup, groupWidth, List.length_append, List.length_cons,
    List.length_nil]
  omega

theorem length_normalService (g : Nat) :
    (c.normalService g r).length = 60 + c.overrun r := by
  have hsid := length_hexadecimal_le_eight r.sid
  have hstate := length_state2String (c.state r.sid)
  have hcpu := c.length_cpuText g r
  have hstart : "|-0x".toList.length = 4 := by decide
  have hgap : "  ".toList.length = 2 := by decide
  -- the sum is kept from being computed while the columns are counted
  generalize hsum : 60 + c.overrun r = sum
  rw [overrun] at hsum
  unfold normalService
  simp only [List.length_append, List.length_cons, List.length_nil,
    List.length_leftpad, List.length_rightpad]
  omega

/-- The length of the lines, with the line of the group before. -/
theorem length_normalLines (last : UInt32) (rs : List ServiceRecord) :
    c.groupWidth last + (c.normalLines last rs).length =
      60 * rs.length + total rs c.overrun +
        total ((rs.map ServiceRecord.gid).destutter' (· ≠ ·) last)
          c.groupWidth := by
  induction rs generalizing last with
  | nil => simp [normalLines]
  | cons r rs ih =>
      have hrest := ih r.gid
      rw [normalLines, List.map_cons, List.destutter'_cons]
      simp only [List.length_append, length_normalService, List.length_cons, total_cons]
      by_cases hnew : last ≠ r.gid
      · rw [if_pos hnew, if_pos hnew, total_cons, length_normalGroup]
        omega
      · rw [if_neg hnew, if_neg hnew, not_not.mp hnew, List.length_nil]
        omega

theorem length_normalText (h : c.startsAtNoGid = false) : c.normalText.length =
    60 + 60 * c.recordGroup.length + total c.recordGroup c.overrun +
      total c.gids c.groupWidth := by
  have hhead : normalHead.length = 60 := by decide
  rw [normalText, gids, List.length_append, hhead]
  cases hrecords : c.recordGroup with
  | nil => rfl
  | cons r rs =>
      have hnew : noGid ≠ r.gid := fun heq => by
        rw [(startsAtNoGid_cons hrecords).mpr heq.symm] at h
        cases h
      have hrest := c.length_normalLines r.gid rs
      rw [normalLines, if_pos hnew, List.map_cons, List.destutter_cons']
      simp only [List.length_append, length_normalGroup, length_normalService,
        List.length_cons, total_cons]
      omega

/-! ## There is no NUL in the texts -/

theorem nul_not_mem_toDigits {b n : Nat} (hb : 1 < b) : nul ∉ Nat.toDigits b n := by
  intro h
  obtain ⟨d, hd⟩ := digitChar_of_mem_toDigits hb h
  by_cases hsmall : d < 16
  · interval_cases d <;> exact absurd hd (by decide)
  · have hother : Nat.digitChar d = '*' := by
      simp only [Nat.digitChar]
      simp (disch := omega) only [if_neg]
    rw [hother] at hd
    exact absurd hd (by decide)

@[simp] theorem nul_not_mem_decimal (n : Nat) : nul ∉ decimal n :=
  nul_not_mem_toDigits (by omega)

@[simp] theorem nul_not_mem_hexadecimal (n : Nat) : nul ∉ hexadecimal n :=
  nul_not_mem_toDigits (by omega)

@[simp] theorem nul_not_mem_state2String (state : ServiceState) :
    nul ∉ state2String state := by
  cases state <;> decide

@[simp] theorem nul_not_mem_cpuText (g : Nat) : nul ∉ c.cpuText g r := by
  unfold cpuText oneDecimal
  rw [List.mem_append, List.mem_cons, not_or, not_or]
  exact ⟨nul_not_mem_decimal _, by decide, nul_not_mem_decimal _⟩

theorem nul_not_mem_leftpad {width : Nat} {fill : Char} {chars : List Char}
    (hfill : fill ≠ nul) (h : nul ∉ chars) : nul ∉ chars.leftpad width fill := by
  rw [List.leftpad, List.mem_append, List.mem_replicate, not_or]
  exact ⟨fun hmem => hfill hmem.2.symm, h⟩

theorem nul_not_mem_rightpad {width : Nat} {fill : Char} {chars : List Char}
    (hfill : fill ≠ nul) (h : nul ∉ chars) : nul ∉ chars.rightpad width fill := by
  rw [List.rightpad, List.mem_append, List.mem_replicate, not_or]
  exact ⟨h, fun hmem => hfill hmem.2.symm⟩

theorem nul_not_mem_normalGroup : nul ∉ c.normalGroup gid := by
  unfold normalGroup
  simp only [List.mem_append, List.mem_cons, nul_not_mem_decimal, List.not_mem_nil,
    or_false, false_or]
  decide

theorem nul_not_mem_normalService (g : Nat) : nul ∉ c.normalService g r := by
  unfold normalService
  simp only [List.mem_append, List.mem_cons, not_or]
  have hblank : nul ≠ ' ' := by decide
  have hzero : '0' ≠ nul := by decide
  refine ⟨⟨⟨⟨⟨⟨⟨⟨⟨?_, ?_⟩, hblank, ?_⟩, hblank, ?_⟩, hblank, ?_⟩, hblank, ?_⟩,
    hblank, ?_⟩, ?_⟩, ?_⟩, ?_⟩
  · decide
  · exact nul_not_mem_leftpad hzero (nul_not_mem_hexadecimal _)
  · exact nul_not_mem_rightpad hblank.symm (nul_not_mem_state2String _)
  · exact nul_not_mem_leftpad hblank.symm (nul_not_mem_decimal _)
  · exact nul_not_mem_leftpad hblank.symm (nul_not_mem_decimal _)
  · exact nul_not_mem_leftpad hblank.symm (nul_not_mem_decimal _)
  · exact nul_not_mem_leftpad hblank.symm (nul_not_mem_decimal _)
  · decide
  · exact nul_not_mem_leftpad hblank.symm (nul_not_mem_cpuText g)
  · decide

theorem nul_not_mem_normalLines : nul ∉ c.normalLines last rs := by
  induction rs generalizing last with
  | nil => exact List.not_mem_nil
  | cons r rs ih =>
      rw [normalLines, List.mem_append, List.mem_append, not_or, not_or]
      refine ⟨⟨?_, nul_not_mem_normalService _⟩, ih⟩
      split
      · exact nul_not_mem_normalGroup
      · exact List.not_mem_nil

theorem nul_not_mem_normalText : nul ∉ c.normalText := by
  rw [normalText, List.mem_append, not_or]
  exact ⟨by decide, nul_not_mem_normalLines⟩

end ReportContext

end Powerpack
end Eaf
