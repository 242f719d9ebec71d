import Mathlib.Data.List.Nodup
import Eaf.Foundation.RangeBlocks
import Eaf.Powerpack.DataDump

/-!
# Dumps of data

When `eaf_dump_data` ends and has printed each byte once.
-/

namespace Eaf
namespace Powerpack

open RangeBlocks

variable {data : UInt64 → UInt8} {size width idxLine : UInt64} {fuel i j : Nat}
  {lines : List DumpLine}

/-! ## A line -/

/-- Byte `i` of the data. -/
def byteAt (data : UInt64 → UInt8) (i : Nat) : UInt64 × UInt8 :=
  (UInt64.ofNat i, data (UInt64.ofNat i))

/-- A column of a line that does not wrap around. -/
theorem colume_add {c : Nat} (size : UInt64) (hline : idxLine.toNat + width.toNat ≤ 2 ^ 64)
    (hc : c < width.toNat) :
    UInt64.ofNat c + idxLine = UInt64.ofNat (idxLine.toNat + c) ∧
      (UInt64.ofNat c + idxLine < size ↔ c < size.toNat - idxLine.toNat) := by
  have heq : UInt64.ofNat c + idxLine = UInt64.ofNat (idxLine.toNat + c) := by
    rw [UInt64.ofNat_add, UInt64.ofNat_toNat, UInt64.add_comm]
  refine ⟨heq, ?_⟩
  rw [heq, UInt64.lt_iff_toNat_lt, UInt64.toNat_ofNat', Nat.mod_eq_of_lt (by omega)]
  omega

/-- The bytes of a line. -/
theorem hexBytes_dumpLine (hline : idxLine.toNat + width.toNat ≤ 2 ^ 64) :
    (dumpLine data size width idxLine).hexBytes =
      (List.range (min width.toNat (size.toNat - idxLine.toNat))).map fun c =>
        byteAt data (idxLine.toNat + c) := by
  rw [DumpLine.hexBytes, dumpLine, dumpHex, dumpColumes, List.map_map,
    List.filterMap_map]
  refine filterMap_range fun c hc => ?_
  obtain ⟨hadd, hlt⟩ := colume_add size hline hc
  simp only [Function.comp_apply, hlt]
  rw [hadd]
  rfl

theorem charBytes_dumpLine (hline : idxLine.toNat + width.toNat ≤ 2 ^ 64) :
    (dumpLine data size width idxLine).charBytes =
      (dumpLine data size width idxLine).hexBytes := by
  have htake : (List.range width.toNat).takeWhile
      ((fun idxColume => decide (idxColume + idxLine < size)) ∘ UInt64.ofNat) =
        List.range (min width.toNat (size.toNat - idxLine.toNat)) := by
    refine takeWhile_range fun c hc => ?_
    rw [Function.comp_apply, decide_eq_true_eq]
    exact (colume_add size hline hc).2
  rw [hexBytes_dumpLine hline, DumpLine.charBytes, dumpLine, dumpChars, dumpColumes,
    List.takeWhile_map, htake, List.map_map, List.filterMap_map]
  rw [← List.filterMap_eq_map]
  refine List.filterMap_congr fun c hc => ?_
  have hlt := List.mem_range.mp hc
  obtain ⟨hadd, -⟩ := colume_add (c := c) size hline (by omega)
  simp only [Function.comp_apply, hadd]
  rfl

/-- A line shows at most `width` bytes, those from its start on. -/
theorem dumpLine_shape (hline : idxLine.toNat + width.toNat ≤ 2 ^ 64) :
    (dumpLine data size width idxLine).hexBytes.length ≤ width.toNat ∧
      (dumpLine data size width idxLine).hexBytes.map Prod.fst =
        (List.range (dumpLine data size width idxLine).hexBytes.length).map fun i =>
          (dumpLine data size width idxLine).start + UInt64.ofNat i := by
  rw [hexBytes_dumpLine hline, List.length_map, List.length_range, List.map_map]
  refine ⟨by omega, List.map_congr_left fun c _ => ?_⟩
  show UInt64.ofNat (idxLine.toNat + c) = idxLine + UInt64.ofNat c
  rw [UInt64.ofNat_add, UInt64.ofNat_toNat]

/-! ## The lines -/

/-- Line `j` of the dump. -/
def lineAt (data : UInt64 → UInt8) (size width : UInt64) (j : Nat) : DumpLine :=
  dumpLine data size width (UInt64.ofNat (j * width.toNat))

theorem ofNat_next (j : Nat) :
    UInt64.ofNat (j * width.toNat) + width = UInt64.ofNat ((j + 1) * width.toNat) := by
  rw [Nat.add_mul, Nat.one_mul, UInt64.ofNat_add, UInt64.ofNat_toNat]

/-- One more line is printed. -/
theorem dumpFrom_next (hlt : UInt64.ofNat (j * width.toNat) < size) :
    dumpFrom data size width (fuel + 1) (UInt64.ofNat (j * width.toNat)) =
      (dumpFrom data size width fuel (UInt64.ofNat ((j + 1) * width.toNat))).map
        (lineAt data size width j :: ·) := by
  rw [dumpFrom, if_pos hlt, ofNat_next]
  rfl

/-- How many lines there have to be. -/
def lineCount (size width : UInt64) : Nat :=
  (size.toNat + width.toNat - 1) / width.toNat

theorem lineCount_spec (size : UInt64) (hwidth : 0 < width.toNat) :
    size.toNat ≤ lineCount size width * width.toNat ∧
      ∀ j < lineCount size width, j * width.toNat < size.toNat := by
  have hdiv := Nat.div_add_mod (size.toNat + width.toNat - 1) width.toNat
  have hmod := Nat.mod_lt (size.toNat + width.toNat - 1) hwidth
  rw [Nat.mul_comm] at hdiv
  refine ⟨?_, fun j hj => ?_⟩
  · rw [lineCount]
    omega
  · have hle : (j + 1) * width.toNat ≤ lineCount size width * width.toNat :=
      Nat.mul_le_mul_right _ hj
    rw [lineCount] at hle
    rw [Nat.add_mul, Nat.one_mul] at hle
    omega

/-- Without a wrap-around all lines are printed, and no more. -/
theorem dumpFrom_lines (data : UInt64 → UInt8) (hwidth : 0 < width.toNat)
    (hfits : lineCount size width * width.toNat < 2 ^ 64) (d : Nat) :
    ∀ j, j + d = lineCount size width →
      dumpFrom data size width (d + 1) (UInt64.ofNat (j * width.toNat)) =
        some ((List.range d).map fun i => lineAt data size width (j + i)) := by
  obtain ⟨hcover, hbelow⟩ := lineCount_spec size hwidth
  have hnat : ∀ j ≤ lineCount size width,
      (UInt64.ofNat (j * width.toNat)).toNat = j * width.toNat := by
    intro j hj
    have hle : j * width.toNat ≤ lineCount size width * width.toNat :=
      Nat.mul_le_mul_right _ hj
    rw [UInt64.toNat_ofNat', Nat.mod_eq_of_lt (by omega)]
  induction d with
  | zero =>
      intro j hj
      have hend : ¬UInt64.ofNat (j * width.toNat) < size := by
        rw [Nat.add_zero] at hj
        rw [UInt64.lt_iff_toNat_lt, hnat j (by omega), hj]
        omega
      exact if_neg hend
  | succ d ih =>
      intro j hj
      have hlt : UInt64.ofNat (j * width.toNat) < size := by
        rw [UInt64.lt_iff_toNat_lt, hnat j (by omega)]
        exact hbelow j (by omega)
      rw [dumpFrom_next hlt, ih (j + 1) (by omega), Option.map_some,
        List.range_succ_eq_map, List.map_cons, List.map_map]
      refine congrArg some (congrArg₂ List.cons rfl (List.map_congr_left fun i _ => ?_))
      rw [Function.comp_apply, Nat.add_assoc, Nat.add_comm 1 i]

theorem flatMap_lines {k : Nat} {bytes : DumpLine → List (UInt64 × UInt8)}
    (hbytes : ∀ j < k, bytes (lineAt data size width j) =
      (List.range (min width.toNat (size.toNat - j * width.toNat))).map fun c =>
        byteAt data (j * width.toNat + c))
    (hcover : size.toNat ≤ k * width.toNat) :
    ((List.range k).map (lineAt data size width)).flatMap bytes = dataBytes data size := by
  have hblocks := flatMap_blocks size.toNat width.toNat k
  rw [Nat.min_eq_left hcover] at hblocks
  have hdata : dataBytes data size = (List.range size.toNat).map (byteAt data) := rfl
  rw [hdata, ← hblocks, List.map_flatMap, List.flatMap_map]
  refine List.flatMap_congr fun j hj => ?_
  rw [hbytes j (List.mem_range.mp hj), List.map_map]
  rfl

/-- The lines are a dump of the data. -/
theorem dumps_lines (hwidth : 0 < width.toNat)
    (hfits : lineCount size width * width.toNat < 2 ^ 64) :
    Dumps data size width
      ((List.range (lineCount size width)).map (lineAt data size width)) := by
  obtain ⟨hcover, -⟩ := lineCount_spec size hwidth
  have hline : ∀ j < lineCount size width,
      (UInt64.ofNat (j * width.toNat)).toNat = j * width.toNat ∧
        (UInt64.ofNat (j * width.toNat)).toNat + width.toNat ≤ 2 ^ 64 := by
    intro j hj
    have hle : (j + 1) * width.toNat ≤ lineCount size width * width.toNat :=
      Nat.mul_le_mul_right _ hj
    rw [Nat.add_mul, Nat.one_mul] at hle
    rw [UInt64.toNat_ofNat', Nat.mod_eq_of_lt (by omega)]
    omega
  have hhex : ∀ j < lineCount size width, (lineAt data size width j).hexBytes =
      (List.range (min width.toNat (size.toNat - j * width.toNat))).map fun c =>
        byteAt data (j * width.toNat + c) := by
    intro j hj
    obtain ⟨hnat, hle⟩ := hline j hj
    rw [lineAt, hexBytes_dumpLine hle, hnat]
  have hsame : ∀ j < lineCount size width,
      (lineAt data size width j).charBytes = (lineAt data size width j).hexBytes :=
    fun j hj => charBytes_dumpLine (hline j hj).2
  refine ⟨flatMap_lines hhex hcover,
    flatMap_lines (fun j hj => (hsame j hj).trans (hhex j hj)) hcover,
    fun line hmem => ?_, fun line hmem => ?_, fun line hmem => ?_⟩
  · obtain ⟨j, hj, rfl⟩ := List.mem_map.mp hmem
    exact hsame j (List.mem_range.mp hj)
  · obtain ⟨j, hj, rfl⟩ := List.mem_map.mp hmem
    exact (dumpLine_shape (hline j (List.mem_range.mp hj)).2).1
  · obtain ⟨j, hj, rfl⟩ := List.mem_map.mp hmem
    exact (dumpLine_shape (hline j (List.mem_range.mp hj)).2).2

/-! ## Where the arithmetic wraps around -/

/-- With width 0 the dump never ends. -/
theorem dumpFrom_zero (hlt : idxLine < size) :
    dumpFrom data size 0 fuel idxLine = none := by
  induction fuel with
  | zero => rfl
  | succ fuel ih => rw [dumpFrom, if_pos hlt, UInt64.add_zero, ih, Option.map_none]

/-- As long as the loop has not ended, its lines are printed. -/
theorem mem_of_dumpFrom (h : dumpFrom data size width fuel
      (UInt64.ofNat (j * width.toNat)) = some lines) {i : Nat} (hji : j ≤ i)
    (hlt : ∀ k, j ≤ k → k ≤ i → UInt64.ofNat (k * width.toNat) < size) :
    lineAt data size width i ∈ lines := by
  induction fuel generalizing j lines with
  | zero => cases h
  | succ fuel ih =>
      rw [dumpFrom_next (hlt j le_rfl hji)] at h
      obtain ⟨rest, hrest, rfl⟩ := Option.map_eq_some_iff.mp h
      rcases Nat.eq_or_lt_of_le hji with rfl | hlater
      · exact List.mem_cons_self
      · exact List.mem_cons_of_mem _
          (ih hrest hlater fun k hk hki => hlt k (by omega) hki)

/-- A column that wraps around, or not, shows the byte of its index. -/
theorem mem_hexBytes (data : UInt64 → UInt8) {c : Nat} (hc : c < width.toNat)
    (hlt : UInt64.ofNat c + idxLine < size) :
    (UInt64.ofNat c + idxLine, data (UInt64.ofNat c + idxLine)) ∈
      (dumpLine data size width idxLine).hexBytes := by
  refine List.mem_filterMap.mpr ⟨_, List.mem_map_of_mem
    (List.mem_map_of_mem (List.mem_range.mpr hc)), ?_⟩
  exact if_pos hlt

/-- No byte is at two places. -/
theorem nodup_dataBytes : (dataBytes data size).Nodup := by
  have hlt := size.toNat_lt
  refine List.Nodup.map_on (fun i hi j hj heq => ?_) List.nodup_range
  have hi := List.mem_range.mp hi
  have hj := List.mem_range.mp hj
  have hnat := congrArg UInt64.toNat (Prod.mk.inj heq).1
  rw [UInt64.toNat_ofNat', UInt64.toNat_ofNat', Nat.mod_eq_of_lt (by omega),
    Nat.mod_eq_of_lt (by omega)] at hnat
  exact hnat

/-- Where the index of a line or of a column wraps around, the first byte is
printed a second time. -/
theorem not_dumps_of_wrap (hsize : 0 < size) (hwidth : 0 < width.toNat)
    (hwrap : 2 ^ 64 ≤ lineCount size width * width.toNat)
    (h : dumpFrom data size width fuel 0 = some lines) : ¬Dumps data size width lines := by
  intro hdumps
  obtain ⟨-, hbelow⟩ := lineCount_spec size hwidth
  have hsizeLt := size.toNat_lt
  have hwidthLt := width.toNat_lt
  have htwo : 2 ≤ lineCount size width := by
    by_contra hfew
    have hle : lineCount size width * width.toNat ≤ 1 * width.toNat :=
      Nat.mul_le_mul_right _ (by omega)
    omega
  have hstart : dumpFrom data size width fuel (UInt64.ofNat (0 * width.toNat)) =
      some lines := by
    rw [Nat.zero_mul]
    exact h
  have hzero : UInt64.ofNat (0 * width.toNat) < size := by
    rw [Nat.zero_mul]
    exact hsize
  have hlater : ∀ k < lineCount size width, UInt64.ofNat (k * width.toNat) < size := by
    intro k hk
    have hlt := hbelow k hk
    rw [UInt64.lt_iff_toNat_lt, UInt64.toNat_ofNat', Nat.mod_eq_of_lt (by omega)]
    exact hlt
  cases fuel with
  | zero => cases hstart
  | succ fuel =>
      rw [dumpFrom_next hzero] at hstart
      obtain ⟨rest, hrest, rfl⟩ := Option.map_eq_some_iff.mp hstart
      -- the first byte in the first line
      have hfirst : ((0, data 0) : UInt64 × UInt8) ∈ (lineAt data size width 0).hexBytes := by
        rw [lineAt, Nat.zero_mul]
        exact mem_hexBytes data hwidth hsize
      -- and in a later one
      have hagain : ∃ line ∈ rest, ((0, data 0) : UInt64 × UInt8) ∈ line.hexBytes := by
        have hindex : ∀ c k : Nat, c + k * width.toNat = 2 ^ 64 →
            UInt64.ofNat c + UInt64.ofNat (k * width.toNat) = 0 := by
          intro c k heq
          rw [← UInt64.ofNat_add, heq]
          rfl
        rcases Nat.eq_or_lt_of_le hwrap with heq | hlt
        · have hnext := hindex 0 (lineCount size width) (by omega)
          refine ⟨_, mem_of_dumpFrom (i := lineCount size width) hrest (by omega)
            fun k _ hk => ?_, ?_⟩
          · rcases Nat.eq_or_lt_of_le hk with rfl | hk
            · rw [← heq]
              exact hsize
            · exact hlater k hk
          · have hmem := mem_hexBytes data hwidth (by rw [hnext]; exact hsize)
            rw [hnext] at hmem
            exact hmem
        · obtain ⟨k, hk⟩ := Nat.exists_eq_add_of_le' (Nat.le_of_succ_le htwo)
          have hprod : lineCount size width * width.toNat =
              k * width.toNat + width.toNat := by
            rw [hk, Nat.add_mul, Nat.one_mul]
          have hkLt := hbelow k (by omega)
          have hnext := hindex (2 ^ 64 - k * width.toNat) k (by omega)
          refine ⟨_, mem_of_dumpFrom (i := k) hrest (by omega)
            fun k' _ hk' => hlater k' (by omega), ?_⟩
          have hcolume : 2 ^ 64 - k * width.toNat < width.toNat := by omega
          have hmem := mem_hexBytes data hcolume (by rw [hnext]; exact hsize)
          rw [hnext] at hmem
          exact hmem
      obtain ⟨line, hline, hmem⟩ := hagain
      have hnodup : (((lineAt data size width 0 :: rest)).flatMap
          DumpLine.hexBytes).Nodup := by
        rw [hdumps.hex]
        exact nodup_dataBytes
      rw [List.flatMap_cons] at hnodup
      exact List.disjoint_of_nodup_append hnodup hfirst
        (List.mem_flatMap.mpr ⟨line, hline, hmem⟩)

/-- `eaf_dump_data` ends and has printed each byte once in each part, in order, in
lines of at most `width` bytes, exactly when there is nothing to print, or the
width is not 0 and the lines that are needed end below 2^64. -/
theorem data_dumped_iff (data : UInt64 → UInt8) (size width : UInt64) :
    (∃ fuel lines, eafDumpData data size width fuel = some lines ∧
        Dumps data size width lines) ↔
      size = 0 ∨ 0 < width ∧ lineCount size width * width.toNat < 2 ^ 64 := by
  constructor
  · rintro ⟨fuel, lines, hdump, hdumps⟩
    by_contra hnot
    obtain ⟨hsize, hnot⟩ := not_or.mp hnot
    have hsizePos : 0 < size := UInt64.pos_iff_ne_zero.mpr hsize
    by_cases hzero : width = 0
    · subst hzero
      rw [eafDumpData, dumpFrom_zero hsizePos] at hdump
      cases hdump
    · have hwidth : 0 < width := UInt64.pos_iff_ne_zero.mpr hzero
      have hwrap : 2 ^ 64 ≤ lineCount size width * width.toNat := by
        by_contra hlt
        exact hnot ⟨hwidth, by omega⟩
      exact not_dumps_of_wrap hsizePos (UInt64.lt_iff_toNat_lt.mp hwidth) hwrap hdump hdumps
  · rintro (rfl | ⟨hwidth, hfits⟩)
    · exact ⟨1, [], rfl, rfl, rfl, fun _ h => (by cases h), fun _ h => (by cases h),
        fun _ h => (by cases h)⟩
    · have hpos : 0 < width.toNat := UInt64.lt_iff_toNat_lt.mp hwidth
      refine ⟨lineCount size width + 1, _, ?_, dumps_lines hpos hfits⟩
      have hall := dumpFrom_lines data hpos hfits (lineCount size width) 0
        (Nat.zero_add _)
      rw [Nat.zero_mul] at hall
      simp only [Nat.zero_add] at hall
      exact hall

/-- With width 0 a single byte is never dumped. -/
theorem data_not_dumped : ¬∃ fuel lines,
    eafDumpData (fun _ => 65) 1 0 fuel = some lines ∧ Dumps (fun _ => 65) 1 0 lines := by
  rintro ⟨fuel, lines, hdump, -⟩
  rw [eafDumpData, dumpFrom_zero (by decide)] at hdump
  cases hdump

end Powerpack
end Eaf
