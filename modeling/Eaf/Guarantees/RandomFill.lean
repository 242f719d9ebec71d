import Eaf.Powerpack.Random

/-!
# Random data

When `eaf_random` writes its buffer and nothing else.
-/

namespace Eaf
namespace Powerpack

variable {randS : RandS} {buffer size startPos dst n a : UInt64} {fuel : Nat}
  {run run' : RandomRun} {ctx : RandomCtx}

/-! ## Addresses in a row -/

/-- The `n` addresses from `a` on. -/
def span (a : UInt64) (n : Nat) : List UInt64 :=
  (List.range n).map fun i => a + UInt64.ofNat i

theorem mem_span {x : UInt64} {n : Nat} :
    x ∈ span a n ↔ ∃ i < n, x = a + UInt64.ofNat i := by
  constructor
  · intro hx
    obtain ⟨i, hi, rfl⟩ := List.mem_map.mp hx
    exact ⟨i, List.mem_range.mp hi, rfl⟩
  · rintro ⟨i, hi, rfl⟩
    exact List.mem_map_of_mem (List.mem_range.mpr hi)

/-- An address is in a row as many bytes as its distance. -/
theorem add_mem_span {i n : Nat} (hi : i < 2 ^ 64) (hn : n ≤ 2 ^ 64) :
    a + UInt64.ofNat i ∈ span a n ↔ i < n := by
  rw [mem_span]
  refine ⟨?_, fun h => ⟨i, h, rfl⟩⟩
  rintro ⟨j, hj, heq⟩
  have hnat := congrArg UInt64.toNat (UInt64.add_right_inj a |>.mp heq)
  rw [UInt64.toNat_ofNat', UInt64.toNat_ofNat', Nat.mod_eq_of_lt hi,
    Nat.mod_eq_of_lt (by omega)] at hnat
  omega

theorem span_append (a : UInt64) (m n : Nat) :
    span a m ++ span (a + UInt64.ofNat m) n = span a (m + n) := by
  rw [span, span, span, List.range_add, List.map_append, List.map_map]
  refine congrArg _ (List.map_congr_left fun i _ => ?_)
  rw [Function.comp_apply, UInt64.ofNat_add, UInt64.add_assoc]

theorem addresses_writeBytes (dst : UInt64) (bytes : List UInt8) :
    (writeBytes dst bytes).map Prod.fst = span dst bytes.length := by
  have hidx := List.zipIdx_map_snd 0 bytes
  rw [← List.range_eq_range'] at hidx
  rw [writeBytes, span, ← hidx, List.map_map, List.map_map]
  rfl

theorem addresses_fill (hn : n.toNat ≤ 4) :
    (run.fill randS dst n).addresses = run.addresses ++ span dst n.toNat := by
  rw [RandomRun.addresses, RandomRun.fill, List.map_append, addresses_writeBytes,
    List.length_take]
  have hfour : (padBytes (randomNonFailure randS run.ctx).1).length = 4 := rfl
  rw [hfour, Nat.min_eq_left hn]
  rfl

/-- A remaining length below 4 passes the assertion. -/
theorem asserted_assertDiff (hn : n.toNat < 4) :
    (run.assertDiff n).asserted = run.asserted := by
  have hlt : n < 4 := UInt64.lt_iff_toNat_lt.mpr hn
  rw [RandomRun.assertDiff, decide_eq_true hlt, Bool.and_true]

theorem fills_iff : run.Fills buffer size ↔
    (∀ x, x ∈ run.addresses ↔ x ∈ span buffer size.toNat) ∧ run.asserted = true := by
  constructor
  · intro h
    refine ⟨fun x => ⟨fun hx => mem_span.mpr (h.only x hx), fun hx => ?_⟩, h.asserted⟩
    obtain ⟨i, hi, rfl⟩ := mem_span.mp hx
    exact h.every i hi
  · rintro ⟨hmem, hasserted⟩
    exact ⟨fun i hi => (hmem _).mpr (mem_span.mpr ⟨i, hi, rfl⟩),
      fun x hx => mem_span.mp ((hmem x).mp hx), hasserted⟩

/-! ## The loop and the tail -/

theorem toNat_limit (hend : 4 ≤ (buffer + size).toNat) :
    (buffer + size - 4).toNat = (buffer + size).toNat - 4 := by
  have hlt := (buffer + size).toNat_lt
  rw [UInt64.toNat_sub]
  show (2 ^ 64 - 4 + (buffer + size).toNat) % 2 ^ 64 = _
  omega

/-- The limit of the loop wraps around. -/
theorem toNat_limit_wrap (hend : (buffer + size).toNat < 4) :
    (buffer + size - 4).toNat = 2 ^ 64 - 4 + (buffer + size).toNat := by
  rw [UInt64.toNat_sub]
  show (2 ^ 64 - 4 + (buffer + size).toNat) % 2 ^ 64 = _
  omega

theorem toNat_next (startPos : UInt64) :
    (startPos + 4).toNat = (startPos.toNat + 4) % 2 ^ 64 := UInt64.toNat_add _ _

theorem fillWords_next (hle : startPos ≤ buffer + size - 4) :
    fillWords randS buffer size (fuel + 1) startPos run =
      fillWords randS buffer size fuel (startPos + 4) (run.fill randS startPos 4) :=
  if_pos hle

theorem fillWords_end (hgt : ¬startPos ≤ buffer + size - 4) :
    fillWords randS buffer size (fuel + 1) startPos run = some (startPos, run) :=
  if_neg hgt

/-- The loop fills all whole words before the end. -/
theorem fillWords_span (randS : RandS) (hend : 4 ≤ (buffer + size).toNat) (k : Nat) :
    ∀ startPos run, startPos.toNat + 4 * k ≤ (buffer + size).toNat →
      (buffer + size).toNat < startPos.toNat + 4 * k + 4 →
      ∃ run', fillWords randS buffer size (k + 1) startPos run =
          some (startPos + UInt64.ofNat (4 * k), run') ∧
        run'.addresses = run.addresses ++ span startPos (4 * k) ∧
        run'.asserted = run.asserted := by
  have hlt := (buffer + size).toNat_lt
  have hlimit := toNat_limit hend
  induction k with
  | zero =>
      intro startPos run _ hstop
      refine ⟨run, ?_, (List.append_nil _).symm, rfl⟩
      rw [fillWords_end, Nat.mul_zero]
      · exact congrArg some (congrArg₂ Prod.mk (UInt64.add_zero startPos).symm rfl)
      · rw [UInt64.le_iff_toNat_le, hlimit]
        omega
  | succ k ih =>
      intro startPos run hroom hstop
      have hnext := toNat_next startPos
      have hle : startPos ≤ buffer + size - 4 := by
        rw [UInt64.le_iff_toNat_le, hlimit]
        omega
      obtain ⟨run', hrun, haddresses, hasserted⟩ :=
        ih (startPos + 4) (run.fill randS startPos 4) (by omega) (by omega)
      refine ⟨run', ?_, ?_, hasserted⟩
      · rw [fillWords_next hle, hrun, Nat.mul_succ, Nat.add_comm (4 * k), UInt64.ofNat_add,
          ← UInt64.add_assoc]
        rfl
      · rw [haddresses, addresses_fill (by decide), List.append_assoc, Nat.mul_succ,
          Nat.add_comm (4 * k), ← span_append]
        rfl

/-- Where nothing wraps around, the rest of the buffer is filled. -/
theorem fillRest_span (randS : RandS) (run : RandomRun) {rest : Nat} (hend : 4 ≤ (buffer + size).toNat)
    (hrest : startPos.toNat + rest = (buffer + size).toNat) :
    ∃ fuel run', fillRest randS buffer size fuel startPos run = some run' ∧
      run'.addresses = run.addresses ++ span startPos rest ∧
      run'.asserted = run.asserted := by
  have hlt := (buffer + size).toNat_lt
  obtain ⟨run', hrun, haddresses, hasserted⟩ :=
    fillWords_span randS hend (rest / 4) startPos run (by omega) (by omega)
  have hpos : (startPos + UInt64.ofNat (4 * (rest / 4))).toNat =
      startPos.toNat + 4 * (rest / 4) := by
    rw [UInt64.toNat_add, UInt64.toNat_ofNat', Nat.mod_eq_of_lt (by omega),
      Nat.mod_eq_of_lt (by omega)]
  refine ⟨_, _, congrArg (Option.map _) hrun, ?_⟩
  dsimp only
  by_cases hdone : rest % 4 = 0
  · have hge : startPos + UInt64.ofNat (4 * (rest / 4)) ≥ buffer + size := by
      rw [ge_iff_le, UInt64.le_iff_toNat_le, hpos]
      omega
    rw [fillTail, if_pos hge, haddresses]
    refine ⟨?_, hasserted⟩
    rw [show 4 * (rest / 4) = rest by omega]
  · have hge : ¬startPos + UInt64.ofNat (4 * (rest / 4)) ≥ buffer + size := by
      rw [ge_iff_le, UInt64.le_iff_toNat_le, hpos]
      omega
    have hdiff : (buffer + size - (startPos + UInt64.ofNat (4 * (rest / 4)))).toNat =
        rest % 4 := by
      rw [UInt64.toNat_sub, hpos]
      omega
    rw [fillTail, if_neg hge]
    dsimp only
    refine ⟨?_, ?_⟩
    · rw [addresses_fill (by omega), hdiff]
      show run'.addresses ++ _ = _
      rw [haddresses, List.append_assoc, span_append]
      rw [Nat.div_add_mod]
    · exact (asserted_assertDiff (by omega)).trans hasserted

/-! ## What goes wrong -/

theorem mem_fill {x : UInt64} (hx : x ∈ run.addresses) :
    x ∈ (run.fill randS dst n).addresses := by
  rw [RandomRun.addresses, RandomRun.fill, List.map_append]
  exact List.mem_append_left _ hx

theorem mem_fillWords {x : UInt64}
    (h : fillWords randS buffer size fuel startPos run = some (a, run'))
    (hx : x ∈ run.addresses) : x ∈ run'.addresses := by
  induction fuel generalizing startPos run with
  | zero => cases h
  | succ fuel ih =>
      by_cases hle : startPos ≤ buffer + size - 4
      · rw [fillWords_next hle] at h
        exact ih h (mem_fill hx)
      · rw [fillWords_end hle] at h
        obtain rfl := (Prod.mk.inj (Option.some.inj h)).2
        exact hx

theorem mem_fillTail {x : UInt64} (hx : x ∈ run.addresses) :
    x ∈ (fillTail randS buffer size startPos run).addresses := by
  rw [fillTail]
  split
  · exact hx
  · exact mem_fill hx

/-- What was written stays written. -/
theorem mem_fillRest {x : UInt64}
    (h : fillRest randS buffer size fuel startPos run = some run')
    (hx : x ∈ run.addresses) : x ∈ run'.addresses := by
  obtain ⟨s, hwords, rfl⟩ := Option.map_eq_some_iff.mp h
  exact mem_fillTail (mem_fillWords hwords hx)

/-- An aligned address never passes a limit that has wrapped around. -/
theorem fillWords_endless (hend : (buffer + size).toNat < 4) :
    ∀ fuel startPos run, startPos.toNat % 4 = 0 →
      fillWords randS buffer size fuel startPos run = none := by
  have hlimit := toNat_limit_wrap hend
  intro fuel
  induction fuel with
  | zero => exact fun _ _ _ => rfl
  | succ fuel ih =>
      intro startPos run haligned
      have hlt := startPos.toNat_lt
      have hnext := toNat_next startPos
      have hle : startPos ≤ buffer + size - 4 := by
        rw [UInt64.le_iff_toNat_le, hlimit]
        omega
      rw [fillWords_next hle]
      exact ih _ _ (by omega)

/-- Nothing is filled where the end of the buffer has wrapped around to an address
below the current one. -/
theorem fillRest_none (hend : 4 ≤ (buffer + size).toNat)
    (hlt : (buffer + size).toNat < startPos.toNat)
    (h : fillRest randS buffer size fuel startPos run = some run') : run' = run := by
  have hlimit := toNat_limit hend
  have hgt : ¬startPos ≤ buffer + size - 4 := by
    rw [UInt64.le_iff_toNat_le, hlimit]
    omega
  have hge : startPos ≥ buffer + size := UInt64.le_iff_toNat_le.mpr (Nat.le_of_lt hlt)
  cases fuel with
  | zero => cases h
  | succ fuel =>
      rw [fillRest, fillWords_end hgt, Option.map_some, fillTail, if_pos hge] at h
      exact (Option.some.inj h).symm

/-- A whole word is filled where the end of the buffer is below 4. -/
theorem fillRest_outside (hend : (buffer + size).toNat < 4)
    (hle : startPos.toNat ≤ (buffer + size).toNat)
    (h : fillRest randS buffer size fuel startPos run = some run') :
    startPos + 3 ∈ run'.addresses := by
  have hlimit := toNat_limit_wrap hend
  have hrun : startPos ≤ buffer + size - 4 := by
    rw [UInt64.le_iff_toNat_le, hlimit]
    omega
  obtain ⟨s, hwords, rfl⟩ := Option.map_eq_some_iff.mp h
  cases fuel with
  | zero => cases hwords
  | succ fuel =>
      rw [fillWords_next hrun] at hwords
      refine mem_fillTail (mem_fillWords hwords ?_)
      rw [addresses_fill (by decide)]
      exact List.mem_append_right _ (mem_span.mpr ⟨3, by decide, rfl⟩)

/-- The last address of all is not filled from an address that is not aligned. -/
theorem fillWords_last (hend : (buffer + size).toNat = 0) :
    ∀ fuel startPos run, startPos.toNat % 4 ≠ 0 →
      fillWords randS buffer size fuel startPos run = some (a, run') →
      UInt64.ofNat (2 ^ 64 - 1) ∉ run.addresses →
      UInt64.ofNat (2 ^ 64 - 1) ∉ run'.addresses := by
  have hwrap : (buffer + size).toNat < 4 := by omega
  have hlimit := toNat_limit_wrap hwrap
  intro fuel
  induction fuel with
  | zero => exact fun _ _ _ h _ => (by cases h)
  | succ fuel ih =>
      intro startPos run hodd h hlast
      have hlt := startPos.toNat_lt
      by_cases hle : startPos ≤ buffer + size - 4
      · have hnat := UInt64.le_iff_toNat_le.mp hle
        have hnext := toNat_next startPos
        rw [fillWords_next hle] at h
        refine ih _ _ (by omega) h ?_
        rw [addresses_fill (by decide)]
        intro hmem
        rcases List.mem_append.mp hmem with hmem | hmem
        · exact hlast hmem
        · obtain ⟨i, hi, heq⟩ := mem_span.mp hmem
          have hi : i < 4 := hi
          have hsum := congrArg UInt64.toNat heq
          rw [UInt64.toNat_add, UInt64.toNat_ofNat', UInt64.toNat_ofNat'] at hsum
          omega
      · rw [fillWords_end hle] at h
        obtain rfl := (Prod.mk.inj (Option.some.inj h)).2
        exact hlast

/-! ## The head -/

/-- How many bytes come before the first aligned address. -/
def headSize (buffer : UInt64) : UInt64 := alignedStart buffer - buffer

theorem alignedStart_facts (buffer : UInt64) :
    (alignedStart buffer).toNat % 4 = 0 ∧ (headSize buffer).toNat < 4 := by
  have hlt := buffer.toNat_lt
  have haligned : (alignedStart buffer).toNat =
      (buffer.toNat + 3) % 2 ^ 64 - (buffer.toNat + 3) % 2 ^ 64 % 4 := by
    rw [alignedStart, eafAlign, plus64, UInt64.toNat_ofNat']
    omega
  refine ⟨by omega, ?_⟩
  rw [headSize, UInt64.toNat_sub, haligned]
  omega

theorem add_headSize (buffer : UInt64) :
    buffer + UInt64.ofNat (headSize buffer).toNat = alignedStart buffer := by
  rw [UInt64.ofNat_toNat, headSize, UInt64.add_comm, UInt64.sub_add_cancel]

/-- The head ends at the first aligned address. -/
theorem fillHead_span (randS : RandS) (buffer : UInt64) (run : RandomRun) :
    (fillHead randS buffer run).addresses =
        run.addresses ++ span buffer (headSize buffer).toNat ∧
      (fillHead randS buffer run).asserted = run.asserted := by
  have hsmall := (alignedStart_facts buffer).2
  rw [fillHead]
  split
  · exact ⟨addresses_fill (Nat.le_of_lt hsmall), asserted_assertDiff hsmall⟩
  · rename_i hzero
    have hzero : headSize buffer = 0 := not_not.mp hzero
    rw [hzero]
    exact ⟨(List.append_nil _).symm, rfl⟩

/-! ## Where the buffer is filled -/

/-- Some run of `eaf_random` ends, and has filled the buffer. -/
def RandomFills (build : RandomBuild size) (ctx : RandomCtx) (buffer : UInt64) : Prop :=
  ∃ fuel run, eafRandom build ctx buffer fuel = some run ∧ run.Fills buffer size

/-- Where `n` bytes from the start are filled already, the rest makes the buffer
full. -/
theorem fills_of_rest {n : Nat} (hn : n ≤ size.toNat)
    (hstart : startPos = buffer + UInt64.ofNat n)
    (hrun : run.addresses = span buffer n) (hasserted : run.asserted = true)
    (hlow : 4 ≤ startPos.toNat + (size.toNat - n))
    (hhigh : startPos.toNat + (size.toNat - n) < 2 ^ 64) :
    ∃ fuel run', fillRest randS buffer size fuel startPos run = some run' ∧
      run'.Fills buffer size := by
  have hend : buffer + size = startPos + UInt64.ofNat (size.toNat - n) := by
    rw [hstart, UInt64.add_assoc, ← UInt64.ofNat_add, Nat.add_sub_cancel' hn,
      UInt64.ofNat_toNat]
  have hnat : (buffer + size).toNat = startPos.toNat + (size.toNat - n) := by
    rw [hend, UInt64.toNat_add, UInt64.toNat_ofNat', Nat.add_mod_mod,
      Nat.mod_eq_of_lt hhigh]
  obtain ⟨fuel, run', hfill, haddresses, hsame⟩ :=
    fillRest_span randS run (by rw [hnat]; exact hlow) hnat.symm
  refine ⟨fuel, run', hfill, fills_iff.mpr ⟨fun x => ?_, hsame.trans hasserted⟩⟩
  rw [haddresses, hrun, hstart, span_append, Nat.add_sub_cancel' hn]

/-- A byte that is not among those filled at first has to be filled later. -/
theorem size_le_of_fills {n : Nat} (hrun : run.addresses = span buffer n)
    (hn : n < 2 ^ 64) (h : run.Fills buffer size) : size.toNat ≤ n := by
  have hlt := size.toNat_lt
  by_contra hmore
  have hmem := h.every n (by omega)
  rw [hrun, add_mem_span hn (by omega)] at hmem
  omega

theorem msvc_fills_iff (randS : RandS) (ctx : RandomCtx) (buffer size : UInt64) :
    RandomFills (.msvc randS : RandomBuild size) ctx buffer ↔
      (headSize buffer).toNat ≤ size.toNat ∧
        4 ≤ (alignedStart buffer).toNat + (size.toNat - (headSize buffer).toNat) ∧
        (alignedStart buffer).toNat + (size.toNat - (headSize buffer).toNat) < 2 ^ 64 := by
  obtain ⟨haligned, hsmall⟩ := alignedStart_facts buffer
  obtain ⟨hhead, hasserted⟩ := fillHead_span randS buffer
    { ctx, writes := [], asserted := true }
  constructor
  · rintro ⟨fuel, run, hrun, hfills⟩
    have hsize := size.toNat_lt
    have hfits : (headSize buffer).toNat ≤ size.toNat := by
      by_contra hover
      have hmem := mem_fillRest hrun (by
        rw [hhead]
        exact mem_span.mpr ⟨size.toNat, by omega, rfl⟩)
      have hin := mem_span.mpr (hfills.only _ hmem)
      rw [add_mem_span hsize (by omega)] at hin
      omega
    have hnat : (buffer + size).toNat = ((alignedStart buffer).toNat +
        (size.toNat - (headSize buffer).toNat)) % 2 ^ 64 := by
      have hend : buffer + size = alignedStart buffer +
          UInt64.ofNat (size.toNat - (headSize buffer).toNat) := by
        rw [← add_headSize, UInt64.add_assoc, ← UInt64.ofNat_add,
          Nat.add_sub_cancel' hfits, UInt64.ofNat_toNat]
      rw [hend, UInt64.toNat_add, UInt64.toNat_ofNat', Nat.add_mod_mod]
    have hlow : 4 ≤ (buffer + size).toNat := by
      by_contra hend
      obtain ⟨s, hwords, -⟩ := Option.map_eq_some_iff.mp hrun
      rw [fillWords_endless (by omega) _ _ _ haligned] at hwords
      cases hwords
    have hstartLt := (alignedStart buffer).toNat_lt
    have hhigh : (alignedStart buffer).toNat +
        (size.toNat - (headSize buffer).toNat) < 2 ^ 64 := by
      by_contra hwrap
      have hnone := fillRest_none hlow (by omega) hrun
      rw [hnone] at hfills
      have hle := size_le_of_fills hhead (by omega) hfills
      omega
    exact ⟨hfits, by omega, hhigh⟩
  · rintro ⟨hfits, hlow, hhigh⟩
    exact fills_of_rest hfits (add_headSize buffer).symm hhead hasserted hlow hhigh

theorem toInt_size (size : UInt64) :
    size.toInt64.toInt =
      if 2 * size.toNat < 2 ^ 64 then (size.toNat : Int) else size.toNat - 2 ^ 64 :=
  BitVec.toInt_eq_toNat_cond size.toBitVec

theorem ReadResult.facts (read : ReadResult size) :
    read.bytes.length ≤ size.toNat ∧ read.bytes.length < 2 ^ 63 ∧
      read.readSize.toNat = read.bytes.length ∧ -1 ≤ read.readSize := by
  cases read with
  | none => exact ⟨Nat.zero_le _, Nat.two_pow_pos 63, rfl, le_rfl⟩
  | some read =>
      refine ⟨read.length_le, read.length_lt, rfl, ?_⟩
      show (-1 : Int) ≤ (read.bytes.length : Int)
      omega

/-- Where the buffer ends below address 4, the first word reaches beyond it. -/
theorem not_fills_low {n : Nat} (hn : n ≤ size.toNat)
    (hlow : buffer.toNat + size.toNat < 4)
    (h : fillRest randS buffer size fuel (buffer + UInt64.ofNat n) run = some run') :
    ¬run'.Fills buffer size := by
  intro hfills
  have hend : (buffer + size).toNat = (buffer.toNat + size.toNat) % 2 ^ 64 :=
    UInt64.toNat_add buffer size
  have hstart : (buffer + UInt64.ofNat n).toNat = buffer.toNat + n := by
    rw [UInt64.toNat_add, UInt64.toNat_ofNat', Nat.mod_eq_of_lt (by omega),
      Nat.mod_eq_of_lt (by omega)]
  have hthree : buffer + UInt64.ofNat n + 3 = buffer + UInt64.ofNat (n + 3) := by
    rw [UInt64.ofNat_add, ← UInt64.add_assoc]
    rfl
  have hmem := fillRest_outside (by omega) (by omega) h
  have hin := mem_span.mpr (hfills.only _ hmem)
  rw [hthree, add_mem_span (by omega) (by omega)] at hin
  omega

/-- Where the buffer ends with the last address, that one is not filled, or the loop
does not end. -/
theorem not_fills_last {n : Nat} (hn : n < size.toNat)
    (hwrap : buffer.toNat + size.toNat = 2 ^ 64) (hrun : run.addresses = span buffer n)
    (h : fillRest randS buffer size fuel (buffer + UInt64.ofNat n) run = some run') :
    ¬run'.Fills buffer size := by
  intro hfills
  have hsize := size.toNat_lt
  have hzero : (buffer + size).toNat = 0 := by
    rw [UInt64.toNat_add, hwrap, Nat.mod_self]
  obtain ⟨s, hwords, rfl⟩ := Option.map_eq_some_iff.mp h
  by_cases haligned : (buffer + UInt64.ofNat n).toNat % 4 = 0
  · rw [fillWords_endless (by omega) _ _ _ haligned] at hwords
    cases hwords
  · have hge : s.1 ≥ buffer + size := by
      rw [ge_iff_le, UInt64.le_iff_toNat_le, hzero]
      exact Nat.zero_le _
    have hlast : UInt64.ofNat (2 ^ 64 - 1) = buffer + UInt64.ofNat (size.toNat - 1) := by
      rw [← @UInt64.ofNat_toNat buffer, ← UInt64.ofNat_add]
      exact congrArg UInt64.ofNat (by omega)
    have hmem := hfills.every (size.toNat - 1) (by omega)
    rw [fillTail, if_pos hge, ← hlast] at hmem
    refine fillWords_last hzero fuel _ run haligned hwords ?_ hmem
    rw [hrun, hlast, add_mem_span (by omega) (by omega)]
    omega

/-- What the code does after a read that it does not take as complete. -/
theorem short_fills_iff {n : Nat} (hn : n ≤ size.toNat) (hstart : buffer.toNat + n < 2 ^ 64)
    (hwrap : buffer.toNat + size.toNat ≤ 2 ^ 64) (hrun : run.addresses = span buffer n)
    (hasserted : run.asserted = true) :
    (∃ fuel run', fillRest randS buffer size fuel (buffer + UInt64.ofNat n) run =
        some run' ∧ run'.Fills buffer size) ↔
      4 ≤ buffer.toNat + size.toNat ∧ buffer.toNat + size.toNat < 2 ^ 64 := by
  have hnat : (buffer + UInt64.ofNat n).toNat = buffer.toNat + n := by
    rw [UInt64.toNat_add, UInt64.toNat_ofNat', Nat.add_mod_mod, Nat.mod_eq_of_lt hstart]
  constructor
  · rintro ⟨fuel, run', hfill, hfills⟩
    by_contra hcond
    rcases Nat.lt_or_ge (buffer.toNat + size.toNat) 4 with hlow | hlow
    · exact not_fills_low hn hlow hfill hfills
    · exact not_fills_last (by omega) (by omega) hrun hfill hfills
  · rintro ⟨hlow, hhigh⟩
    exact fills_of_rest hn rfl hrun hasserted (by omega) (by omega)

theorem unix_fills_iff (read : ReadResult size) (ctx : RandomCtx) (buffer : UInt64)
    (hwrap : buffer.toNat + size.toNat ≤ 2 ^ 64) :
    RandomFills (.unix read) ctx buffer ↔
      size.toNat < 2 ^ 63 ∧ (read.readSize = size.toNat ∨
        4 ≤ buffer.toNat + size.toNat ∧ buffer.toNat + size.toNat < 2 ^ 64) := by
  obtain ⟨hle, hmax, hread, hneg⟩ := read.facts
  have hint := toInt_size size
  have hbuffer := buffer.toNat_lt
  have hsize := size.toNat_lt
  let run : RandomRun := { ctx, writes := writeBytes buffer read.bytes, asserted := true }
  have hrun : run.addresses = span buffer read.bytes.length :=
    addresses_writeBytes buffer read.bytes
  by_cases hfull : read.readSize ≥ size.toInt64.toInt
  · -- the code takes the read as complete
    have hreturn : ∀ fuel, eafRandom (.unix read) ctx buffer fuel = some run :=
      fun _ => if_pos hfull
    constructor
    · rintro ⟨fuel, run', hend, hfills⟩
      obtain rfl := Option.some.inj ((hreturn fuel).symm.trans hend)
      have hcover := size_le_of_fills hrun (by omega) hfills
      split at hint
      · exact ⟨by omega, .inl (by omega)⟩
      · omega
    · rintro ⟨hsmall, -⟩
      have hall : read.bytes.length = size.toNat := by
        rw [if_pos (by omega)] at hint
        omega
      exact ⟨0, run, hreturn 0, fills_iff.mpr ⟨fun x => by rw [hrun, hall], rfl⟩⟩
  · -- it fills the rest itself
    have hsmall : size.toNat < 2 ^ 63 := by
      by_contra hlarge
      rw [if_neg (by omega)] at hint
      omega
    rw [if_pos (by omega)] at hint
    have hshort : ¬read.readSize = size.toNat := by omega
    have hrest : ∀ fuel, eafRandom (.unix read) ctx buffer fuel =
        fillRest (fun _ => none) buffer size fuel
          (buffer + UInt64.ofNat read.bytes.length) run := by
      intro fuel
      rw [← hread]
      exact if_neg hfull
    rw [and_iff_right hsmall, or_iff_right hshort, RandomFills]
    simp only [hrest]
    exact short_fills_iff hle (by omega) hwrap hrun rfl

/-- Exactly when `eaf_random` ends with each byte of the buffer written, no byte
outside it, and its assertions true: on the first build after a complete read or with
an end from 4 on below `2 ^ 64`, and never with a size that is negative as an
`ssize_t`; on the other one with a size that is not below the head, and an end from 4
on below `2 ^ 64`. -/
theorem random_fills_iff (buffer size : UInt64) (ctx : RandomCtx) :
    (∀ read : ReadResult size, buffer.toNat + size.toNat ≤ 2 ^ 64 →
      (RandomFills (.unix read) ctx buffer ↔
        size.toNat < 2 ^ 63 ∧ (read.readSize = size.toNat ∨
          4 ≤ buffer.toNat + size.toNat ∧ buffer.toNat + size.toNat < 2 ^ 64))) ∧
      ∀ randS : RandS,
        (RandomFills (.msvc randS : RandomBuild size) ctx buffer ↔
          (headSize buffer).toNat ≤ size.toNat ∧
            4 ≤ (alignedStart buffer).toNat + (size.toNat - (headSize buffer).toNat) ∧
            (alignedStart buffer).toNat + (size.toNat - (headSize buffer).toNat) <
              2 ^ 64) :=
  ⟨fun read hwrap => unix_fills_iff read ctx buffer hwrap,
    fun randS => msvc_fills_iff randS ctx buffer size⟩

/-- Nine bytes at an odd address after a failed read. -/
theorem random_fills_nine :
    RandomFills (.unix none : RandomBuild 9) { seed := 0, calls := 0 } 1001 :=
  ((random_fills_iff 1001 9 _).1 none (by decide)).mpr ⟨by decide, .inr (by decide)⟩

/-- A single byte at an odd address is not alone when it is written. -/
theorem random_overruns :
    ¬RandomFills (.msvc fun _ => none : RandomBuild 1) { seed := 0, calls := 0 } 1001 := by
  rw [msvc_fills_iff]
  decide

end Powerpack
end Eaf
