import Eaf.Powerpack.ClockSums
import Eaf.Powerpack.WatchdogMaps

/-!
# Clock times are exact

The differences, the sums and the order of clock times, measured by the numbers
of nanoseconds that the times stand for.
-/

namespace Eaf
namespace Powerpack

namespace ClockTime

variable {t1 t2 t d : ClockTime}

/-! ## Differences -/

/-- `eaf_time_diffclock` gives the exact difference, in normal form, and the
sign. -/
def DiffExact (t1 t2 : ClockTime) : Prop :=
  (timeDiffclock t1 t2).2.Normal ∧
  (timeDiffclock t1 t2).2.nanos = ((t1.nanos : Int) - t2.nanos).natAbs ∧
  (timeDiffclock t1 t2).1 = ((t1.nanos : Int) - t2.nanos).sign

/-- There is nothing to borrow, or it does not show that the nanoseconds are
subtracted the wrong way round. -/
def BorrowSafe (large little : ClockTime) : Prop :=
  little.tvNsec.toNat ≤ large.tvNsec.toNat ∨
    little.tvNsec.toNat = large.tvNsec.toNat + 500000000

instance (t1 t2 : ClockTime) : Decidable (BorrowSafe t1 t2) :=
  inferInstanceAs (Decidable (_ ∨ _))

theorem minus_normal (h1 : t1.Normal) (h2 : t2.Normal) : (t1.minus t2).Normal := by
  rw [normal_iff] at h1 h2 ⊢
  unfold minus
  split
  · next hborrow =>
    rw [UInt32.toNat_sub_of_le _ _ (UInt32.le_of_lt hborrow)]
    omega
  · next hle =>
    have hle' := UInt32.lt_iff_toNat_lt.not.mp hle
    rw [UInt32.toNat_sub_of_le _ _ (UInt32.le_iff_toNat_le.mpr (not_lt.mp hle'))]
    omega

theorem key_le_iff (h1 : t1.Normal) (h2 : t2.Normal) :
    t1.key ≤ t2.key ↔ t1.nanos ≤ t2.nanos := by
  rw [← not_lt, ← not_lt, key_lt_iff h2 h1]

theorem minus_nanos_iff (h2 : t2.Normal) (hkey : t2.key ≤ t1.key) :
    (t1.minus t2).nanos = t1.nanos - t2.nanos ↔ BorrowSafe t1 t2 := by
  rw [BorrowSafe]
  by_cases hnsec : t2.tvNsec.toNat ≤ t1.tvNsec.toNat
  · simp only [minus_nanos hkey hnsec, hnsec, true_or]
  · have hborrow := minus_nanos_borrow h2 hkey (not_le.mp hnsec)
    omega

/-- The difference of the larger time and the other one. -/
theorem timeDiffclock_of_le (h : t2.key ≤ t1.key) :
    (timeDiffclock t1 t2).2 = t1.minus t2 := by
  rw [timeDiffclock_dif]
  split
  · rfl
  · next hlt =>
    have heq := key_inj.mp (le_antisymm (not_lt.mp hlt) h)
    rw [heq]

theorem timeDiffclock_of_ge (h : t1.key ≤ t2.key) :
    (timeDiffclock t1 t2).2 = t2.minus t1 := by
  rw [timeDiffclock_dif, if_neg (not_lt.mpr h)]

/-- The code is the sign of the difference. -/
theorem timeDiffclock_sign (h1 : t1.Normal) (h2 : t2.Normal) :
    (timeDiffclock t1 t2).1 = ((t1.nanos : Int) - t2.nanos).sign := by
  rcases timeDiffclock_cases t1 t2 with ⟨hlt, hcode⟩ | ⟨heq, hcode⟩ | ⟨hgt, hcode⟩
  · have hnanos := (key_lt_iff h1 h2).mp hlt
    rw [hcode, Int.sign_eq_neg_one_of_neg (by omega)]
  · rw [hcode, heq, Int.sub_self, Int.sign_zero]
  · have hnanos := (key_lt_iff h2 h1).mp hgt
    rw [hcode, Int.sign_eq_one_of_pos (by omega)]

theorem diffExact_iff (h1 : t1.Normal) (h2 : t2.Normal) :
    DiffExact t1 t2 ↔ (t2.key ≤ t1.key → BorrowSafe t1 t2) ∧
      (t1.key ≤ t2.key → BorrowSafe t2 t1) := by
  have hsign := timeDiffclock_sign h1 h2
  rcases le_total t2.key t1.key with hle | hle
  · have hnanos := (key_le_iff h2 h1).mp hle
    have hother : t1.key ≤ t2.key → BorrowSafe t2 t1 := fun hge => by
      rw [key_inj.mp (le_antisymm hle hge)]
      exact .inl le_rfl
    have habs : ((t1.nanos : Int) - t2.nanos).natAbs = t1.nanos - t2.nanos := by
      omega
    rw [DiffExact, timeDiffclock_of_le hle, habs, minus_nanos_iff h2 hle]
    exact ⟨fun h => ⟨fun _ => h.2.1, hother⟩,
      fun h => ⟨minus_normal h1 h2, h.1 hle, hsign⟩⟩
  · have hnanos := (key_le_iff h1 h2).mp hle
    have hother : t2.key ≤ t1.key → BorrowSafe t1 t2 := fun hge => by
      rw [key_inj.mp (le_antisymm hle hge)]
      exact .inl le_rfl
    have habs : ((t1.nanos : Int) - t2.nanos).natAbs = t2.nanos - t1.nanos := by
      omega
    rw [DiffExact, timeDiffclock_of_ge hle, habs, minus_nanos_iff h1 hle]
    exact ⟨fun h => ⟨hother, fun _ => h.2.1⟩,
      fun h => ⟨minus_normal h2 h1, h.2 hle, hsign⟩⟩

/-- Times in normal form are told apart by their nanoseconds. -/
theorem nanos_inj (h1 : t1.Normal) (h2 : t2.Normal) :
    t1.nanos = t2.nanos ↔ t1 = t2 := by
  constructor
  · intro h
    rw [← ofNanos_nanos h1, ← ofNanos_nanos h2, h]
  · exact congrArg nanos

/-- What was added is found again. -/
theorem diff_of_sum_iff (ht : t.Normal) (hd : d.Normal)
    (hsum : (t.nanos + d.nanos) / 1000000000 < 2 ^ 64) :
    (timeDiffclock (timeAddclock t d).1 t).2 = d ↔
      t.tvNsec.toNat + d.tvNsec.toNat < 1000000000 ∨
        d.tvNsec.toNat = 500000000 := by
  have hnanos := nanos_ofNanos hsum
  have hnormal := ofNanos_normal (t.nanos + d.nanos)
  have hkey : t.key ≤ (ofNanos (t.nanos + d.nanos)).key := by
    rw [key_le_iff ht hnormal, hnanos]
    omega
  have hexact := minus_nanos_iff ht hkey
  have hback : (ofNanos (t.nanos + d.nanos)).nanos - t.nanos = d.nanos := by
    omega
  rw [hback, BorrowSafe, ofNanos_nsec, nanos_inj (minus_normal hnormal ht) hd]
    at hexact
  rw [timeAddclock_eq, if_pos hsum, timeDiffclock_of_le hkey, hexact, nanos,
    nanos]
  rw [normal_iff] at ht hd
  omega

/-- The difference of two times is exact if and only if the larger time has no
fewer nanoseconds, or exactly half a second fewer; and so what was added to a
time is found again if and only if the nanoseconds do not add up to a second,
or those that were added are half a second. -/
theorem diff_exact_iff (t1 t2 : ClockTime) (h1 : t1.Normal) (h2 : t2.Normal) :
    (DiffExact t1 t2 ↔ (t2.key ≤ t1.key → BorrowSafe t1 t2) ∧
      (t1.key ≤ t2.key → BorrowSafe t2 t1)) ∧
    ((t1.nanos + t2.nanos) / 1000000000 < 2 ^ 64 →
      ((timeDiffclock (timeAddclock t1 t2).1 t1).2 = t2 ↔
        t1.tvNsec.toNat + t2.tvNsec.toNat < 1000000000 ∨
          t2.tvNsec.toNat = 500000000)) :=
  ⟨diffExact_iff h1 h2, fun hsum => diff_of_sum_iff h1 h2 hsum⟩

/-- The differences of `1.2` and `0.7` and of `1.2` and `0.1` are exact. -/
theorem diff_exact_half :
    DiffExact ⟨1, 200000000⟩ ⟨0, 700000000⟩ ∧
    (timeDiffclock (timeAddclock ⟨1, 200000000⟩ ⟨0, 700000000⟩).1
      ⟨1, 200000000⟩).2 = ⟨0, 700000000⟩ := by
  have h := diff_exact_iff ⟨1, 200000000⟩ ⟨0, 700000000⟩ (by decide) (by decide)
  exact ⟨h.1.mpr ⟨fun _ => by decide, fun hle => absurd hle (by decide)⟩,
    (h.2 (by decide)).mpr (by decide)⟩

/-- The difference of a second and its last nanosecond is given as
`0.999999998`, and not as a nanosecond. -/
theorem diff_not_exact : Normal ⟨1, 0⟩ ∧ Normal ⟨0, 999999999⟩ ∧
    ¬ DiffExact ⟨1, 0⟩ ⟨0, 999999999⟩ := by
  refine ⟨by decide, by decide, ?_⟩
  rw [diffExact_iff (by decide) (by decide)]
  intro h
  exact absurd (h.1 (by decide)) (by decide)

end ClockTime

/-! ## Sums -/

section Sums

open ClockTime

variable {Ptr : Type*} [DecidableEq Ptr]

/-- What `eaf_time_addclock_ext` promises: the code tells whether the exact sum
has less than `2 ^ 64` seconds, and `dst` has the exact sum, or is unchanged, or
has the sum with the seconds modulo `2 ^ 64`. -/
def AddsExactly (mem : Ptr → ClockTime) (dst src dif : Ptr) (flags : UInt32) :
    Prop :=
  let total := (mem src).nanos + (mem dif).nanos
  let after := (addclockExtAt mem dst src dif flags).1
  let code := (addclockExtAt mem dst src dif flags).2
  (code = 0 ↔ total / 1000000000 < 2 ^ 64) ∧ (code ≠ 0 → code = -1) ∧
  (code = 0 → (after dst).Normal ∧ (after dst).nanos = total) ∧
  (code = -1 → stopsOnOverflow flags = true → after dst = mem dst) ∧
  (code = -1 → stopsOnOverflow flags = false → (after dst).Normal ∧
    (after dst).tvSec.toNat = total / 1000000000 % 2 ^ 64 ∧
    (after dst).tvNsec.toNat = total % 1000000000) ∧
  ∀ p, p ≠ dst → after p = mem p

/-- The overflow of the source makes up for another one. -/
def OverflowsTwice (src dif : ClockTime) : Prop :=
  2 ^ 64 ≤ src.seconds ∧ 2 ^ 65 ≤ (src.nanos + dif.nanos) / 1000000000

instance (src dif : ClockTime) : Decidable (OverflowsTwice src dif) :=
  inferInstanceAs (Decidable (_ ∧ _))

/-- `eaf_time_addclock_ext` does what it promises, unless overflows are ignored
and the source and the sum overflow one after the other.  The objects may be
the same. -/
theorem adds_exactly_iff (mem : Ptr → ClockTime) (dst src dif : Ptr)
    (flags : UInt32) : AddsExactly mem dst src dif flags ↔
      ¬ (stopsOnOverflow flags = false ∧ OverflowsTwice (mem src) (mem dif)) := by
  have hother : ∀ (t : ClockTime) (p : Ptr), p ≠ dst →
      Function.update mem dst t p = mem p :=
    fun t p hp => Function.update_of_ne hp _ _
  have hnormal := ofNanos_normal ((mem src).nanos + (mem dif).nanos)
  have hmod := ofNanos_sec ((mem src).nanos + (mem dif).nanos)
  have hnsec := ofNanos_nsec ((mem src).nanos + (mem dif).nanos)
  have hminus : (-1 : Int) ≠ 0 := by decide
  have hzero : (0 : Int) ≠ -1 := by decide
  unfold AddsExactly addclockExtAt
  rw [timeAddclockExt_eq]
  by_cases hover : ((mem src).nanos + (mem dif).nanos) / 1000000000 < 2 ^ 64
  · have htwice : ¬ OverflowsTwice (mem src) (mem dif) := by
      rw [OverflowsTwice]
      omega
    have hsum := nanos_ofNanos hover
    rw [if_pos hover]
    simp only [Function.update_self]
    exact iff_of_true ⟨iff_of_true trivial hover, fun h => absurd rfl h,
      fun _ => ⟨hnormal, hsum⟩, fun h => absurd h hzero,
      fun h => absurd h hzero, hother _⟩ fun h => htwice h.2
  · rw [if_neg hover]
    cases hstop : stopsOnOverflow flags with
    | true =>
        rw [if_pos rfl]
        simp only [Function.update_self]
        exact iff_of_true ⟨iff_of_false hminus hover, fun _ => trivial,
          fun h => absurd h hminus, fun _ _ => trivial,
          fun _ h => absurd h (by decide), hother _⟩
          fun h => absurd h.1 (by decide)
    | false =>
        rw [if_neg (by decide)]
        simp only [Function.update_self]
        by_cases htwice : OverflowsTwice (mem src) (mem dif)
        · have hcond := htwice
          rw [OverflowsTwice] at hcond
          rw [if_pos hcond]
          exact iff_of_false (fun h => hover (h.1.mp rfl))
            fun h => h ⟨trivial, htwice⟩
        · have hcond := htwice
          rw [OverflowsTwice] at hcond
          rw [if_neg hcond]
          exact iff_of_true ⟨iff_of_false hminus hover, fun _ => rfl,
            fun h => absurd h hminus, fun _ h => absurd h (by decide),
            fun _ _ => ⟨hnormal, hmod, hnsec⟩, hother _⟩ fun h => htwice h.2

/-- Two overflows with the flag are reported as none. -/
theorem adds_not_exactly : ¬ AddsExactly
    (fun _ : Fin 1 => ⟨18446744073709551615, 1000000000⟩) 0 0 0
    timeIgnoreOverflow := by
  intro h
  have hcode : (addclockExtAt
      (fun _ : Fin 1 => ⟨18446744073709551615, 1000000000⟩) 0 0 0
      timeIgnoreOverflow).2 = 0 := by decide +kernel
  exact absurd (h.1.mp hcode) (by decide)

end Sums

/-! ## Sums with milliseconds -/

section Milliseconds

open ClockTime

variable {dst : ClockTime} {msec more : UInt64}

/-- The loops of `eaf_time_addclock_msec` end: with enough turns they reach a
state in which their condition is false, and stay there. -/
def LoopsEnd (msec : UInt64) : Prop :=
  (∃ parts : UInt64 × UInt64, parts.2 < msecInSec ∧
    ∀ turns, msec.toNat ≤ turns → splitMsec turns 0 msec = parts) ∧
  ∀ t : ClockTime, ∃ sum : ClockTime, sum.tvNsec < nsecInSec ∧
    ∀ turns, t.tvNsec.toNat ≤ turns → t.carry turns = sum

theorem loops_end (msec : UInt64) : LoopsEnd msec := by
  constructor
  · refine ⟨(0 + UInt64.ofNat (msec.toNat / 1000),
      UInt64.ofNat (msec.toNat % 1000)), ?_, fun turns hturns => ?_⟩
    · have hmsec : msecInSec.toNat = 1000 := by decide
      rw [UInt64.lt_iff_toNat_lt, UInt64.toNat_ofNat', hmsec]
      omega
    · exact splitMsec_eq turns 0 msec ((Nat.div_le_self _ _).trans hturns)
  · intro t
    refine ⟨t.carried, UInt32.lt_iff_toNat_lt.mpr t.carried_lt,
      fun turns hturns => ?_⟩
    rw [t.carry_eq turns hturns, carried_eq]

/-- `eaf_time_addclock_msec` adds exactly, and says when it cannot. -/
def AddsMsec (dst : ClockTime) (msec : UInt64) : Prop :=
  let total := dst.nanos + msec.toNat * 1000000
  (total / 1000000000 < 2 ^ 64 → (timeAddclockMsec dst msec).2 = 0 ∧
    (timeAddclockMsec dst msec).1.Normal ∧
    (timeAddclockMsec dst msec).1.nanos = total) ∧
  (2 ^ 64 ≤ total / 1000000000 → (timeAddclockMsec dst msec).2 = -1 ∧
    (timeAddclockMsec dst msec).1 = dst)

theorem adds_msec (dst : ClockTime) (msec : UInt64) : AddsMsec dst msec := by
  unfold AddsMsec
  rw [timeAddclockMsec_eq]
  constructor
  · intro hover
    rw [if_pos hover]
    exact ⟨rfl, ofNanos_normal _, nanos_ofNanos hover⟩
  · intro hover
    rw [if_neg (not_lt.mpr hover)]
    exact ⟨rfl, rfl⟩

/-- A success means that there was room for the sum. -/
theorem timeAddclockMsec_success (h : (timeAddclockMsec dst msec).2 = 0) :
    (dst.nanos + msec.toNat * 1000000) / 1000000000 < 2 ^ 64 ∧
    timeAddclockMsec dst msec =
      (ofNanos (dst.nanos + msec.toNat * 1000000), 0) := by
  rw [timeAddclockMsec_eq] at h ⊢
  split at h
  · next hover =>
    rw [if_pos hover]
    exact ⟨hover, rfl⟩
  · cases h

/-- Two additions are one of the sum. -/
theorem timeAddclockMsec_add (hfit : msec.toNat + more.toNat < 2 ^ 64)
    (hfirst : (timeAddclockMsec dst msec).2 = 0)
    (hnext : (timeAddclockMsec (timeAddclockMsec dst msec).1 more).2 = 0) :
    timeAddclockMsec dst (msec + more) =
      timeAddclockMsec (timeAddclockMsec dst msec).1 more := by
  obtain ⟨hover, hsum⟩ := timeAddclockMsec_success hfirst
  obtain ⟨hroom, htotal⟩ := timeAddclockMsec_success hnext
  have hmsec : (msec + more).toNat = msec.toNat + more.toNat := by
    rw [UInt64.toNat_add, Nat.mod_eq_of_lt hfit]
  have hnanos : dst.nanos + (msec + more).toNat * 1000000 =
      (timeAddclockMsec dst msec).1.nanos + more.toNat * 1000000 := by
    rw [hsum, nanos_ofNanos hover, hmsec]
    omega
  rw [htotal, timeAddclockMsec_eq, hnanos, if_pos hroom]

/-- More milliseconds lead to a later time. -/
theorem timeAddclockMsec_lt (hless : msec < more)
    (hfirst : (timeAddclockMsec dst msec).2 = 0)
    (hnext : (timeAddclockMsec dst more).2 = 0) :
    (timeAddclockMsec dst msec).1.key < (timeAddclockMsec dst more).1.key := by
  obtain ⟨hover, hsum⟩ := timeAddclockMsec_success hfirst
  obtain ⟨hroom, htotal⟩ := timeAddclockMsec_success hnext
  rw [UInt64.lt_iff_toNat_lt] at hless
  rw [hsum, htotal, key_lt_iff (ofNanos_normal _) (ofNanos_normal _),
    nanos_ofNanos hover, nanos_ofNanos hroom]
  omega

/-- Milliseconds are added to any time exactly or not at all, the second of two
additions continues the first one, and more milliseconds lead to a later
time. -/
theorem msec_exact (dst : ClockTime) (msec : UInt64) :
    LoopsEnd msec ∧ AddsMsec dst msec ∧
    (∀ more : UInt64, msec.toNat + more.toNat < 2 ^ 64 →
      (timeAddclockMsec dst msec).2 = 0 →
      (timeAddclockMsec (timeAddclockMsec dst msec).1 more).2 = 0 →
      timeAddclockMsec dst (msec + more) =
        timeAddclockMsec (timeAddclockMsec dst msec).1 more) ∧
    ∀ more : UInt64, msec < more → (timeAddclockMsec dst msec).2 = 0 →
      (timeAddclockMsec dst more).2 = 0 →
      (timeAddclockMsec dst msec).1.key < (timeAddclockMsec dst more).1.key :=
  ⟨loops_end msec, adds_msec dst msec,
    fun _ => timeAddclockMsec_add, fun _ => timeAddclockMsec_lt⟩

/-- From `1.5` seconds, `700` and `800` milliseconds lead to `3`. -/
theorem msec_exact_run :
    timeAddclockMsec ⟨1, 500000000⟩ (700 + 800) =
      timeAddclockMsec (timeAddclockMsec ⟨1, 500000000⟩ 700).1 800 ∧
    (timeAddclockMsec ⟨1, 500000000⟩ 700).1.key <
      (timeAddclockMsec ⟨1, 500000000⟩ 800).1.key := by
  obtain ⟨-, -, hadd, hlt⟩ := msec_exact ⟨1, 500000000⟩ 700
  exact ⟨hadd 800 (by decide) (by decide +kernel) (by decide +kernel),
    hlt 800 (by decide) (by decide +kernel) (by decide +kernel)⟩

end Milliseconds

/-! ## The order of times and of the watchdog's records -/

section Comparisons

/-- A code that tells the order of two keys. -/
def TellsOrder {K : Type*} [LinearOrder K] (code : Int) (k k' : K) : Prop :=
  (k < k' ∧ code = -1) ∨ (k = k' ∧ code = 0) ∨ (k' < k ∧ code = 1)

/-- A comparison function is a strict total order on the keys of the elements
of a domain. -/
structure TotalOnKeys {α K : Type*} (Domain : α → Prop) (cmp : α → α → Int)
    (key : α → K) : Prop where
  antisymm : ∀ a b, Domain a → Domain b → (cmp a b < 0 ↔ 0 < cmp b a)
  trans : ∀ a b c, Domain a → Domain b → Domain c →
    cmp a b < 0 → cmp b c < 0 → cmp a c < 0
  zero : ∀ a b, Domain a → Domain b → (cmp a b = 0 ↔ key a = key b)

theorem TotalOnKeys.of_linear {α K : Type*} [LinearOrder K]
    {Domain : α → Prop} {cmp : α → α → Int} {key : α → K}
    (hneg : ∀ a b, cmp a b < 0 ↔ key a < key b)
    (hpos : ∀ a b, 0 < cmp a b ↔ key b < key a) :
    TotalOnKeys Domain cmp key where
  antisymm a b _ _ := by rw [hneg, hpos]
  trans a b c _ _ _ hab hbc := by
    rw [hneg] at hab hbc ⊢
    exact hab.trans hbc
  zero a b _ _ := by
    have hlt := hneg a b
    have hgt := hpos a b
    constructor
    · intro hzero
      have hle := hlt.not.mp (by omega)
      have hge := hgt.not.mp (by omega)
      exact le_antisymm (not_lt.mp hge) (not_lt.mp hle)
    · intro hsame
      have hle := hlt.not.mpr hsame.not_lt
      have hge := hgt.not.mpr hsame.symm.not_lt
      omega

/-- A token that `int` can hold and that is not negative. -/
def TokenInRange (s : Watchdog) (r : Nat) : Prop :=
  0 ≤ (s.record r).token ∧ (s.record r).token < 2 ^ 31

instance (s : Watchdog) (r : Nat) : Decidable (TokenInRange s r) :=
  inferInstanceAs (Decidable (_ ∧ _))

/-- `eaf_time_diffclock` compares times, in whatever objects they are, in the
lexicographic order, and the comparison functions of the watchdog are strict
total orders on the keys of the records; the difference of two tokens never
leaves the range of `int`. -/
theorem comparisons_total {Ptr : Type*} [DecidableEq Ptr]
    (mem : Ptr → ClockTime) (t1 t2 : Ptr) (T : List WatchItem) (s : Watchdog) :
    TellsOrder (diffclockAt mem t1 t2).1 (mem t1).key (mem t2).key ∧
    TotalOnKeys (fun _ => True) (s.cmpBegin T) (s.beginKey T) ∧
    TotalOnKeys (fun _ => True) s.cmpEnd s.endKey ∧
    TotalOnKeys (TokenInRange s) s.cmpToken (fun r => (s.record r).token) ∧
    ∀ r r', TokenInRange s r → TokenInRange s r' →
      -2 ^ 31 ≤ s.cmpToken r r' ∧ s.cmpToken r r' < 2 ^ 31 := by
  refine ⟨?_, .of_linear (s.cmpBegin_neg T) (s.cmpBegin_pos T),
    .of_linear s.cmpEnd_neg s.cmpEnd_pos,
    .of_linear s.cmpToken_neg s.cmpToken_pos, ?_⟩
  · rw [diffclockAt_eq, TellsOrder, ClockTime.key_inj]
    exact timeDiffclock_cases _ _
  · intro r r' hr hr'
    rw [TokenInRange] at hr hr'
    rw [Watchdog.cmpToken]
    omega

/-- Two records with different tokens. -/
theorem comparisons_total_tokens :
    -2 ^ 31 ≤ Watchdog.cmpToken ⟨[], [], [],
      some [⟨⟨0, 0⟩, ⟨0, 0⟩, 0, 0, 1⟩, ⟨⟨0, 0⟩, ⟨0, 0⟩, 0, 7, 2⟩], 2, 0, 0⟩ 0 1 := by
  have h := comparisons_total (fun _ : Fin 1 => ⟨0, 0⟩) 0 0 []
    ⟨[], [], [], some [⟨⟨0, 0⟩, ⟨0, 0⟩, 0, 0, 1⟩, ⟨⟨0, 0⟩, ⟨0, 0⟩, 0, 7, 2⟩],
      2, 0, 0⟩
  exact (h.2.2.2.2 0 1 (by decide) (by decide)).1

end Comparisons

end Powerpack
end Eaf
