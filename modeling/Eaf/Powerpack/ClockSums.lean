import Eaf.Powerpack.Clock

/-!
# Exact clock times

A clock time stands for a number of nanoseconds.  The functions of `time.c` are
described by what they do to that number; the seconds are counted modulo
`2 ^ 64`.
-/

namespace Eaf
namespace Powerpack

namespace ClockTime

variable {t : ClockTime} {n : Nat}

/-- A time in nanoseconds. -/
def nanos (t : ClockTime) : Nat :=
  t.tvSec.toNat * 1000000000 + t.tvNsec.toNat

/-- The time in whole seconds. -/
def seconds (t : ClockTime) : Nat := t.nanos / 1000000000

/-- There is less than a second in the nanoseconds. -/
def Normal (t : ClockTime) : Prop := t.tvNsec < nsecInSec

instance (t : ClockTime) : Decidable t.Normal := inferInstanceAs (Decidable (_ < _))

/-- The normal form of a number of nanoseconds, with the seconds modulo
`2 ^ 64`. -/
def ofNanos (n : Nat) : ClockTime :=
  ⟨UInt64.ofNat (n / 1000000000), UInt32.ofNat (n % 1000000000)⟩

theorem normal_iff : t.Normal ↔ t.tvNsec.toNat < 1000000000 := by
  rw [Normal, UInt32.lt_iff_toNat_lt, nsecInSec_toNat]

theorem ofNanos_sec (n : Nat) :
    (ofNanos n).tvSec.toNat = n / 1000000000 % 2 ^ 64 := UInt64.toNat_ofNat'

theorem ofNanos_nsec (n : Nat) :
    (ofNanos n).tvNsec.toNat = n % 1000000000 := by
  rw [ofNanos, UInt32.toNat_ofNat']
  omega

theorem ofNanos_normal (n : Nat) : (ofNanos n).Normal := by
  rw [normal_iff, ofNanos_nsec]
  omega

/-- Without overflow, the normal form stands for the same number. -/
theorem nanos_ofNanos (h : n / 1000000000 < 2 ^ 64) : (ofNanos n).nanos = n := by
  rw [nanos, ofNanos_sec, ofNanos_nsec]
  omega

theorem ofNanos_nanos (h : t.Normal) : ofNanos t.nanos = t := by
  have hnsec := normal_iff.mp h
  have hsec := t.tvSec.toNat_lt
  refine ClockTime.ext (UInt64.toNat_inj.mp ?_) (UInt32.toNat_inj.mp ?_)
  · rw [ofNanos_sec, nanos]
    omega
  · rw [ofNanos_nsec, nanos]
    omega

/-- A time has no more than four seconds too many. -/
theorem seconds_le (t : ClockTime) : t.seconds ≤ t.tvSec.toNat + 4 := by
  have hnsec := t.tvNsec.toNat_lt
  rw [seconds, nanos]
  omega

theorem tvSec_le_seconds (t : ClockTime) : t.tvSec.toNat ≤ t.seconds := by
  rw [seconds, nanos]
  omega

/-- The loops compute the normal form. -/
theorem carried_eq_ofNanos (t : ClockTime) : t.carried = ofNanos t.nanos := by
  have hsec : t.nanos / 1000000000 =
      t.tvSec.toNat + t.tvNsec.toNat / 1000000000 := by
    rw [nanos]
    omega
  have hnsec : t.nanos % 1000000000 = t.tvNsec.toNat % 1000000000 := by
    rw [nanos]
    omega
  rw [carried_eq, nsecInSec_toNat, ofNanos, hsec, hnsec, UInt64.ofNat_add,
    UInt64.ofNat_toNat]

end ClockTime

/-- How often the seconds have gone round in one part of an addition. -/
def wrapped (after before : UInt64) : Nat := if after < before then 1 else 0

/-- What the carry adds to the seconds, with the turn that is seen. -/
theorem ClockTime.carried_wrapped (t : ClockTime) :
    t.carried.tvSec.toNat + 2 ^ 64 * wrapped t.carried.tvSec t.tvSec =
      t.seconds := by
  have hle := t.seconds_le
  have hge := t.tvSec_le_seconds
  have hlt := t.tvSec.toNat_lt
  have hsec : t.carried.tvSec.toNat = t.seconds % 2 ^ 64 := by
    rw [carried_eq_ofNanos, ofNanos_sec, seconds]
  simp only [wrapped, UInt64.lt_iff_toNat_lt, hsec]
  split <;> omega

/-- What an addition adds to the seconds, with the turn that is seen. -/
theorem add_wrapped (a b : UInt64) :
    (a + b).toNat + 2 ^ 64 * wrapped (a + b) a = a.toNat + b.toNat := by
  have ha := a.toNat_lt
  have hb := b.toNat_lt
  simp only [wrapped, UInt64.lt_iff_toNat_lt, UInt64.toNat_add]
  split <;> omega

/-! ## Adding -/

section Adding

open ClockTime

variable (dst src dif : ClockTime) (flags : UInt32)

/-- The time after the second part: the seconds of `dif` are added, and its
nanoseconds are to follow. -/
def secondsAdded : ClockTime :=
  ⟨src.carried.tvSec + dif.tvSec, dif.tvNsec⟩

theorem secondsAdded_sec : (secondsAdded src dif).tvSec =
    src.carried.tvSec + dif.tvSec := rfl

/-- The time before the last carry. -/
def nanosAdded : ClockTime :=
  ⟨(secondsAdded src dif).carried.tvSec,
    src.carried.tvNsec + (secondsAdded src dif).carried.tvNsec⟩

/-- The turns of the first part. -/
def firstWraps : Nat := wrapped src.carried.tvSec src.tvSec

/-- The turns of the other parts. -/
def laterWraps : Nat :=
  wrapped (secondsAdded src dif).tvSec src.carried.tvSec +
  wrapped (secondsAdded src dif).carried.tvSec (secondsAdded src dif).tvSec +
  wrapped (nanosAdded src dif).carried.tvSec (nanosAdded src dif).tvSec

/-- What `eaf_time_addclock_ext` does in terms of the turns. -/
theorem timeAddclockExt_wraps :
    timeAddclockExt dst src dif flags =
      if firstWraps src = 0 ∧ laterWraps src dif = 0 then
        ((nanosAdded src dif).carried, 0)
      else if stopsOnOverflow flags then (dst, -1)
      else ((nanosAdded src dif).carried,
        if laterWraps src dif = firstWraps src then 0 else -1) := by
  unfold firstWraps laterWraps wrapped
  by_cases hfirst : src.carried.tvSec < src.tvSec
  all_goals by_cases hstop : stopsOnOverflow flags = true
  all_goals by_cases hsecond :
    src.carried.tvSec + dif.tvSec < src.carried.tvSec
  all_goals by_cases hthird : (secondsAdded src dif).carried.tvSec <
    (secondsAdded src dif).tvSec
  all_goals by_cases hfourth : (nanosAdded src dif).carried.tvSec <
    (nanosAdded src dif).tvSec
  all_goals
    have hadded := hthird
    have hsum := hfourth
    unfold nanosAdded secondsAdded at hsum
    unfold secondsAdded at hadded
    simp [timeAddclockExt, timeFmtclockExt, hfirst, hstop, hsecond,
      hadded, hsum, nanosAdded, secondsAdded]

/-- The sum before the last carry, and the turns before it. -/
theorem nanosAdded_nanos :
    (nanosAdded src dif).nanos + (2 ^ 64 * 1000000000) *
      (firstWraps src + wrapped (secondsAdded src dif).tvSec src.carried.tvSec +
        wrapped (secondsAdded src dif).carried.tvSec
          (secondsAdded src dif).tvSec) =
      src.nanos + dif.nanos := by
  have hfirst := src.carried_wrapped
  have hsecond := add_wrapped src.carried.tvSec dif.tvSec
  have hthird := (secondsAdded src dif).carried_wrapped
  rw [seconds] at hfirst hthird
  rw [secondsAdded_sec] at hthird
  have hrest : (secondsAdded src dif).nanos =
      (src.carried.tvSec + dif.tvSec).toNat * 1000000000 + dif.tvNsec.toNat :=
    rfl
  have hsum : (nanosAdded src dif).nanos =
      (secondsAdded src dif).carried.tvSec.toNat * 1000000000 +
        (src.carried.tvNsec + (secondsAdded src dif).carried.tvNsec).toNat :=
    rfl
  have hnsec : (src.carried.tvNsec + (secondsAdded src dif).carried.tvNsec).toNat =
      src.nanos % 1000000000 + dif.tvNsec.toNat % 1000000000 := by
    rw [UInt32.toNat_add, carried_eq_ofNanos, carried_eq_ofNanos,
      ofNanos_nsec, ofNanos_nsec, hrest]
    omega
  have hdif : dif.nanos = dif.tvSec.toNat * 1000000000 + dif.tvNsec.toNat := rfl
  rw [hsum, hnsec, firstWraps, secondsAdded_sec]
  omega

/-- The seconds of the exact sum tell the turns. -/
theorem wraps_eq : firstWraps src + laterWraps src dif =
    (src.nanos + dif.nanos) / 1000000000 / 2 ^ 64 := by
  have hsum := nanosAdded_nanos src dif
  have hlast := (nanosAdded src dif).carried_wrapped
  have hlt := (nanosAdded src dif).carried.tvSec.toNat_lt
  rw [seconds] at hlast
  rw [laterWraps]
  omega

/-- Turns of the seconds do not show in the normal form. -/
theorem ClockTime.ofNanos_turns (n k : Nat) :
    ofNanos (n + (2 ^ 64 * 1000000000) * k) = ofNanos n := by
  refine ClockTime.ext (UInt64.toNat_inj.mp ?_) (UInt32.toNat_inj.mp ?_)
  · rw [ofNanos_sec, ofNanos_sec]
    omega
  · rw [ofNanos_nsec, ofNanos_nsec]
    omega

theorem nanosAdded_carried :
    (nanosAdded src dif).carried = ofNanos (src.nanos + dif.nanos) := by
  rw [carried_eq_ofNanos, ← nanosAdded_nanos, ofNanos_turns]

/-- A first turn is one of the source. -/
theorem firstWraps_eq : firstWraps src = src.seconds / 2 ^ 64 := by
  have hwrap := src.carried_wrapped
  have hlt := src.carried.tvSec.toNat_lt
  rw [← firstWraps] at hwrap
  omega

/-- The seconds of a sum go round twice at most. -/
theorem wraps_le : (src.nanos + dif.nanos) / 1000000000 < 3 * 2 ^ 64 := by
  have hsrc := src.tvSec.toNat_lt
  have hdif := dif.tvSec.toNat_lt
  have hsrcNsec := src.tvNsec.toNat_lt
  have hdifNsec := dif.tvNsec.toNat_lt
  rw [nanos, nanos]
  omega

/-- What `eaf_time_addclock_ext` does.  When overflows are ignored and the
source has one of its own, then a second one makes up for it in the sum of the
flags. -/
theorem timeAddclockExt_eq :
    timeAddclockExt dst src dif flags =
      if (src.nanos + dif.nanos) / 1000000000 < 2 ^ 64 then
        (ofNanos (src.nanos + dif.nanos), 0)
      else if stopsOnOverflow flags then (dst, -1)
      else (ofNanos (src.nanos + dif.nanos),
        if 2 ^ 64 ≤ src.seconds ∧
          2 ^ 65 ≤ (src.nanos + dif.nanos) / 1000000000 then 0 else -1) := by
  have hwraps := wraps_eq src dif
  have hfirst := firstWraps_eq src
  have hle := wraps_le src dif
  have hmax := src.seconds_le
  have hsec := src.tvSec.toNat_lt
  have hnone : firstWraps src = 0 ∧ laterWraps src dif = 0 ↔
      (src.nanos + dif.nanos) / 1000000000 < 2 ^ 64 := by omega
  rw [timeAddclockExt_wraps, nanosAdded_carried]
  by_cases hover : (src.nanos + dif.nanos) / 1000000000 < 2 ^ 64
  · rw [if_pos hover, if_pos (hnone.mpr hover)]
  · have hmade : laterWraps src dif = firstWraps src ↔ 2 ^ 64 ≤ src.seconds ∧
        2 ^ 65 ≤ (src.nanos + dif.nanos) / 1000000000 := by omega
    rw [if_neg hover, if_neg (hnone.not.mpr hover), if_congr hmade rfl rfl]

/-- An addition that minds overflows. -/
theorem timeAddclock_eq : timeAddclock dst dif =
    if (dst.nanos + dif.nanos) / 1000000000 < 2 ^ 64 then
      (ofNanos (dst.nanos + dif.nanos), 0)
    else (dst, -1) := by
  have hstop : stopsOnOverflow 0 = true := rfl
  rw [timeAddclock, timeAddclockExt_eq, if_pos hstop]

/-! ## Adding milliseconds -/

/-- The loop divides the milliseconds by those of a second. -/
theorem splitMsec_eq (turns : Nat) (sec msec : UInt64)
    (h : msec.toNat / 1000 ≤ turns) :
    splitMsec turns sec msec =
      (sec + UInt64.ofNat (msec.toNat / 1000), UInt64.ofNat (msec.toNat % 1000)) := by
  have hmsec : msecInSec.toNat = 1000 := by decide
  induction turns generalizing sec msec with
  | zero =>
      have hsmall : msec.toNat < 1000 := by omega
      rw [splitMsec, Nat.div_eq_of_lt hsmall, Nat.mod_eq_of_lt hsmall,
        UInt64.ofNat_toNat]
      exact congrArg (·, msec) (UInt64.add_zero sec).symm
  | succ turns ih =>
      rw [splitMsec]
      by_cases hge : msec ≥ msecInSec
      · rw [if_pos hge]
        have hge' := UInt64.le_iff_toNat_le.mp hge
        have hsub := UInt64.toNat_sub_of_le _ _ hge
        rw [hmsec] at hge' hsub
        have hdiv : (msec.toNat - 1000) / 1000 + 1 = msec.toNat / 1000 := by omega
        have hmod : (msec.toNat - 1000) % 1000 = msec.toNat % 1000 := by omega
        rw [ih _ _ (by omega), hsub, hmod, ← hdiv, UInt64.ofNat_add,
          UInt64.add_comm (UInt64.ofNat _), ← UInt64.add_assoc]
        rfl
      · rw [if_neg hge]
        have hlt := UInt64.le_iff_toNat_le.not.mp hge
        rw [hmsec] at hlt
        have hsmall : msec.toNat < 1000 := by omega
        rw [Nat.div_eq_of_lt hsmall, Nat.mod_eq_of_lt hsmall, UInt64.ofNat_toNat]
        exact congrArg (·, msec) (UInt64.add_zero sec).symm

/-- Milliseconds are added exactly. -/
theorem timeAddclockMsec_eq (msec : UInt64) : timeAddclockMsec dst msec =
    if (dst.nanos + msec.toNat * 1000000) / 1000000000 < 2 ^ 64 then
      (ofNanos (dst.nanos + msec.toNat * 1000000), 0)
    else (dst, -1) := by
  have hsplit := splitMsec_eq msec.toNat 0 msec (Nat.div_le_self _ _)
  have hlt := msec.toNat_lt
  have hnanos : ClockTime.nanos ⟨0 + UInt64.ofNat (msec.toNat / 1000),
      (UInt64.ofNat (msec.toNat % 1000) * 1000 * 1000).toUInt32⟩ =
      msec.toNat * 1000000 := by
    have hthousand : UInt64.toNat 1000 = 1000 := rfl
    have hrest : msec.toNat % 1000 < 1000 := Nat.mod_lt _ (by omega)
    rw [nanos, UInt64.zero_add, UInt64.toNat_ofNat', UInt64.toNat_toUInt32,
      UInt64.toNat_mul, UInt64.toNat_mul, hthousand, UInt64.toNat_ofNat']
    -- what is left of the milliseconds fits into 32 bits of nanoseconds
    simp (disch := omega) only [Nat.mod_eq_of_lt]
    omega
  rw [timeAddclockMsec, hsplit]
  show timeAddclock dst ⟨_, _⟩ = _
  rw [timeAddclock_eq, hnanos]

end Adding

/-! ## Differences -/

section Differences

open ClockTime

variable {t1 t2 : ClockTime}

theorem key_lt_iff (h1 : t1.Normal) (h2 : t2.Normal) :
    t1.key < t2.key ↔ t1.nanos < t2.nanos := by
  rw [normal_iff] at h1 h2
  rw [key_lt, nanos, nanos]
  omega

theorem timeDiffclock_dif (t1 t2 : ClockTime) : (timeDiffclock t1 t2).2 =
    if t2.key < t1.key then t1.minus t2 else t2.minus t1 := by
  have hdif : (timeDiffclock t1 t2).2 =
      if t1.isLarge t2 then t1.minus t2 else t2.minus t1 := by
    unfold timeDiffclock
    simp only [apply_ite Prod.snd, ite_self]
  rw [hdif, if_congr isLarge_iff rfl rfl]

/-- Without a borrow the difference is exact. -/
theorem ClockTime.minus_nanos (hkey : t2.key ≤ t1.key)
    (hnsec : t2.tvNsec.toNat ≤ t1.tvNsec.toNat) :
    (t1.minus t2).nanos = t1.nanos - t2.nanos := by
  rw [← not_lt, key_lt] at hkey
  have hsec : t2.tvSec.toNat ≤ t1.tvSec.toNat := by omega
  rw [minus, if_neg (UInt32.lt_iff_toNat_lt.not.mpr (not_lt.mpr hnsec)), nanos,
    nanos, nanos, UInt64.toNat_sub_of_le _ _ (UInt64.le_iff_toNat_le.mpr hsec),
    UInt32.toNat_sub_of_le _ _ (UInt32.le_iff_toNat_le.mpr hnsec)]
  omega

/-- With a borrow the nanoseconds are subtracted the wrong way round. -/
theorem ClockTime.minus_nanos_borrow (h2 : t2.Normal) (hkey : t2.key ≤ t1.key)
    (hnsec : t1.tvNsec.toNat < t2.tvNsec.toNat) :
    (t1.minus t2).nanos + 1000000000 + 2 * t1.tvNsec.toNat =
      t1.nanos - t2.nanos + 2 * t2.tvNsec.toNat := by
  rw [← not_lt, key_lt] at hkey
  have hsec : t2.tvSec.toNat < t1.tvSec.toNat := by omega
  have hless : t1.tvNsec < t2.tvNsec := UInt32.lt_iff_toNat_lt.mpr hnsec
  have hone : UInt64.toNat 1 = 1 := rfl
  have hdif := UInt64.toNat_sub_of_le t1.tvSec t2.tvSec
    (UInt64.le_iff_toNat_le.mpr hsec.le)
  have hborrow : (1 : UInt64) ≤ t1.tvSec - t2.tvSec := by
    rw [UInt64.le_iff_toNat_le, hdif, hone]
    omega
  rw [minus, if_pos hless, nanos, nanos, nanos,
    UInt64.toNat_sub_of_le _ _ hborrow, hdif, hone,
    UInt32.toNat_sub_of_le _ _ (UInt32.le_iff_toNat_le.mpr hnsec.le)]
  rw [normal_iff] at h2
  omega

end Differences

/-! ## Times in objects -/

section Objects

variable {Ptr : Type*} [DecidableEq Ptr]

/-- `eaf_time_addclock_ext` on objects.  All of `src` and `dif` is read before
`dst` is written. -/
def addclockExtAt (mem : Ptr → ClockTime) (dst src dif : Ptr) (flags : UInt32) :
    (Ptr → ClockTime) × Int :=
  let sum := timeAddclockExt (mem dst) (mem src) (mem dif) flags
  (Function.update mem dst sum.1, sum.2)

/-- `eaf_time_diffclock` on objects.  The code is told from the pointers. -/
def diffclockAt (mem : Ptr → ClockTime) (t1 t2 : Ptr) : Int × ClockTime :=
  let large_t := if (mem t1).isLarge (mem t2) then t1 else t2
  let little_t := if large_t = t1 then t2 else t1
  let dif := (mem large_t).minus (mem little_t)
  if dif.tvSec = 0 ∧ dif.tvNsec = 0 then (0, dif)
  else (if t1 = little_t then -1 else 1, dif)

/-- Only the values of the objects matter. -/
theorem diffclockAt_eq (mem : Ptr → ClockTime) (t1 t2 : Ptr) :
    diffclockAt mem t1 t2 = timeDiffclock (mem t1) (mem t2) := by
  unfold diffclockAt timeDiffclock
  by_cases hptr : t1 = t2
  · subst hptr
    have hzero := ClockTime.minus_eq_zero.mpr (rfl : mem t1 = mem t1)
    simp only [ite_self, if_true, if_pos hzero]
  · have hswap : ¬ t2 = t1 := fun h => hptr h.symm
    by_cases hlarge : (mem t1).isLarge (mem t2) = true
    · simp only [hlarge, if_true, hptr, if_false]
    · simp only [if_neg hlarge, hswap, if_true, if_false]

end Objects

end Powerpack
end Eaf
