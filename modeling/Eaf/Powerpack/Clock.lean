import Mathlib.Data.Nat.Basic
import Mathlib.Data.Prod.Lex
import Mathlib.Tactic.Ring

/-!
# Clock times

The functions of `time.c` on clock times.  A time is a number of seconds and a
number of nanoseconds, which need not be less than a second.  Times are
compared in the lexicographic order, and adding milliseconds to a time never
makes it smaller.
-/

namespace Eaf
namespace Powerpack

/-- `eaf_clock_time_t` -/
@[ext]
structure ClockTime where
  tvSec : UInt64
  tvNsec : UInt32
  deriving DecidableEq, Repr, Inhabited

/-- `NSEC_IN_SEC` -/
def nsecInSec : UInt32 := 1000000000

/-- `MSEC_IN_SEC` -/
def msecInSec : UInt64 := 1000

/-- `EAF_TIME_IGNORE_OVERFLOW` -/
def timeIgnoreOverflow : UInt32 := 1

/-- `!(flags & EAF_TIME_IGNORE_OVERFLOW)` -/
def stopsOnOverflow (flags : UInt32) : Bool := flags &&& timeIgnoreOverflow == 0

/-- The time `t1` is chosen as `large_t` in `eaf_time_diffclock`. -/
def ClockTime.isLarge (t1 t2 : ClockTime) : Bool :=
  if t1.tvSec > t2.tvSec then true
  else if t1.tvSec < t2.tvSec then false
  else t1.tvNsec > t2.tvNsec

/-- `tmp_dif` in `eaf_time_diffclock` -/
def ClockTime.minus (large little : ClockTime) : ClockTime :=
  if large.tvNsec < little.tvNsec then
    ⟨large.tvSec - little.tvSec - 1, little.tvNsec - large.tvNsec⟩
  else ⟨large.tvSec - little.tvSec, large.tvNsec - little.tvNsec⟩

/-- `eaf_time_diffclock`: the code it returns, and the difference.  For two
pointers to one object the difference is zero, and the code is 0 too. -/
def timeDiffclock (t1 t2 : ClockTime) : Int × ClockTime :=
  let dif := if t1.isLarge t2 then t1.minus t2 else t2.minus t1
  if dif.tvSec = 0 ∧ dif.tvNsec = 0 then (0, dif)
  else if t1.isLarge t2 then (1, dif) else (-1, dif)

/-- The loops that turn whole seconds of `tv_nsec` into seconds. -/
def ClockTime.carry : Nat → ClockTime → ClockTime
  | 0, t => t
  | turns + 1, t =>
      if t.tvNsec ≥ nsecInSec then
        carry turns ⟨t.tvSec + 1, t.tvNsec - nsecInSec⟩
      else t

/-- The loop runs until it ends. -/
def ClockTime.carried (t : ClockTime) : ClockTime := t.carry t.tvNsec.toNat

/-- `eaf_time_fmtclock_ext`: what is in `dst` afterwards, and the code. -/
def timeFmtclockExt (dst src : ClockTime) (flags : UInt32) : ClockTime × Int :=
  let tmp := src.carried
  if tmp.tvSec < src.tvSec then
    (if stopsOnOverflow flags then dst else tmp, -1)
  else (tmp, 0)

/-- `eaf_time_addclock_ext`: what is in `dst` afterwards, and the code.  The
overflows of the four parts are added up with their signs. -/
def timeAddclockExt (dst src dif : ClockTime) (flags : UInt32) :
    ClockTime × Int :=
  let code := fun (flag : Int) => if flag = 0 then (0 : Int) else -1
  -- copy src to tmp
  let (tmp, step) := timeFmtclockExt ⟨0, 0⟩ src flags
  let flag := step
  if step ≠ 0 ∧ stopsOnOverflow flags then (dst, code flag)
  else
    -- add seconds
    let sec := tmp.tvSec + dif.tvSec
    let step : Int := if sec < tmp.tvSec then 1 else 0
    let flag := flag + step
    if step ≠ 0 ∧ stopsOnOverflow flags then (dst, code flag)
    else
      -- the seconds in the nanoseconds of dif
      let rest := ClockTime.carried ⟨sec, dif.tvNsec⟩
      let step : Int := if rest.tvSec < sec then 1 else 0
      let flag := flag + step
      if step ≠ 0 ∧ stopsOnOverflow flags then (dst, code flag)
      else
        -- the seconds in the sum of the nanoseconds
        let sum : ClockTime := ⟨rest.tvSec, tmp.tvNsec + rest.tvNsec⟩
        let step : Int := if sum.carried.tvSec < sum.tvSec then 1 else 0
        let flag := flag + step
        if step ≠ 0 ∧ stopsOnOverflow flags then (dst, code flag)
        else (sum.carried, code flag)

/-- `eaf_time_addclock` -/
def timeAddclock (dst dif : ClockTime) : ClockTime × Int :=
  timeAddclockExt dst dst dif 0

/-- The loop of `eaf_time_addclock_msec`. -/
def splitMsec : Nat → UInt64 → UInt64 → UInt64 × UInt64
  | 0, sec, msec => (sec, msec)
  | turns + 1, sec, msec =>
      if msec ≥ msecInSec then splitMsec turns (sec + 1) (msec - msecInSec)
      else (sec, msec)

/-- `eaf_time_addclock_msec` -/
def timeAddclockMsec (dst : ClockTime) (msec : UInt64) : ClockTime × Int :=
  let (sec, msec) := splitMsec msec.toNat 0 msec
  timeAddclock dst ⟨sec, (msec * 1000 * 1000).toUInt32⟩

/-! ## The order of times -/

/-- What times are compared by. -/
def ClockTime.key (t : ClockTime) : ℕ ×ₗ ℕ :=
  toLex (t.tvSec.toNat, t.tvNsec.toNat)

section Order

variable {t t1 t2 : ClockTime}

theorem ClockTime.key_inj : t1.key = t2.key ↔ t1 = t2 := by
  constructor
  · intro h
    obtain ⟨hsec, hnsec⟩ := Prod.mk.inj (toLex.injective h)
    obtain ⟨sec, nsec⟩ := t1
    obtain ⟨sec', nsec'⟩ := t2
    rw [ClockTime.mk.injEq]
    exact ⟨UInt64.toNat_inj.mp hsec, UInt32.toNat_inj.mp hnsec⟩
  · rintro rfl
    rfl

theorem ClockTime.key_lt : t1.key < t2.key ↔
    t1.tvSec.toNat < t2.tvSec.toNat ∨
      t1.tvSec.toNat = t2.tvSec.toNat ∧ t1.tvNsec.toNat < t2.tvNsec.toNat :=
  Prod.Lex.toLex_lt_toLex

theorem ClockTime.isLarge_iff : t1.isLarge t2 = true ↔ t2.key < t1.key := by
  rw [key_lt, isLarge]
  by_cases hgt : t1.tvSec > t2.tvSec
  · simp [hgt, UInt64.lt_iff_toNat_lt.mp hgt]
  · by_cases hlt : t1.tvSec < t2.tvSec
    · have hlt' := UInt64.lt_iff_toNat_lt.mp hlt
      simp only [hgt, hlt, if_true, if_false]
      constructor
      · intro h
        cases h
      · omega
    · have hgt' := UInt64.lt_iff_toNat_lt.not.mp hgt
      have hlt' := UInt64.lt_iff_toNat_lt.not.mp hlt
      simp only [hgt, hlt, if_false, decide_eq_true_eq, gt_iff_lt,
        UInt32.lt_iff_toNat_lt]
      omega

/-- The difference is zero only for equal times. -/
theorem ClockTime.minus_eq_zero :
    (t1.minus t2).tvSec = 0 ∧ (t1.minus t2).tvNsec = 0 ↔ t1 = t2 := by
  unfold minus
  split
  · next hborrow =>
    have hlt := UInt32.lt_iff_toNat_lt.mp hborrow
    constructor
    · rintro ⟨-, hnsec⟩
      rw [UInt32.sub_eq_iff_eq_add, UInt32.zero_add] at hnsec
      rw [hnsec] at hlt
      omega
    · rintro rfl
      omega
  · constructor
    · rintro ⟨hsec, hnsec⟩
      rw [UInt64.sub_eq_iff_eq_add, UInt64.zero_add] at hsec
      rw [UInt32.sub_eq_iff_eq_add, UInt32.zero_add] at hnsec
      obtain ⟨sec, nsec⟩ := t1
      rw [ClockTime.mk.injEq]
      exact ⟨hsec, hnsec⟩
    · rintro rfl
      exact ⟨UInt64.sub_self _, UInt32.sub_self _⟩

/-- The code tells the order of the times. -/
theorem timeDiffclock_cases (t1 t2 : ClockTime) :
    (t1.key < t2.key ∧ (timeDiffclock t1 t2).1 = -1) ∨
    (t1 = t2 ∧ (timeDiffclock t1 t2).1 = 0) ∨
    (t2.key < t1.key ∧ (timeDiffclock t1 t2).1 = 1) := by
  by_cases heq : t1 = t2
  · right
    left
    subst heq
    have hzero := ClockTime.minus_eq_zero.mpr (rfl : t1 = t1)
    exact ⟨rfl, by simp only [timeDiffclock, ite_self, if_pos hzero]⟩
  · have hkey : t1.key ≠ t2.key := fun h => heq (ClockTime.key_inj.mp h)
    by_cases hlarge : t1.isLarge t2 = true
    · right
      right
      have hdif := ClockTime.minus_eq_zero.not.mpr heq
      refine ⟨ClockTime.isLarge_iff.mp hlarge, ?_⟩
      simp only [timeDiffclock, if_pos hlarge, if_neg hdif]
    · left
      have hdif := ClockTime.minus_eq_zero.not.mpr (Ne.symm heq)
      refine ⟨?_, by simp only [timeDiffclock, if_neg hlarge, if_neg hdif]⟩
      have hle := not_lt.mp fun h => hlarge (ClockTime.isLarge_iff.mpr h)
      exact lt_of_le_of_ne hle hkey

theorem timeDiffclock_neg : (timeDiffclock t1 t2).1 < 0 ↔ t1.key < t2.key := by
  rcases timeDiffclock_cases t1 t2 with
    ⟨hlt, hcode⟩ | ⟨rfl, hcode⟩ | ⟨hgt, hcode⟩
  · simp [hcode, hlt]
  · simp [hcode]
  · simp [hcode, hgt.le]

theorem timeDiffclock_pos : 0 < (timeDiffclock t1 t2).1 ↔ t2.key < t1.key := by
  rcases timeDiffclock_cases t1 t2 with
    ⟨hlt, hcode⟩ | ⟨rfl, hcode⟩ | ⟨hgt, hcode⟩
  · simp [hcode, hlt.le]
  · simp [hcode]
  · simp [hcode, hgt]

theorem timeDiffclock_zero : (timeDiffclock t1 t2).1 = 0 ↔ t1 = t2 := by
  rcases timeDiffclock_cases t1 t2 with
    ⟨hlt, hcode⟩ | ⟨rfl, hcode⟩ | ⟨hgt, hcode⟩
  · rw [hcode, ← ClockTime.key_inj]
    simp [hlt.ne]
  · simp [hcode]
  · rw [hcode, ← ClockTime.key_inj]
    simp [hgt.ne']

end Order

/-! ## Adding to a time -/

section Adding

variable {dst src dif t : ClockTime} {flags : UInt32}

theorem nsecInSec_toNat : nsecInSec.toNat = 1000000000 := by decide

/-- The loops divide the nanoseconds by those of a second. -/
theorem ClockTime.carry_eq (turns : Nat) (t : ClockTime)
    (h : t.tvNsec.toNat ≤ turns) :
    t.carry turns =
      ⟨t.tvSec + UInt64.ofNat (t.tvNsec.toNat / nsecInSec.toNat),
        UInt32.ofNat (t.tvNsec.toNat % nsecInSec.toNat)⟩ := by
  induction turns generalizing t with
  | zero =>
      rw [carry, Nat.le_zero.mp h, Nat.zero_div, Nat.zero_mod]
      rw [ClockTime.ext_iff]
      exact ⟨(UInt64.add_zero _).symm, UInt32.toNat_inj.mp (Nat.le_zero.mp h)⟩
  | succ turns ih =>
      have hpos : 0 < nsecInSec.toNat := by
        rw [nsecInSec_toNat]
        omega
      rw [carry]
      split
      · next hge =>
        have hge' := UInt32.le_iff_toNat_le.mp hge
        have hsub := UInt32.toNat_sub_of_le _ _ hge
        have hdiv : (t.tvNsec.toNat - nsecInSec.toNat) / nsecInSec.toNat + 1 =
            t.tvNsec.toNat / nsecInSec.toNat := by
          conv_rhs => rw [← Nat.sub_add_cancel hge']
          rw [Nat.add_div_right _ hpos]
        have hmod : (t.tvNsec.toNat - nsecInSec.toNat) % nsecInSec.toNat =
            t.tvNsec.toNat % nsecInSec.toNat := by
          conv_rhs => rw [← Nat.sub_add_cancel hge']
          rw [Nat.add_mod_right]
        rw [ih _ (by rw [hsub]; omega), hsub, hmod, ← hdiv, UInt64.ofNat_add,
          UInt64.add_comm (UInt64.ofNat _), ← UInt64.add_assoc]
        rfl
      · next hlt =>
        have hlt' := Nat.lt_of_not_le (UInt32.le_iff_toNat_le.not.mp hlt)
        rw [Nat.div_eq_of_lt hlt', Nat.mod_eq_of_lt hlt', UInt32.ofNat_toNat]
        rw [ClockTime.ext_iff]
        exact ⟨(UInt64.add_zero _).symm, rfl⟩

theorem ClockTime.carried_eq (t : ClockTime) :
    t.carried = ⟨t.tvSec + UInt64.ofNat (t.tvNsec.toNat / nsecInSec.toNat),
      UInt32.ofNat (t.tvNsec.toNat % nsecInSec.toNat)⟩ :=
  t.carry_eq _ le_rfl

/-- A normal form has less than a second in its nanoseconds. -/
theorem ClockTime.carried_lt (t : ClockTime) :
    t.carried.tvNsec.toNat < nsecInSec.toNat := by
  have hpos : 0 < nsecInSec.toNat := by
    rw [nsecInSec_toNat]
    omega
  have hlt := Nat.mod_lt t.tvNsec.toNat hpos
  rw [carried_eq, UInt32.toNat_ofNat_of_lt' (hlt.trans nsecInSec.toNat_lt)]
  exact hlt

/-- Where the seconds do not overflow, the normal form is no less. -/
theorem ClockTime.carried_le (h : ¬ t.carried.tvSec < t.tvSec) :
    t.key ≤ t.carried.key := by
  rw [UInt64.lt_iff_toNat_lt, not_lt] at h
  rcases Nat.eq_zero_or_pos (t.tvNsec.toNat / nsecInSec.toNat) with
    hzero | hcarry
  · have hsame : t.carried = t := by
      rw [carried_eq, hzero]
      rw [ClockTime.ext_iff]
      have hlt := (Nat.div_eq_zero_iff_lt (by rw [nsecInSec_toNat]; omega)).mp hzero
      exact ⟨UInt64.add_zero _, by
        rw [Nat.mod_eq_of_lt hlt, UInt32.ofNat_toNat]⟩
    rw [hsame]
  · apply le_of_lt
    rw [key_lt]
    left
    have hbound : t.tvNsec.toNat / nsecInSec.toNat < 2 ^ 32 :=
      (Nat.div_le_self _ _).trans_lt t.tvNsec.toNat_lt
    have hsec : t.carried.tvSec.toNat = (t.tvSec.toNat +
        t.tvNsec.toNat / nsecInSec.toNat) % 2 ^ 64 := by
      rw [carried_eq, UInt64.toNat_add, UInt64.toNat_ofNat']
      omega
    have hmax := t.tvSec.toNat_lt
    omega

/-- An addition that minds overflows leaves the time alone, or none of its
four parts has overflowed. -/
theorem timeAddclock_cases (dst dif : ClockTime) :
    (timeAddclock dst dif).1 = dst ∨ ∃ rest sum : ClockTime,
      ¬ dst.carried.tvSec < dst.tvSec ∧
      ¬ dst.carried.tvSec + dif.tvSec < dst.carried.tvSec ∧
      rest = ClockTime.carried ⟨dst.carried.tvSec + dif.tvSec, dif.tvNsec⟩ ∧
      ¬ rest.tvSec < dst.carried.tvSec + dif.tvSec ∧
      sum = ⟨rest.tvSec, dst.carried.tvNsec + rest.tvNsec⟩ ∧
      ¬ sum.carried.tvSec < sum.tvSec ∧
      (timeAddclock dst dif).1 = sum.carried := by
  have hstop : stopsOnOverflow 0 = true := rfl
  unfold timeAddclock timeAddclockExt timeFmtclockExt
  simp only [hstop]
  by_cases hfirst : dst.carried.tvSec < dst.tvSec
  · left
    simp [hfirst]
  by_cases hsecond : dst.carried.tvSec + dif.tvSec < dst.carried.tvSec
  · left
    simp [hfirst, hsecond]
  by_cases hthird : (ClockTime.carried
      ⟨dst.carried.tvSec + dif.tvSec, dif.tvNsec⟩).tvSec <
      dst.carried.tvSec + dif.tvSec
  · left
    simp [hfirst, hsecond, hthird]
  by_cases hfourth : (ClockTime.carried ⟨(ClockTime.carried
      ⟨dst.carried.tvSec + dif.tvSec, dif.tvNsec⟩).tvSec,
      dst.carried.tvNsec + (ClockTime.carried
        ⟨dst.carried.tvSec + dif.tvSec, dif.tvNsec⟩).tvNsec⟩).tvSec <
      (ClockTime.carried ⟨dst.carried.tvSec + dif.tvSec, dif.tvNsec⟩).tvSec
  · left
    simp [hfirst, hsecond, hthird, hfourth]
  · right
    refine ⟨_, _, hfirst, hsecond, rfl, hthird, rfl, hfourth, ?_⟩
    simp [hfirst, hsecond, hthird, hfourth]

/-- An addition that minds overflows does not make a time less. -/
theorem timeAddclock_le (dst dif : ClockTime) :
    dst.key ≤ (timeAddclock dst dif).1.key := by
  rcases timeAddclock_cases dst dif with
    hsame | ⟨rest, sum, hfirst, hsecond, hrest, hthird, hsum, hfourth, hres⟩
  · rw [hsame]
  · calc
      dst.key ≤ dst.carried.key := ClockTime.carried_le hfirst
      _ ≤ sum.key := ?_
      _ ≤ sum.carried.key := ClockTime.carried_le hfourth
      _ = (timeAddclock dst dif).1.key := by rw [hres]
    have htmp := dst.carried_lt
    have hlt : rest.tvNsec.toNat < nsecInSec.toNat := by
      rw [hrest]
      exact ClockTime.carried_lt _
    have hsec : dst.carried.tvSec.toNat ≤ sum.tvSec.toNat := by
      rw [UInt64.lt_iff_toNat_lt, not_lt] at hsecond hthird
      rw [hsum]
      exact hsecond.trans hthird
    have hnsec : dst.carried.tvNsec.toNat ≤ sum.tvNsec.toNat := by
      rw [nsecInSec_toNat] at htmp hlt
      rw [hsum, UInt32.toNat_add]
      omega
    rw [← not_lt, ClockTime.key_lt]
    omega

/-- Adding milliseconds does not make a time less. -/
theorem timeAddclockMsec_le (dst : ClockTime) (msec : UInt64) :
    dst.key ≤ (timeAddclockMsec dst msec).1.key := by
  unfold timeAddclockMsec
  exact timeAddclock_le dst _

end Adding

end Powerpack
end Eaf
