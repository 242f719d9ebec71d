import Eaf.Powerpack.SystemTime

/-!
# The system time that is read

Calls of `eaf_time_getsystem` while the clock never goes backwards.  The year
that a call returns is made from the day of the year, and the milliseconds may
belong to a second that `time` has not seen yet.
-/

namespace Eaf
namespace Powerpack

open Gregorian

namespace CalendarTime

variable {tv tv' : CalendarTime}

/-- What calendar times are ordered by. -/
def key (tv : CalendarTime) : ℕ ×ₗ ℕ ×ₗ ℕ ×ₗ ℕ ×ₗ ℕ ×ₗ ℕ ×ₗ ℕ :=
  toLex (tv.year.toNat, toLex (tv.month.toNat, toLex (tv.day.toNat,
    toLex (tv.hour.toNat, toLex (tv.minute.toNat,
      toLex (tv.second.toNat, tv.mseconds.toNat))))))

/-- The date and time that the fields from the year to the second spell. -/
def dateTime (tv : CalendarTime) : DateTime :=
  ⟨tv.year.toNat, tv.month.toNat - 1, tv.day.toNat, tv.hour.toNat,
    tv.minute.toNat, tv.second.toNat⟩

/-- The fields denote the second with this number. -/
def Denotes (tv : CalendarTime) (t : Int) : Prop :=
  0 < tv.month.toNat ∧ tv.dateTime.Valid ∧ tv.dateTime.secondNumber = t

theorem key_le_iff (h : 0 < tv.month.toNat) (h' : 0 < tv'.month.toNat) :
    tv.key ≤ tv'.key ↔ tv.dateTime.key < tv'.dateTime.key ∨
      tv.dateTime.key = tv'.dateTime.key ∧
        tv.mseconds.toNat ≤ tv'.mseconds.toNat := by
  rw [DateTime.key_lt, DateTime.key_inj, DateTime.ext_iff]
  simp only [key, dateTime, Prod.Lex.toLex_le_toLex]
  omega

end CalendarTime

namespace SystemCall

variable {c c' : SystemCall} {calls : List SystemCall} {now : Int}

/-- The clock does not go backwards from one reading to the next one. -/
def Forward : Int → List SystemCall → Prop
  | _, [] => True
  | now, c :: calls => now ≤ c.timeAt ∧ c.timeAt ≤ c.clockAt ∧
      Forward c.clockAt calls

/-- The calls that follow read the clock later. -/
theorem Forward.pairwise (h : Forward now calls) :
    calls.Pairwise (fun c c' => c.clockAt ≤ c'.timeAt) ∧
      ∀ c ∈ calls, now ≤ c.timeAt ∧ c.timeAt ≤ c.clockAt := by
  induction calls generalizing now with
  | nil => exact ⟨List.Pairwise.nil, fun c hc => absurd hc List.not_mem_nil⟩
  | cons c calls ih =>
      obtain ⟨htime, hclock, hrest⟩ := h
      obtain ⟨hpairs, hall⟩ := ih hrest
      constructor
      · exact List.pairwise_cons.mpr ⟨fun c' hc' => (hall c' hc').1, hpairs⟩
      · intro c' hc'
        rcases List.mem_cons.mp hc' with rfl | hmem
        · exact ⟨htime, hclock⟩
        · have hlater := hall c' hmem
          exact ⟨by omega, hlater.2⟩

/-- The results never decrease, and each denotes the second that was read. -/
def TellsTime (calls : List SystemCall) : Prop :=
  (calls.Pairwise fun c c' => ∀ tv ∈ c.result, ∀ tv' ∈ c'.result,
    tv.key ≤ tv'.key) ∧
  ∀ c ∈ calls, ∀ tv ∈ c.result, tv.Denotes c.readSecond

/-- If both calls read the same second, the milliseconds do not go back from
the first one to the second one. -/
def MsecInOrder (c c' : SystemCall) : Prop :=
  c.readSecond = c'.readSecond → c.readMsec ≤ c'.readMsec

instance (c c' : SystemCall) : Decidable (MsecInOrder c c') :=
  inferInstanceAs (Decidable (_ → _))

/-- No second begins between the two readings of a call. -/
def OneSecond (c : SystemCall) : Prop := c.clockAt / 1000000 = c.readSecond

/-- The fields denote the second if and only if its day of the year is the year
after 1900. -/
theorem denotes_iff (h : c.Succeeds) :
    (∀ tv ∈ c.result, tv.Denotes c.readSecond) ↔ c.DayIsYear := by
  obtain ⟨tv, hres, hyear, hmonth, hday, hhour, hminute, hsecond, -⟩ :=
    result_of_succeeds h
  have hvalid := c.dateTime_valid
  rw [dayIsYear_iff h, hres]
  have hdate : (c.dayOfYear : Int) + 1900 = c.dateTime.year ↔
      tv.dateTime = c.dateTime := by
    rw [DateTime.ext_iff]
    simp only [CalendarTime.dateTime, hyear, hmonth, hday, hhour, hminute,
      hsecond, Nat.add_sub_cancel, and_true, Nat.cast_add, Nat.cast_ofNat]
  rw [hdate]
  constructor
  · intro hdenotes
    obtain ⟨-, hvalid', hnumber⟩ := hdenotes tv rfl
    rw [← c.dateTime_second] at hnumber
    exact (hvalid'.secondNumber_inj hvalid).mp hnumber
  · intro hsame tv' htv'
    cases htv'
    rw [CalendarTime.Denotes, hsame]
    exact ⟨by omega, hvalid, c.dateTime_second⟩

/-- Results that denote their seconds are in order if and only if the
milliseconds of equal seconds are. -/
theorem key_le_iff (h : c.Succeeds) (h' : c'.Succeeds) (hday : c.DayIsYear)
    (hday' : c'.DayIsYear) (hforward : c.readSecond ≤ c'.readSecond) :
    (∀ tv ∈ c.result, ∀ tv' ∈ c'.result, tv.key ≤ tv'.key) ↔ MsecInOrder c c' := by
  have hdenotes := (denotes_iff h).mpr hday
  have hdenotes' := (denotes_iff h').mpr hday'
  obtain ⟨tv, hres, -, -, -, -, -, -, hmsec⟩ := result_of_succeeds h
  obtain ⟨tv', hres', -, -, -, -, -, -, hmsec'⟩ := result_of_succeeds h'
  rw [hres] at hdenotes ⊢
  rw [hres'] at hdenotes' ⊢
  obtain ⟨hpos, hvalid, hnumber⟩ := hdenotes tv rfl
  obtain ⟨hpos', hvalid', hnumber'⟩ := hdenotes' tv' rfl
  have hlt := (hvalid'.key_le_iff hvalid).not
  rw [not_le, hnumber, hnumber'] at hlt
  have hsame := hvalid.secondNumber_inj hvalid'
  rw [hnumber, hnumber', ← DateTime.key_inj] at hsame
  have hkeys : tv.key ≤ tv'.key ↔ MsecInOrder c c' := by
    rw [CalendarTime.key_le_iff hpos hpos', hlt, ← hsame, hmsec, hmsec', MsecInOrder]
    omega
  rw [← hkeys]
  constructor
  · exact fun hall => hall tv rfl tv' rfl
  · intro hle a ha b hb
    cases ha
    cases hb
    exact hle

/-- Calls of `eaf_time_getsystem` tell the time if and only if the day of the
year of every second that is read is the year after 1900 and the milliseconds
of calls that read the same second are in order. -/
theorem tells_time_iff (now : Int) (calls : List SystemCall)
    (hforward : Forward now calls) : TellsTime calls ↔
      (∀ c ∈ calls, c.Succeeds → c.DayIsYear) ∧
      calls.Pairwise fun c c' => c.Succeeds → c'.Succeeds → MsecInOrder c c' := by
  obtain ⟨hpairs, hcalls⟩ := hforward.pairwise
  have hseconds : calls.Pairwise fun c c' => c.readSecond ≤ c'.readSecond := by
    refine hpairs.imp_of_mem ?_
    intro c c' hc _ hle
    have hown := (hcalls c hc).2
    rw [readSecond, readSecond]
    omega
  have hnone : ∀ {c : SystemCall} {tv : CalendarTime}, tv ∈ c.result →
      c.Succeeds := by
    intro c tv htv
    by_contra hfails
    rw [result_of_not hfails] at htv
    cases htv
  unfold TellsTime
  constructor
  · rintro ⟨hkeys, hdenotes⟩
    have hdays : ∀ c ∈ calls, c.Succeeds → c.DayIsYear := fun c hc hok =>
      (denotes_iff hok).mp (hdenotes c hc)
    refine ⟨hdays, (hkeys.and hseconds).imp_of_mem ?_⟩
    rintro c c' hc hc' ⟨hle, hsecond⟩ hok hok'
    exact (key_le_iff hok hok' (hdays c hc hok) (hdays c' hc' hok') hsecond).mp hle
  · rintro ⟨hdays, hmsecs⟩
    constructor
    · refine (hmsecs.and hseconds).imp_of_mem ?_
      rintro c c' hc hc' ⟨hmsec, hsecond⟩ tv htv tv' htv'
      have hok := hnone htv
      have hok' := hnone htv'
      exact (key_le_iff hok hok' (hdays c hc hok) (hdays c' hc' hok') hsecond).mpr
        (hmsec hok hok') tv htv tv' htv'
    · intro c hc tv htv
      have hok := hnone htv
      exact (denotes_iff hok).mpr (hdays c hc hok) tv htv

/-- The milliseconds are in order where no second begins between two readings
of one call. -/
theorem Forward.msecInOrder (h : Forward now calls)
    (hone : ∀ c ∈ calls, c.OneSecond) : calls.Pairwise MsecInOrder := by
  obtain ⟨hpairs, hcalls⟩ := h.pairwise
  refine hpairs.imp_of_mem ?_
  intro c c' hc hc' hle hsame
  have hfirst := hone c hc
  have hnext := hone c' hc'
  have hown := (hcalls c' hc').2
  rw [OneSecond] at hfirst hnext
  rw [readMsec, readMsec]
  omega

/-- Two calls on 12 March 1970, which is day 70 of its year. -/
theorem tells_time_in_march :
    TellsTime [⟨6048000000000, 6048000123456, false, false⟩,
      ⟨6048000500000, 6048000500007, false, false⟩] :=
  (tells_time_iff 0 _ (by simp [Forward])).mpr (by decide +kernel)

/-- At the beginning of 2021 the year is given as 1900.  On 12 March 1970, a
call that straddles the end of a second returns an earlier time than the call
before it. -/
theorem tells_time_not :
    (Forward 0 [⟨1609459200000000, 1609459200000000, false, false⟩] ∧
      ¬ TellsTime [⟨1609459200000000, 1609459200000000, false, false⟩]) ∧
    (Forward 0 [⟨6048000500000, 6048000500000, false, false⟩,
        ⟨6048000999999, 6048001000001, false, false⟩] ∧
      ¬ TellsTime [⟨6048000500000, 6048000500000, false, false⟩,
        ⟨6048000999999, 6048001000001, false, false⟩]) := by
  refine ⟨⟨by simp [Forward], fun h => ?_⟩, by simp [Forward], fun h => ?_⟩
  · have hday := (denotes_iff (by decide +kernel)).mp
      (h.2 _ List.mem_cons_self)
    exact absurd hday (by decide +kernel)
  · have hkeys := (List.pairwise_cons.mp h.1).1 _ List.mem_cons_self
    have hmsec := (key_le_iff (by decide +kernel) (by decide +kernel)
      (by decide +kernel) (by decide +kernel) (by decide +kernel)).mp hkeys
    exact absurd hmsec (by decide +kernel)

end SystemCall

end Powerpack
end Eaf
