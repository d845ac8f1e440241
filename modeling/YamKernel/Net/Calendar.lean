import Mathlib.Algebra.BigOperators.Intervals
import Mathlib.Algebra.Order.BigOperators.Group.Finset

/-!
# Calendar dates and seconds since 1970

mbed TLS asks the kernel for the date of a Unix time; the clock of the machine gives a date,
which the kernel turns into a Unix time. Both directions add up the days of years and months.
-/

namespace YamKernel.Calendar

open Finset

structure RtcTime where
  year : Nat
  month : Nat
  day : Nat
  hour : Nat
  minute : Nat
  second : Nat
  deriving DecidableEq

def rtcYearIsLeap (y : Nat) : Bool := (y % 4 == 0 && y % 100 != 0) || y % 400 == 0

/-- `diy`, the days in a year. -/
def diy (y : Nat) : Int := if rtcYearIsLeap y then 366 else 365

def mdays : List Int := [31, 28, 31, 30, 31, 30, 31, 31, 30, 31, 30, 31]

/-- `dim`, the days in a month. -/
def dim (leap : Bool) (month : Nat) : Int :=
  if month == 2 && leap then 29 else mdays.getD (month - 1) 0

/-- `days`, the days from 1970 to a date. -/
def rtcDays (r : RtcTime) : Int :=
  ∑ y ∈ Ico 1970 r.year, diy y + (∑ mo ∈ Ico 1 r.month, dim (rtcYearIsLeap r.year) mo +
    (r.day - 1))

def rtcToUnixSeconds (r : RtcTime) : Int :=
  rtcDays r * 86400 + r.hour * 3600 + r.minute * 60 + r.second

/-- Both loops of `mbedtls_platform_gmtime_r`: take off whole years or months while they fit. -/
def takeWhole (len : Nat → Int) (stop : Nat) (days : Int) (i : Nat) : Int × Nat :=
  if i < stop ∧ len i ≤ days then takeWhole len stop (days - len i) (i + 1) else (days, i)
termination_by stop - i

structure Tm where
  year : Int
  mon : Int
  mday : Int
  hour : Int
  min : Int
  sec : Int
  deriving DecidableEq

def mbedtlsPlatformGmtimeR (t : Int) : Option Tm :=
  let days := t.tdiv 86400
  let rem := t.tmod 86400
  let (days, rem) := if rem < 0 then (days - 1, rem + 86400) else (days, rem)
  let (days, year) := takeWhole diy 2401 days 1970
  if year > 2400 then none
  else
    let (days, month) := takeWhole (dim (rtcYearIsLeap year)) 13 days 1
    some ⟨year - 1900, month - 1, days + 1, rem / 60 / 60, rem / 60 % 60, rem % 60⟩

/-- The broken-down time of a date of the clock. -/
def RtcTime.tm (r : RtcTime) : Tm :=
  ⟨r.year - 1900, r.month - 1, r.day, r.hour, r.minute, r.second⟩

/-- The Gregorian rule: every fourth year, but of the centuries only every fourth. -/
def LeapYear (y : Nat) : Prop := 4 ∣ y ∧ (100 ∣ y → 400 ∣ y)

instance (y : Nat) : Decidable (LeapYear y) := inferInstanceAs (Decidable (_ ∧ _))

def monthDays (y m : Nat) : Nat :=
  if m = 2 then if LeapYear y then 29 else 28
  else if m = 4 ∨ m = 6 ∨ m = 9 ∨ m = 11 then 30 else 31

/-- A date of the Gregorian calendar from 1970 to 2400 and a time of day. -/
structure RtcTime.Valid (r : RtcTime) : Prop where
  year : 1970 ≤ r.year ∧ r.year ≤ 2400
  month : 1 ≤ r.month ∧ r.month ≤ 12
  day : 1 ≤ r.day ∧ r.day ≤ monthDays r.year r.month
  time : r.hour < 24 ∧ r.minute < 60 ∧ r.second < 60

section Loop

variable {len : Nat → Int} {stop i j : Nat} {days d : Int}

/-- Days that are not enough for all periods end in one of them. -/
lemma exists_split (hd : 0 ≤ days) (h : days < ∑ k ∈ Ico i stop, len k) :
    ∃ j d, i ≤ j ∧ j < stop ∧ days = ∑ k ∈ Ico i j, len k + d ∧ 0 ≤ d ∧ d < len j := by
  induction stop with
  | zero => simp at h; omega
  | succ n ih =>
    by_cases hn : days < ∑ k ∈ Ico i n, len k
    · obtain ⟨j, d, hij, hj, h⟩ := ih hn
      exact ⟨j, d, hij, by omega, h⟩
    · have hin : i ≤ n := by
        by_contra hin
        rw [Ico_eq_empty (by omega), sum_empty] at h
        omega
      rw [sum_Ico_succ_top hin] at h
      exact ⟨n, _, hin, by omega, (add_sub_cancel _ _).symm, by omega, by omega⟩

/-- The loop finds the period. -/
lemma takeWhole_sum (hpos : ∀ k < stop, 0 ≤ len k) (hij : i ≤ j) (hj : j < stop) (hd : 0 ≤ d)
    (hlt : d < len j) : takeWhole len stop (∑ k ∈ Ico i j, len k + d) i = (d, j) := by
  induction hij using Nat.decreasingInduction with
  | self => rw [takeWhole, if_neg (by simp [hlt]), Ico_self, sum_empty, zero_add]
  | of_succ i hij ih =>
    have : 0 ≤ ∑ k ∈ Ico (i + 1) j, len k := sum_nonneg fun k hk =>
      hpos k ((mem_Ico.mp hk).2.trans hj)
    rw [takeWhole, sum_eq_sum_Ico_succ_bot hij, if_pos ⟨by omega, by omega⟩, ← ih]
    congr 1
    omega

end Loop

variable {r : RtcTime}

lemma rtcYearIsLeap_iff (y : Nat) : rtcYearIsLeap y = true ↔ LeapYear y := by
  simp only [rtcYearIsLeap, LeapYear, Bool.or_eq_true, Bool.and_eq_true, beq_iff_eq, bne_iff_ne]
  omega

/-- The table of the code is the calendar's. -/
lemma dim_eq_monthDays (y : Nat) {m : Nat} (hm : 1 ≤ m) (hm' : m ≤ 12) :
    dim (rtcYearIsLeap y) m = monthDays y m := by
  unfold monthDays
  simp only [← rtcYearIsLeap_iff]
  generalize rtcYearIsLeap y = leap
  revert m
  cases leap <;> decide

lemma RtcTime.Valid.day_le (h : r.Valid) : r.day ≤ dim (rtcYearIsLeap r.year) r.month := by
  rw [dim_eq_monthDays _ h.month.1 h.month.2]
  exact_mod_cast h.day.2

lemma diy_nonneg (y : Nat) : 0 ≤ diy y := by
  unfold diy
  split <;> decide

lemma dim_nonneg (leap : Bool) : ∀ month < 13, 0 ≤ dim leap month := by
  cases leap <;> decide

lemma sum_dim (y : Nat) : ∑ mo ∈ Ico 1 13, dim (rtcYearIsLeap y) mo = diy y := by
  unfold diy
  cases rtcYearIsLeap y <;> decide

/-- The days of the years before 2401. -/
lemma sum_diy : ∑ y ∈ Ico 1970 2401, diy y = 157420 := by decide +kernel

lemma sum_nonneg_dim (h : r.Valid) : 0 ≤ ∑ mo ∈ Ico 1 r.month, dim (rtcYearIsLeap r.year) mo :=
  sum_nonneg fun k hk => dim_nonneg _ k (by have := h.month; have := mem_Ico.mp hk; omega)

/-- A day of a month is a day of the year. -/
lemma dayOfYear_lt (h : r.Valid) :
    ∑ mo ∈ Ico 1 r.month, dim (rtcYearIsLeap r.year) mo + (r.day - 1) < diy r.year := by
  obtain ⟨hm, hm'⟩ := h.month
  have : 0 ≤ ∑ mo ∈ Ico (r.month + 1) 13, dim (rtcYearIsLeap r.year) mo :=
    sum_nonneg fun k hk => dim_nonneg _ k (mem_Ico.mp hk).2
  have hsplit := sum_dim r.year
  rw [← sum_Ico_consecutive _ hm (by omega),
    sum_eq_sum_Ico_succ_bot (by omega : r.month < 13)] at hsplit
  have := h.day_le
  omega

lemma gmtime_unix (h : r.Valid) : mbedtlsPlatformGmtimeR (rtcToUnixSeconds r) = some r.tm := by
  have hyear := h.year
  have hmonth := h.month
  have := h.day
  have := h.day_le
  have := h.time
  have : 0 ≤ ∑ y ∈ Ico 1970 r.year, diy y := sum_nonneg fun k _ => diy_nonneg k
  have := sum_nonneg_dim h
  have : 0 ≤ rtcDays r := by unfold rtcDays; omega
  have hy : takeWhole diy 2401 (rtcDays r) 1970 = _ := takeWhole_sum (fun k _ => diy_nonneg k)
    hyear.1 (by omega) (by omega) (dayOfYear_lt h)
  have hm := takeWhole_sum (dim_nonneg (rtcYearIsLeap r.year)) hmonth.1 (by omega)
    (d := r.day - 1) (by omega) (by omega)
  have hpos : 0 ≤ rtcToUnixSeconds r := by unfold rtcToUnixSeconds; omega
  have hdiv : rtcToUnixSeconds r / 86400 = rtcDays r := by unfold rtcToUnixSeconds; omega
  have hmod : ¬ rtcToUnixSeconds r % 86400 < 0 := by omega
  simp only [mbedtlsPlatformGmtimeR, Int.tdiv_eq_ediv_of_nonneg hpos,
    Int.tmod_eq_emod_of_nonneg hpos, if_neg hmod, hdiv, hy, hm]
  rw [if_neg (by omega), RtcTime.tm, Option.some_inj, Tm.mk.injEq]
  unfold rtcToUnixSeconds
  omega

lemma exists_date {t : Int} (h0 : 0 ≤ t) (h : t < 157420 * 86400) :
    ∃ r : RtcTime, r.Valid ∧ rtcToUnixSeconds r = t := by
  have hdays : t / 86400 < ∑ y ∈ Ico 1970 2401, diy y := by rw [sum_diy]; omega
  obtain ⟨y, d, hy, hy', hsum, hd, hlt⟩ := exists_split (by omega) hdays
  rw [← sum_dim] at hlt
  obtain ⟨m, e, hm, hm', rfl, he, hlt⟩ := exists_split hd hlt
  rw [dim_eq_monthDays y hm (by omega)] at hlt
  refine ⟨⟨y, m, (e + 1).toNat, (t % 86400 / 3600).toNat, (t % 3600 / 60).toNat, (t % 60).toNat⟩,
    ⟨by simp; omega, by simp; omega, by simp; omega, by simp; omega⟩, ?_⟩
  simp only [rtcToUnixSeconds, rtcDays]
  omega

theorem calendar_round_trip :
    (∀ t : Int, 0 ≤ t → t < 157420 * 86400 → ∃ r : RtcTime, r.Valid ∧
      mbedtlsPlatformGmtimeR t = some r.tm ∧ rtcToUnixSeconds r = t) ∧
    ∀ r : RtcTime, r.Valid → mbedtlsPlatformGmtimeR (rtcToUnixSeconds r) = some r.tm := by
  refine ⟨fun t h0 h => ?_, fun r => gmtime_unix⟩
  obtain ⟨r, hr, rfl⟩ := exists_date h0 h
  exact ⟨r, hr, gmtime_unix hr, rfl⟩

end YamKernel.Calendar
