import Simpad.Base.Word

namespace Simpad.Rtc
open Word

/-- `struct rtc_time`. -/
structure RtcTime where
  sec : ℤ
  min : ℤ
  hour : ℤ
  mday : ℤ
  mon : ℕ
  year : ℤ
  wday : ℤ
  yday : ℤ

def daysInMo : List ℤ := [31,28,31,30,31,30,31,31,30,31,30,31]

/-- `is_leap`, as the number it is added as. -/
def isLeap (year : ℤ) : ℤ := if year % 4 = 0 ∧ (year % 100 ≠ 0 ∨ year % 400 = 0) then 1 else 0

/-- `LEAPS_THRU_END_OF`. -/
def leaps (y : ℤ) : ℤ := y / 4 - y / 100 + y / 400

def decodeYear (days : ℤ) : ℤ × ℤ :=
  let year := 1970 + days / 365
  let days := days - ((year - 1970) * 365 + leaps (year - 1) - leaps (1970 - 1))
  if days < 0 then (year - 1,days + 365 + isLeap (year - 1)) else (year,days)

/-- The loop over the months from March on. -/
def monthLoop : ℕ → ℤ → ℕ → ℕ × ℤ
  | 0,days,month => (month,days)
  | fuel + 1,days,month =>
    if days ≥ daysInMo.getD month 0 then monthLoop fuel (days - daysInMo.getD month 0) (month + 1)
    else (month,days)

def decodeMonth (leap days : ℤ) : ℕ × ℤ :=
  if days ≥ 31 then
    if days - 31 ≥ 28 + leap then monthLoop 10 (days - 31 - (28 + leap)) 2 else (1,days - 31)
  else (0,days)

def decodetime (t : ℕ) : RtcTime :=
  let days : ℤ := t / 86400
  let rem : ℤ := t % 86400
  let date := decodeYear days
  let month := decodeMonth (isLeap date.1) date.2
  { hour := rem / 3600, min := rem % 3600 / 60, sec := rem % 3600 % 60, wday := (4 + days) % 7,
    year := date.1 - 1900, yday := date.2 + 1, mon := month.1, mday := month.2 + 1 }

def mktime (year : ℤ) (mon : ℕ) (day hour min sec : ℤ) : ℤ :=
  let y := if mon ≤ 2 then year - 1 else year
  let m : ℤ := if mon ≤ 2 then mon + 10 else mon - 2
  ((((leaps y + 367 * m / 12 + day + y * 365 - 719499) * 24 + hour) * 60 + min) * 60 + sec) %
    4294967296

/-- The length of a month in the check of `RTC_SET_TIME`. -/
def monthLength (leap : ℤ) (mon : ℕ) : ℤ := daysInMo.getD mon 0 + if mon = 1 then leap else 0

/-- `RTC_SET_TIME`: the new counter, or `-EINVAL`. -/
def setTime (tm : RtcTime) : Option ℕ :=
  let year := s32 (tm.year + 1900)
  if year < 1970 ∨ tm.mon ≥ 12 ∨ tm.mday < 1 ∨ tm.mday > monthLength (isLeap year) tm.mon ∨
      ¬(0 ≤ tm.hour ∧ tm.hour < 24) ∨ ¬(0 ≤ tm.min ∧ tm.min < 60) ∨ ¬(0 ≤ tm.sec ∧ tm.sec < 60) then
    none
  else some (mktime year (tm.mon + 1) tm.mday tm.hour tm.min tm.sec).toNat

/-- The days before a year, counted from 1970. -/
def yearStart : ℕ → ℤ
  | 0 => 0
  | n + 1 => yearStart n + 365 + isLeap (1970 + n)

def monthStart (leap : ℤ) : ℕ → ℤ
  | 0 => 0
  | mon + 1 => monthStart leap mon + monthLength leap mon

namespace RtcTime
variable (tm : RtcTime)

/-- The days from 1970-01-01, a Thursday, to the date. -/
def dayNumber : ℤ :=
  yearStart (tm.year - 70).toNat + monthStart (isLeap (tm.year + 1900)) tm.mon + tm.mday - 1

def seconds : ℤ := ((tm.dayNumber * 24 + tm.hour) * 60 + tm.min) * 60 + tm.sec

/-- A date of the calendar and a time of the day. -/
structure Valid : Prop where
  year : 70 ≤ tm.year
  mon : tm.mon < 12
  mday : 1 ≤ tm.mday ∧ tm.mday ≤ monthLength (isLeap (tm.year + 1900)) tm.mon
  hour : 0 ≤ tm.hour ∧ tm.hour < 24
  min : 0 ≤ tm.min ∧ tm.min < 60
  sec : 0 ≤ tm.sec ∧ tm.sec < 60

def fields : ℤ × ℕ × ℤ × ℤ × ℤ × ℤ := (tm.year,tm.mon,tm.mday,tm.hour,tm.min,tm.sec)

end RtcTime

variable {tm tm' : RtcTime} {days : ℤ} {t : ℕ}

theorem leaps_succ (y : ℤ) : leaps (y + 1) = leaps y + isLeap (y + 1) := by
  simp only [leaps,isLeap]
  split <;> omega

theorem yearStart_eq (n : ℕ) : yearStart n = n * 365 + leaps (1969 + n) - 477 := by
  induction n with
  | zero => decide
  | succ n ih =>
    have := leaps_succ (1969 + n)
    rw [show (1969 : ℤ) + n + 1 = 1970 + n by omega] at this
    rw [yearStart,ih,show (1969 : ℤ) + (n + 1 : ℕ) = 1970 + n by push_cast; omega,this]
    push_cast
    omega

theorem isLeap_le (y : ℤ) : 0 ≤ isLeap y ∧ isLeap y ≤ 1 := by
  rw [isLeap]
  split <;> omega

/-- The guess by 365 days is at most one year too late. -/
theorem decodeYear_spec (h : 0 ≤ days) (h' : days < 49711) :
    ∃ n : ℕ, (decodeYear days).1 = 1970 + n ∧ yearStart n + (decodeYear days).2 = days ∧
      0 ≤ (decodeYear days).2 ∧ (decodeYear days).2 < 365 + isLeap (1970 + n) := by
  obtain ⟨q,hq⟩ : ∃ q : ℕ, days / 365 = q := ⟨(days / 365).toNat,by omega⟩
  have hbound : 477 ≤ leaps (1969 + q) ∧ leaps (1969 + q) ≤ 511 := by
    rw [leaps]
    omega
  have h477 : leaps (1970 - 1) = 477 := by decide
  have hleap := isLeap_le
  simp only [decodeYear]
  rw [hq,h477,show (1970 : ℤ) + q - 1 = 1969 + q by omega]
  split
  · obtain ⟨n,rfl⟩ : ∃ n, q = n + 1 := Nat.exists_eq_succ_of_ne_zero (by rintro rfl; simp at *; omega)
    have hstart := yearStart_eq n
    have hsucc := leaps_succ (1969 + n)
    have := hleap (1970 + n)
    push_cast at *
    rw [show (1969 : ℤ) + (n + 1) = 1970 + n by omega] at *
    rw [show (1969 : ℤ) + n + 1 = 1970 + n by omega] at hsucc
    refine ⟨n,by omega,?_,?_,?_⟩ <;> omega
  · have hstart := yearStart_eq q
    have := hleap (1970 + q)
    refine ⟨q,rfl,?_,?_,?_⟩ <;> dsimp only <;> omega

theorem isLeap_mem (y : ℤ) : isLeap y ∈ [(0 : ℤ),1] := by
  rw [isLeap]
  split <;> decide

theorem decodeMonth_spec : ∀ leap ∈ [(0 : ℤ),1], ∀ d < 365 + leap.toNat,
    (decodeMonth leap d).1 < 12 ∧ 0 ≤ (decodeMonth leap d).2 ∧
      (decodeMonth leap d).2 < monthLength leap (decodeMonth leap d).1 ∧
      monthStart leap (decodeMonth leap d).1 + (decodeMonth leap d).2 = d := by
  decide +kernel

/-- The months of a year follow each other, up to its end. -/
theorem monthStart_le : ∀ leap ∈ [(0 : ℤ),1], ∀ m < 12,
    0 ≤ monthStart leap m ∧ monthStart leap m + monthLength leap m ≤ 365 + leap ∧
      ∀ m' < 12, m < m' → monthStart leap m + monthLength leap m ≤ monthStart leap m' := by
  decide

theorem yearStart_le {n m : ℕ} (h : n < m) : yearStart n + 365 + isLeap (1970 + n) ≤ yearStart m := by
  induction h with
  | refl => rfl
  | @step m h ih =>
    have := isLeap_le (1970 + m)
    rw [yearStart]
    omega

theorem decodetime_spec (h : t < 4294967296) :
    (decodetime t).Valid ∧ (decodetime t).seconds = t ∧
      (decodetime t).wday = (4 + (decodetime t).dayNumber) % 7 := by
  obtain ⟨n,hyear,hdays,hnonneg,hlt⟩ := @decodeYear_spec ((t : ℤ) / 86400) (by omega) (by omega)
  obtain ⟨hmon,hmday,hmday',hstart⟩ := decodeMonth_spec _ (isLeap_mem (1970 + n))
    (decodeYear ((t : ℤ) / 86400)).2.toNat (by have := isLeap_le (1970 + n); omega)
  rw [Int.toNat_of_nonneg hnonneg] at hmon hmday hmday' hstart
  have hnumber : (decodetime t).dayNumber = t / 86400 := by
    simp only [RtcTime.dayNumber,decodetime,hyear]
    rw [show (1970 : ℤ) + n - 1900 - 70 = n by omega,Int.toNat_natCast,
      show (1970 : ℤ) + n - 1900 + 1900 = 1970 + n by omega]
    omega
  refine ⟨⟨?_,?_,?_,?_,?_,?_⟩,?_,by rw [hnumber]; rfl⟩
  · simp only [decodetime,hyear]
    omega
  · simpa only [decodetime,hyear] using hmon
  · simp only [decodetime,hyear]
    rw [show (1970 : ℤ) + n - 1900 + 1900 = 1970 + n by omega]
    omega
  · simp only [decodetime]
    omega
  · simp only [decodetime]
    omega
  · simp only [decodetime]
    omega
  · rw [RtcTime.seconds,hnumber]
    simp only [decodetime]
    omega

theorem mktime_eq (h : tm.Valid) :
    mktime (tm.year + 1900) (tm.mon + 1) tm.mday tm.hour tm.min tm.sec =
      tm.seconds % 4294967296 := by
  obtain ⟨n,hn⟩ : ∃ n : ℕ, tm.year = n + 70 := ⟨(tm.year - 70).toNat,by have := h.year; omega⟩
  have hstart := yearStart_eq n
  have hsucc := leaps_succ (1969 + n)
  rw [mktime,RtcTime.seconds,RtcTime.dayNumber,hn]
  rw [show ((n : ℤ) + 70 - 70).toNat = n by omega,show (n : ℤ) + 70 + 1900 = 1969 + n + 1 by omega]
  obtain ⟨-,hmon,-⟩ := h
  generalize tm.mon = m at *
  congr 1
  interval_cases m <;> simp [monthStart,monthLength,daysInMo] <;> omega

theorem fields_eq (h : tm.Valid) (h' : tm'.Valid) (heq : tm.seconds = tm'.seconds) :
    tm.fields = tm'.fields := by
  obtain ⟨hy,hm,⟨hd,hd'⟩,hh,hmin,hs⟩ := h
  obtain ⟨hy',hm',⟨he,he'⟩,hh',hmin',hs'⟩ := h'
  have hnumber : tm.dayNumber = tm'.dayNumber ∧ tm.hour = tm'.hour ∧ tm.min = tm'.min ∧
      tm.sec = tm'.sec := by
    simp only [RtcTime.seconds] at heq
    omega
  obtain ⟨hnumber,hhour,hmin,hsec⟩ := hnumber
  obtain ⟨n,hn⟩ : ∃ n : ℕ, tm.year = n + 70 := ⟨(tm.year - 70).toNat,by omega⟩
  obtain ⟨k,hk⟩ : ∃ k : ℕ, tm'.year = k + 70 := ⟨(tm'.year - 70).toNat,by omega⟩
  have htoNat : ∀ i : ℕ, ((i : ℤ) + 70 - 70).toNat = i ∧ (i : ℤ) + 70 + 1900 = 1970 + i := by omega
  rw [RtcTime.dayNumber,RtcTime.dayNumber,hn,hk,(htoNat n).1,(htoNat n).2,(htoNat k).1,(htoNat k).2]
    at hnumber
  rw [hn,(htoNat n).2] at hd'
  rw [hk,(htoNat k).2] at he'
  obtain ⟨hlo,hhi,hnext⟩ := monthStart_le _ (isLeap_mem (1970 + n)) tm.mon hm
  obtain ⟨hlo',hhi',hnext'⟩ := monthStart_le _ (isLeap_mem (1970 + k)) tm'.mon hm'
  have hyear : n = k := by
    rcases lt_trichotomy n k with hlt | heq | hlt
    · have := yearStart_le hlt
      omega
    · exact heq
    · have := yearStart_le hlt
      omega
  subst hyear
  have hmon : tm.mon = tm'.mon := by
    rcases lt_trichotomy tm.mon tm'.mon with hlt | heq | hlt
    · have := hnext tm'.mon hm' hlt
      omega
    · exact heq
    · have := hnext' tm.mon hm hlt
      omega
  rw [hmon] at hnumber
  simp only [RtcTime.fields,hmon,hhour,hmin,hsec,hn,hk,show tm.mday = tm'.mday by omega]

/-- A year that is accepted has not wrapped. -/
theorem setTime_eq_some (hint : s32 tm.year = tm.year) (h : setTime tm = some t) :
    tm.Valid ∧ t = (tm.seconds % 4294967296).toNat := by
  simp only [setTime] at h
  split at h
  · cases h
  · next hok =>
    push Not at hok
    obtain ⟨hy,hm,hd,hd',hh,hmin,hs⟩ := hok
    have hyear : s32 (tm.year + 1900) = tm.year + 1900 := by
      rw [s32,Int.bmod_def] at *
      split at hint <;> split at hy <;> split <;> omega
    rw [hyear] at hy hd' h
    have hv : tm.Valid := ⟨by omega,hm,⟨hd,hd'⟩,hh,hmin,hs⟩
    rw [mktime_eq hv] at h
    exact ⟨hv,(Option.some.inj h).symm⟩

theorem seconds_nonneg (h : tm.Valid) : 0 ≤ tm.seconds := by
  obtain ⟨hy,hm,⟨hd,-⟩,hh,hmin,hs⟩ := h
  have hlo := (monthStart_le _ (isLeap_mem (tm.year + 1900)) tm.mon hm).1
  have hstart : 0 ≤ yearStart (tm.year - 70).toNat := by
    cases hn : (tm.year - 70).toNat with
    | zero => rfl
    | succ n =>
      have := yearStart_le n.succ_pos
      have := (isLeap_le (1970 + (0 : ℕ))).1
      simp only [yearStart] at *
      omega
  simp only [RtcTime.seconds,RtcTime.dayNumber]
  omega

/-- Every counter value is decoded to its date, and every date that is accepted comes back. -/
theorem rtc_time_round_trip (t : BitVec 32) (tm : RtcTime) (rcnr : ℕ) :
    ((decodetime t.toNat).Valid ∧
        (decodetime t.toNat).wday = (4 + (decodetime t.toNat).dayNumber) % 7 ∧
        mktime ((decodetime t.toNat).year + 1900) ((decodetime t.toNat).mon + 1)
          (decodetime t.toNat).mday (decodetime t.toNat).hour (decodetime t.toNat).min
          (decodetime t.toNat).sec = t.toNat) ∧
      (s32 tm.year = tm.year → setTime tm = some rcnr → tm.seconds < 4294967296 →
        (decodetime rcnr).fields = tm.fields) := by
  constructor
  · obtain ⟨hv,hs,hw⟩ := decodetime_spec t.isLt
    refine ⟨hv,hw,?_⟩
    rw [mktime_eq hv,hs]
    exact Int.emod_eq_of_lt (by omega) (by exact_mod_cast t.isLt)
  · intro hint h hlt
    obtain ⟨hv,rfl⟩ := setTime_eq_some hint h
    have hpos := seconds_nonneg hv
    rw [Int.emod_eq_of_lt hpos hlt]
    obtain ⟨hv',hs',-⟩ := @decodetime_spec tm.seconds.toNat (by omega)
    exact fields_eq hv' hv (by omega)

/-- Noon of 29 February 2004. -/
theorem rtc_time_leap_day : setTime ⟨0,0,12,29,1,104,0,0⟩ = some 1078056000 ∧
    (decodetime 1078056000).fields = (⟨0,0,12,29,1,104,0,0⟩ : RtcTime).fields :=
  ⟨rfl,(rtc_time_round_trip 0 ⟨0,0,12,29,1,104,0,0⟩ 1078056000).2 rfl rfl (by decide)⟩

end Simpad.Rtc
