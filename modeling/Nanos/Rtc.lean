import Mathlib.Data.List.Basic
import Mathlib.Data.Int.Notation
import Mathlib.Algebra.Group.Nat.Defs
import Mathlib.Algebra.Group.Int.Defs

set_option autoImplicit false

/-!
# `unix/mktime.c` and `x86_64/rtc.c`: the wall clock

`rtc_gettimeofday` reads the date in BCD from the RTC and turns it into seconds with `mktime`;
`rtc_settimeofday` turns seconds into a date with `gmtime_r` and writes it back. The types are
the source's: `int` arithmetic wraps as the compiled `add` and `imul` do (`int32`), the fields of
`struct tm` other than `tm_year` are `u8`, the seconds `u64`. The spec is `epochSeconds` over the
proleptic Gregorian calendar.

Before 2038-01-19T03:14:08Z both directions are exact (`mktime_eq_epochSeconds`, `gmtimeR_spec`,
`mktime_gmtimeR`), and from 2000 on the registers `rtc_settimeofday` writes read back as the
second written (`rtc_round_trip`). From that second on `mktime` wraps negative and `gmtime_r`
fills in an hour past 24 (`rtc_y2038`).
-/

namespace Nanos.Rtc

/-- An `int` result: the two's complement wrap of the exact value. -/
def int32 (x : ℤ) : ℤ := x.bmod (2 ^ 32)

def u8 (x : ℤ) : ℕ := (x % 256).toNat

def u64 (x : ℤ) : ℕ := (x % 2 ^ 64).toNat

/-- `struct tm`: `tm_year` is an `int`, the other fields are `u8`. -/
structure Tm where
  tmYear : ℤ
  tmMon : ℕ
  tmMday : ℕ
  tmHour : ℕ
  tmMin : ℕ
  tmSec : ℕ
deriving DecidableEq, Repr

def daysInMonth (m : ℤ) : ℤ :=
  if m = 2 then 28 else if m = 4 ∨ m = 6 ∨ m = 9 ∨ m = 11 then 30 else 31

/-- `is_leap_year(year)`. `year & 3` is `year % 4` on two's complement, and `%` in C
    truncates. -/
def isLeapYear (year : ℤ) : Bool :=
  if year % 4 ≠ 0 then false
  else if year.tmod 100 ≠ 0 then true
  else year.tmod 400 = 0

def mktime (tm : Tm) : ℤ :=
  let days := 365 * (tm.tmYear - 70)
  -- `for (int i = 70; i < tm->tm_year; i++)`
  let days := (List.range (tm.tmYear - 70).toNat).foldl
    (fun d k => if isLeapYear (1900 + (70 + k)) then d + 1 else d) days
  let days := if isLeapYear (1900 + tm.tmYear) ∧ tm.tmMon ≥ 2 then days + 1 else days
  -- `for (int i = 0; i < tm->tm_mon; i++)`
  let days := (List.range tm.tmMon).foldl (fun d i => d + daysInMonth (i + 1)) days
  let days := days + (tm.tmMday - 1)
  int32 (((days * 24 + tm.tmHour) * 60 + tm.tmMin) * 60 + tm.tmSec)

/-- The year loop of `gmtime_r`: on to the next year while the days left fill the year
    `1900 + year`. A round takes at least 365 days, so `days / 365 + 1` rounds are enough. -/
def yearLoop : ℕ → ℤ → ℤ → ℤ × ℤ
  | 0, year, days => (year, days)
  | fuel + 1, year, days =>
    let daysInYear : ℤ := if isLeapYear (1900 + year) then 366 else 365
    if days ≥ daysInYear then yearLoop fuel (year + 1) (days - daysInYear) else (year, days)

/-- The month loop of `gmtime_r` in the year `year`: on to the next month while the days left
    fill the month `mon + 1`; `tm_mon` is a `u8`. A round takes at least 28 days, so
    `days / 28 + 1` rounds are enough. -/
def monthLoop (year : ℤ) : ℕ → ℕ → ℤ → ℕ × ℤ
  | 0, mon, days => (mon, days)
  | fuel + 1, mon, days =>
    let d := daysInMonth (mon + 1) + if mon = 1 ∧ isLeapYear (1900 + year) then 1 else 0
    if days ≥ d then monthLoop year fuel ((mon + 1) % 256) (days - d) else (mon, days)

/-- The part of `gmtime_r` after `days` and the seconds of the day are computed: the year and
    month loops, then the time of day. -/
def gmtimeFields (days : ℤ) (seconds : ℕ) : Tm :=
  let (year, days) := yearLoop (days.toNat / 365 + 1) 70 days
  let (mon, days) := monthLoop year (days.toNat / 28 + 1) 0 days
  let hour := u8 (seconds / 3600 : ℕ)
  let seconds := (seconds + 2 ^ 64 - u64 (hour * 3600)) % 2 ^ 64
  let min := u8 (seconds / 60 : ℕ)
  let sec := u8 (((seconds + 2 ^ 64 - u64 (min * 60)) % 2 ^ 64 : ℕ))
  ⟨year, mon, u8 (1 + days), hour, min, sec⟩

def gmtimeR (t : ℕ) : Tm :=
  -- `int days = seconds / (24 * 60 * 60)`
  let days := int32 (t / 86400 : ℕ)
  -- `seconds -= days * (24 * 60 * 60)`, an `int` product widened to `u64`
  gmtimeFields days ((t + 2 ^ 64 - u64 (int32 (days * 86400))) % 2 ^ 64)

def bcd2bin (bcd : ℕ) : ℕ := ((bcd >>> 4) &&& 0x0f) * 10 + (bcd &&& 0x0f)

def bin2bcd (bin : ℕ) : ℕ :=
  let tens := bin / 10
  (tens <<< 4) ||| (bin - tens * 10)

/-- `RTC_RAM_POWER`, the bit of status register D that says the RTC is powered. -/
def rtcRamPower : ℕ := 0x80

/-- The registers that `rtc_gettimeofday` reads with `rtc_read`, each a `u8`. -/
structure RtcRegs where
  statusD : ℕ
  seconds : ℕ
  minutes : ℕ
  hours : ℕ
  dayOfMonth : ℕ
  month : ℕ
  year : ℕ
deriving DecidableEq, Repr

/-- `rtc_gettimeofday()`: 0 when the RTC is not powered. `tm_mon` is `bcd2bin(...) - 1` in
    `unsigned int`, stored in a `u8`. -/
def rtcGettimeofday (r : RtcRegs) : ℕ :=
  if r.statusD ≠ rtcRamPower then 0
  else
    u64 (mktime ⟨bcd2bin r.year + 100, (bcd2bin r.month + 255) % 256, bcd2bin r.dayOfMonth % 256,
      bcd2bin r.hours % 256, bcd2bin r.minutes % 256, bcd2bin r.seconds % 256⟩)

/-- The registers that `rtc_settimeofday(seconds)` writes with `rtc_write`, each value taken
    to a `u8`; `statusD` is the register it does not write. -/
def rtcSetRegs (statusD seconds : ℕ) : RtcRegs :=
  let tm := gmtimeR seconds
  ⟨statusD, bin2bcd tm.tmSec % 256, bin2bcd tm.tmMin % 256, bin2bcd tm.tmHour % 256,
    bin2bcd tm.tmMday % 256, bin2bcd (tm.tmMon + 1) % 256,
    bin2bcd ((tm.tmYear - 100) % 2 ^ 32).toNat % 256⟩

/-! ## The calendar -/

/-- Leap years of the proleptic Gregorian calendar. -/
def IsLeap (y : ℕ) : Prop := y % 4 = 0 ∧ (y % 100 ≠ 0 ∨ y % 400 = 0)

instance (y : ℕ) : Decidable (IsLeap y) := inferInstanceAs (Decidable (_ ∧ _))

/-- The leap years before the year `y`, from the year 1 on. -/
def leapsBefore (y : ℕ) : ℕ := (y - 1) / 4 - (y - 1) / 100 + (y - 1) / 400

/-- The days of the months before the month `m` (from 0) of the year `y`. -/
def daysBeforeMonth (y m : ℕ) : ℕ :=
  [0, 31, 59, 90, 120, 151, 181, 212, 243, 273, 304, 334].getD m 0 +
    if IsLeap y ∧ 2 ≤ m then 1 else 0

/-- The seconds since 1970-01-01T00:00:00Z of the date and time in `tm`, for years from 1970. -/
def epochSeconds (tm : Tm) : ℕ :=
  let y := (1900 + tm.tmYear).toNat
  let days := 365 * (y - 1970) + (leapsBefore y - leapsBefore 1970) + daysBeforeMonth y tm.tmMon +
    (tm.tmMday - 1)
  ((days * 24 + tm.tmHour) * 60 + tm.tmMin) * 60 + tm.tmSec

/-! ## Before 2038 -/

def daysInYear (y : ℕ) : ℕ := if IsLeap y then 366 else 365

def monthDays : List ℕ := [31, 28, 31, 30, 31, 30, 31, 31, 30, 31, 30, 31]

def monthLength (y m : ℕ) : ℕ := monthDays.getD m 0 + if IsLeap y ∧ m = 1 then 1 else 0

/-- The days from 1970-01-01 to the first day of the year `y`. -/
def daysBeforeYear (y : ℕ) : ℕ := 365 * (y - 1970) + (leapsBefore y - leapsBefore 1970)

theorem leapsBefore_succ {y : ℕ} (hy : 1 ≤ y) :
    leapsBefore (y + 1) = leapsBefore y + if IsLeap y then 1 else 0 := by
  obtain ⟨x, rfl⟩ : ∃ x, y = x + 1 := ⟨y - 1, by omega⟩
  unfold leapsBefore
  rw [Nat.add_sub_cancel, Nat.add_sub_cancel, Nat.succ_div, Nat.succ_div, Nat.succ_div]
  -- the years divisible by 100 are among those divisible by 4
  have hle : x / 100 ≤ x / 4 := Nat.div_le_div_left (by decide) (by decide)
  generalize x / 4 = a at hle ⊢
  generalize x / 100 = b at hle ⊢
  simp only [Nat.dvd_iff_mod_eq_zero]
  by_cases hl : IsLeap (x + 1)
  · rw [if_pos hl]
    unfold IsLeap at hl
    split_ifs <;> omega
  · rw [if_neg hl]
    unfold IsLeap at hl
    split_ifs <;> omega

theorem leapsBefore_mono {y : ℕ} (hy : 1 ≤ y) (k : ℕ) : leapsBefore y ≤ leapsBefore (y + k) := by
  induction k with
  | zero => exact Nat.le_refl _
  | succ k ih =>
    rw [← Nat.add_assoc, leapsBefore_succ (by omega)]
    omega

theorem daysBeforeYear_succ {y : ℕ} (hy : 1970 ≤ y) :
    daysBeforeYear (y + 1) = daysBeforeYear y + daysInYear y := by
  have hs := @leapsBefore_succ y (by omega)
  obtain ⟨k, rfl⟩ := Nat.exists_eq_add_of_le hy
  have hm := @leapsBefore_mono 1970 (by omega) k
  unfold daysBeforeYear daysInYear
  split_ifs at hs ⊢ <;> omega

theorem daysBeforeMonth_succ (y m : ℕ) (hm : m < 11) :
    daysBeforeMonth y (m + 1) = daysBeforeMonth y m + monthLength y m := by
  unfold daysBeforeMonth monthLength monthDays
  revert m
  by_cases hl : IsLeap y <;> simp only [hl, true_and, false_and, if_false] <;> decide

theorem daysBeforeMonth_eleven (y : ℕ) : daysBeforeMonth y 11 + monthLength y 11 = daysInYear y := by
  unfold daysBeforeMonth monthLength monthDays daysInYear
  by_cases hl : IsLeap y <;> simp [hl]

theorem isLeapYear_natCast (y : ℕ) : isLeapYear (y : ℤ) = decide (IsLeap y) := by
  unfold isLeapYear IsLeap
  rw [Int.tmod_eq_emod_of_nonneg (by omega), Int.tmod_eq_emod_of_nonneg (by omega)]
  by_cases h4 : y % 4 = 0 <;> by_cases h100 : y % 100 = 0 <;> by_cases h400 : y % 400 = 0 <;>
    simp [h4, h100, h400] <;> omega

theorem foldl_add_shift {β : Type} (f : β → ℤ) (L : List β) (d : ℤ) :
    L.foldl (fun d i => d + f i) d = d + L.foldl (fun d i => d + f i) 0 := by
  induction L generalizing d with
  | nil => simp
  | cons i L ih =>
    rw [List.foldl_cons, List.foldl_cons, ih (d + f i), ih (0 + f i)]
    omega

theorem range_intCast (n : ℕ) :
    ((do let a ← List.range n; pure (a : ℤ)) : List ℤ) = (List.range n).map (↑) := by
  simp only [List.pure_def, List.bind_eq_flatMap, List.map_eq_flatMap]

/-- The loop of `mktime` over the years before `tm_year` counts the leap years from 1970. -/
theorem foldl_leapYears (n : ℕ) (d : ℤ) :
    ((List.range n).map ((↑) : ℕ → ℤ)).foldl
        (fun d k => if isLeapYear (1900 + (70 + k)) then d + 1 else d) d =
      d + leapsBefore (1970 + n) - leapsBefore 1970 := by
  induction n with
  | zero => simp
  | succ n ih =>
    have hcast : (1900 + (70 + (n : ℤ))) = ((1970 + n : ℕ) : ℤ) := by omega
    rw [List.range_succ, List.map_append, List.foldl_append, ih, List.map_singleton,
      List.foldl_cons, List.foldl_nil, hcast, isLeapYear_natCast, ← Nat.add_assoc,
      @leapsBefore_succ (1970 + n) (by omega)]
    by_cases hl : IsLeap (1970 + n)
    · simp only [hl, decide_true, if_true]
      omega
    · simp only [hl, decide_false, Bool.false_eq_true, if_false]
      omega

/-- The loop of `mktime` over the months before `tm_mon` adds up their days in a common year. -/
theorem foldl_daysInMonth {m : ℕ} (hm : m < 12) (d : ℤ) :
    ((List.range m).map ((↑) : ℕ → ℤ)).foldl (fun d i => d + daysInMonth (i + 1)) d =
      d + ([0, 31, 59, 90, 120, 151, 181, 212, 243, 273, 304, 334].getD m 0 : ℕ) := by
  rw [foldl_add_shift]
  congr 1
  revert m
  decide

theorem mktime_eq_int32 {tm : Tm} (hy : 70 ≤ tm.tmYear) (hm : tm.tmMon < 12) (hd : 1 ≤ tm.tmMday) :
    mktime tm = int32 (epochSeconds tm) := by
  obtain ⟨n, hn⟩ : ∃ n : ℕ, tm.tmYear = 70 + n := ⟨(tm.tmYear - 70).toNat, by omega⟩
  have hy' : (1900 + tm.tmYear).toNat = 1970 + n := by omega
  have hleap : isLeapYear (1900 + tm.tmYear) = decide (IsLeap (1970 + n)) := by
    rw [← isLeapYear_natCast]
    congr 1
    omega
  -- the natural subtractions of the spec, written as sums
  obtain ⟨k, hk⟩ := Nat.exists_eq_add_of_le (@leapsBefore_mono 1970 (by omega) n)
  obtain ⟨d, hd'⟩ := Nat.exists_eq_add_of_le' hd
  unfold mktime epochSeconds daysBeforeMonth
  simp only [hy', hleap, range_intCast]
  rw [show (tm.tmYear - 70).toNat = n by omega, foldl_leapYears, foldl_daysInMonth hm, hk, hd',
    Nat.add_sub_cancel_left, Nat.add_sub_cancel_left, Nat.add_sub_cancel]
  congr 1
  simp only [decide_eq_true_eq, ge_iff_le]
  split_ifs <;> omega

theorem int32_of_lt {x : ℤ} (h0 : 0 ≤ x) (h : x < 2 ^ 31) : int32 x = x :=
  Int.bmod_eq_of_le (by omega) (by omega)

theorem u64_natCast {n : ℕ} (h : n < 2 ^ 64) : u64 n = n := by
  unfold u64
  omega

/-- Before 2038-01-19T03:14:08Z, when the seconds fit an `int`, `mktime` is exact. -/
theorem mktime_eq_epochSeconds {tm : Tm} (hy : 70 ≤ tm.tmYear) (hm : tm.tmMon < 12)
    (hd : 1 ≤ tm.tmMday) (h : epochSeconds tm < 2 ^ 31) : mktime tm = epochSeconds tm := by
  rw [mktime_eq_int32 hy hm hd]
  exact int32_of_lt (by omega) (by omega)

theorem bcd2bin_le (bcd : ℕ) : bcd2bin bcd ≤ 165 := by
  have h1 : (bcd >>> 4) &&& 0x0f ≤ 0x0f := Nat.and_le_right
  have h2 : bcd &&& 0x0f ≤ 0x0f := Nat.and_le_right
  unfold bcd2bin
  omega

/-- `rtc_gettimeofday` of a powered RTC whose registers hold a date before
    2038-01-19T03:14:08Z returns the seconds since the epoch of that date. Every BCD register
    decodes below 256, so only the month's `- 1` can wrap. -/
theorem rtcGettimeofday_eq {r : RtcRegs} (hp : r.statusD = rtcRamPower)
    (hm : 1 ≤ bcd2bin r.month) (hm' : bcd2bin r.month ≤ 12) (hd : 1 ≤ bcd2bin r.dayOfMonth)
    (h : epochSeconds ⟨bcd2bin r.year + 100, bcd2bin r.month - 1, bcd2bin r.dayOfMonth,
      bcd2bin r.hours, bcd2bin r.minutes, bcd2bin r.seconds⟩ < 2 ^ 31) :
    rtcGettimeofday r = epochSeconds ⟨bcd2bin r.year + 100, bcd2bin r.month - 1,
      bcd2bin r.dayOfMonth, bcd2bin r.hours, bcd2bin r.minutes, bcd2bin r.seconds⟩ := by
  have hmon : (bcd2bin r.month + 255) % 256 = bcd2bin r.month - 1 := by omega
  have hmod : ∀ bcd, bcd2bin bcd % 256 = bcd2bin bcd := fun bcd =>
    Nat.mod_eq_of_lt (by have := bcd2bin_le bcd; omega)
  unfold rtcGettimeofday
  rw [if_neg (not_not.2 hp), hmon, hmod, hmod, hmod, hmod,
    mktime_eq_epochSeconds (by dsimp only; omega) (by dsimp only; omega) (by dsimp only; omega) h,
    u64_natCast (by omega)]

/-- On 2000-01-01T00:00:00Z. -/
example : rtcGettimeofday ⟨rtcRamPower, 0, 0, 0, 1, 1, 0⟩ = 946684800 := by decide +kernel

theorem daysInYear_ge (y : ℕ) : 365 ≤ daysInYear y := by
  unfold daysInYear
  split_ifs <;> omega

theorem monthLength_ge (y m : ℕ) (hm : m < 12) : 28 ≤ monthLength y m := by
  have htab : ∀ m < 12, 28 ≤ monthDays.getD m 0 := by decide
  have := htab m hm
  unfold monthLength
  omega

theorem monthLength_le (y : ℕ) {m : ℕ} (hm : m < 12) : monthLength y m ≤ 31 := by
  have htab : ∀ m < 12, monthDays.getD m 0 + (if m = 1 then 1 else 0) ≤ 31 := by decide
  have := htab m hm
  unfold monthLength
  split_ifs at this ⊢ <;> omega

theorem daysInMonth_succ {m : ℕ} (hm : m < 12) :
    daysInMonth ((m : ℤ) + 1) = (monthDays.getD m 0 : ℕ) := by
  revert m
  decide

theorem yearDays_eq (year : ℕ) :
    (if isLeapYear (1900 + (year : ℤ)) then 366 else 365 : ℤ) = daysInYear (1900 + year) := by
  rw [show (1900 + (year : ℤ)) = ((1900 + year : ℕ) : ℤ) by omega, isLeapYear_natCast]
  unfold daysInYear
  split_ifs <;> simp_all

theorem monthDays_eq (year : ℕ) {m : ℕ} (hm : m < 12) :
    daysInMonth ((m : ℤ) + 1) + (if m = 1 ∧ isLeapYear (1900 + (year : ℤ)) then 1 else 0) =
      monthLength (1900 + year) m := by
  rw [show (1900 + (year : ℤ)) = ((1900 + year : ℕ) : ℤ) by omega, isLeapYear_natCast,
    daysInMonth_succ hm]
  unfold monthLength monthDays
  by_cases hl : IsLeap (1900 + year)
  · simp only [hl, decide_true, and_true, true_and]
    split_ifs <;> omega
  · simp only [hl, decide_false, Bool.false_eq_true, and_false, false_and, if_false]
    omega

/-- With enough fuel, the year loop of `gmtime_r` stops at the year that holds the day, from
    the year `year` on. Every round takes a year of at least 365 days. -/
theorem yearLoop_spec (fuel : ℕ) {year days : ℕ} (hy : 70 ≤ year) (hf : days < 365 * fuel) :
    ∃ y d : ℕ, yearLoop fuel year days = ((y : ℤ), (d : ℤ)) ∧ 70 ≤ y ∧
      d < daysInYear (1900 + y) ∧
      daysBeforeYear (1900 + y) + d = daysBeforeYear (1900 + year) + days := by
  induction fuel generalizing year days with
  | zero => omega
  | succ fuel ih =>
    have hdiy := daysInYear_ge (1900 + year)
    rw [yearLoop, yearDays_eq]
    split_ifs with hge
    · -- on to the next year
      obtain ⟨y, d, he, hy70, hd, hsum⟩ :=
        @ih (year + 1) (days - daysInYear (1900 + year)) (by omega) (by omega)
      have hyear : (year : ℤ) + 1 = ((year + 1 : ℕ) : ℤ) := by omega
      have hdays : (days : ℤ) - daysInYear (1900 + year) =
          ((days - daysInYear (1900 + year) : ℕ) : ℤ) := by omega
      refine ⟨y, d, by rw [hyear, hdays, he], hy70, hd, ?_⟩
      · rw [hsum, ← Nat.add_assoc, daysBeforeYear_succ (by omega)]
        omega
    · exact ⟨year, days, rfl, hy, by omega, rfl⟩

/-- With enough fuel, the month loop of `gmtime_r` in the year `1900 + year` stops at the month
    that holds the day, from the month `mon` on. Every round takes a month of at least 28 days,
    and the days left never reach the end of the year, so `tm_mon` stays below 12. -/
theorem monthLoop_spec (year fuel : ℕ) {mon days : ℕ} (hmon : mon < 12)
    (hin : daysBeforeMonth (1900 + year) mon + days < daysInYear (1900 + year))
    (hf : days < 28 * fuel) :
    ∃ m d : ℕ, monthLoop year fuel mon days = (m, (d : ℤ)) ∧ m < 12 ∧
      d < monthLength (1900 + year) m ∧
      daysBeforeMonth (1900 + year) m + d = daysBeforeMonth (1900 + year) mon + days := by
  induction fuel generalizing mon days with
  | zero => omega
  | succ fuel ih =>
    have hml := monthLength_ge (1900 + year) mon hmon
    rw [monthLoop, monthDays_eq year hmon]
    split_ifs with hge
    · -- on to the next month, which exists: the days left are not the whole year
      have hlast : mon < 11 := by
        by_contra h11
        have := daysBeforeMonth_eleven (1900 + year)
        rw [show mon = 11 by omega] at hin hge
        omega
      have hnext := daysBeforeMonth_succ (1900 + year) mon hlast
      obtain ⟨m, d, he, hm, hd, hsum⟩ :=
        @ih (mon + 1) (days - monthLength (1900 + year) mon) (by omega) (by omega)
          (by omega)
      have hdays : (days : ℤ) - monthLength (1900 + year) mon =
          ((days - monthLength (1900 + year) mon : ℕ) : ℤ) := by omega
      refine ⟨m, d, ?_, hm, hd, by omega⟩
      rw [Nat.mod_eq_of_lt (by omega), hdays, he]
    · exact ⟨mon, days, rfl, hmon, by omega, rfl⟩

theorem u8_natCast {n : ℕ} (h : n < 256) : u8 n = n := by
  unfold u8
  omega

theorem daysBeforeMonth_zero (y : ℕ) : daysBeforeMonth y 0 = 0 := by
  simp [daysBeforeMonth]

theorem daysBeforeMonth_add_monthLength_le (y : ℕ) {m : ℕ} (hm : m < 12) :
    daysBeforeMonth y m + monthLength y m ≤ daysInYear y := by
  unfold daysBeforeMonth monthLength monthDays daysInYear
  by_cases hl : IsLeap y <;> simp only [hl, true_and, false_and, if_false, if_true] <;> revert m <;>
    decide

theorem daysBeforeYear_mono {a b : ℕ} (ha : 1970 ≤ a) (hab : a ≤ b) :
    daysBeforeYear a ≤ daysBeforeYear b := by
  obtain ⟨k, rfl⟩ := Nat.exists_eq_add_of_le hab
  obtain ⟨j, rfl⟩ := Nat.exists_eq_add_of_le ha
  have h1 := @leapsBefore_mono 1970 (by omega) j
  have h2 := @leapsBefore_mono (1970 + j) (by omega) k
  unfold daysBeforeYear
  omega

/-- `gmtime_r` after its `int` steps: the loops stop at the year and the month that hold the day
    `days`, and the time of day is that of the seconds `s` of the day. -/
theorem gmtimeFields_spec (days : ℕ) {s : ℕ} (hs : s < 86400) :
    ∃ y m d : ℕ, gmtimeFields days s = ⟨y, m, 1 + d, s / 3600, s % 3600 / 60, s % 60⟩ ∧
      70 ≤ y ∧ m < 12 ∧ d < monthLength (1900 + y) m ∧
      daysBeforeYear (1900 + y) + daysBeforeMonth (1900 + y) m + d = days := by
  obtain ⟨y, dy, hy, hy70, hdy, hsumy⟩ := @yearLoop_spec (days / 365 + 1) 70 days (Nat.le_refl 70) (by omega)
  obtain ⟨m, d, hm, hm12, hd, hsumm⟩ := @monthLoop_spec y (dy / 28 + 1) 0 dy (by omega)
    (by rw [daysBeforeMonth_zero]; omega) (by omega)
  have hml := monthLength_le (1900 + y) hm12
  refine ⟨y, m, d, ?_, hy70, hm12, hd, ?_⟩
  · rw [show ((70 : ℕ) : ℤ) = 70 from rfl] at hy
    unfold gmtimeFields
    rw [Int.toNat_natCast, hy]
    dsimp only
    rw [Int.toNat_natCast, hm]
    dsimp only
    -- each store to a `u8` and each `u64` subtraction keeps its value: they are below 256
    have hday : u8 (1 + (d : ℤ)) = 1 + d := by
      rw [show (1 + (d : ℤ)) = ((1 + d : ℕ) : ℤ) by omega, u8_natCast (by omega)]
    have hhour : u8 (s / 3600 : ℕ) = s / 3600 := u8_natCast (by omega)
    have hrest : (s + 2 ^ 64 - u64 ((s / 3600 : ℕ) * 3600 : ℤ)) % 2 ^ 64 = s % 3600 := by
      rw [show ((s / 3600 : ℕ) * 3600 : ℤ) = ((s / 3600 * 3600 : ℕ) : ℤ) by omega,
        u64_natCast (by omega)]
      omega
    have hmin : u8 (s % 3600 / 60 : ℕ) = s % 3600 / 60 := u8_natCast (by omega)
    have hsec : (s % 3600 + 2 ^ 64 - u64 ((s % 3600 / 60 : ℕ) * 60 : ℤ)) % 2 ^ 64 = s % 60 := by
      rw [show ((s % 3600 / 60 : ℕ) * 60 : ℤ) = ((s % 3600 / 60 * 60 : ℕ) : ℤ) by omega,
        u64_natCast (by omega)]
      omega
    rw [hday, hhour, hrest, hmin, hsec, u8_natCast (by omega)]
  · have h1970 : daysBeforeYear (1900 + 70) = 0 := by decide
    rw [h1970] at hsumy
    rw [daysBeforeMonth_zero] at hsumm
    omega

/-- Before 2038-01-19T03:14:08Z the `int` steps of `gmtime_r` are exact: it fills in the date of
    the day `t / 86400` since the epoch and the time of day of `t`. -/
theorem gmtimeR_spec {t : ℕ} (h : t < 2 ^ 31) :
    ∃ y m d : ℕ, gmtimeR t = ⟨y, m, 1 + d, t % 86400 / 3600, t % 3600 / 60, t % 60⟩ ∧
      70 ≤ y ∧ m < 12 ∧ d < monthLength (1900 + y) m ∧
      daysBeforeYear (1900 + y) + daysBeforeMonth (1900 + y) m + d = t / 86400 := by
  have hdays : int32 (t / 86400 : ℕ) = (t / 86400 : ℕ) := int32_of_lt (by omega) (by omega)
  have hprod : int32 ((t / 86400 : ℕ) * 86400) = ((t / 86400 * 86400 : ℕ) : ℤ) := by
    rw [int32_of_lt (by omega) (by omega)]
    omega
  have hsec : (t + 2 ^ 64 - u64 ((t / 86400 * 86400 : ℕ) : ℤ)) % 2 ^ 64 = t % 86400 := by
    rw [u64_natCast (by omega)]
    omega
  obtain ⟨y, m, d, he, hy, hm, hd, hsum⟩ :=
    gmtimeFields_spec (t / 86400) (Nat.mod_lt t (by decide : 86400 > 0))
  refine ⟨y, m, d, ?_, hy, hm, hd, hsum⟩
  unfold gmtimeR
  rw [hdays]
  dsimp only
  rw [hprod, hsec, he, Nat.mod_mod_of_dvd t (by decide : 3600 ∣ 86400),
    Nat.mod_mod_of_dvd t (by decide : 60 ∣ 86400)]

/-- Before 2038-01-19T03:14:08Z, `gmtime_r` fills in the date and time whose seconds since the
    epoch are `t`. -/
theorem epochSeconds_gmtimeR {t : ℕ} (h : t < 2 ^ 31) : epochSeconds (gmtimeR t) = t := by
  obtain ⟨y, m, d, he, -, -, -, hsum⟩ := gmtimeR_spec h
  have hy : (1900 + (y : ℤ)).toNat = 1900 + y := by omega
  rw [he]
  unfold epochSeconds
  unfold daysBeforeYear at hsum
  simp only [hy]
  omega

/-- Before 2038-01-19T03:14:08Z, `mktime` takes the date that `gmtime_r` fills in back to the
    second it came from. -/
theorem mktime_gmtimeR {t : ℕ} (h : t < 2 ^ 31) : mktime (gmtimeR t) = t := by
  obtain ⟨y, m, d, he, hy, hm, -, -⟩ := gmtimeR_spec h
  have hes := epochSeconds_gmtimeR h
  have hy' : 70 ≤ (gmtimeR t).tmYear := by rw [he]; dsimp only; omega
  have hm' : (gmtimeR t).tmMon < 12 := by rw [he]; exact hm
  have hd' : 1 ≤ (gmtimeR t).tmMday := by rw [he]; dsimp only; omega
  rw [mktime_eq_epochSeconds hy' hm' hd' (by omega), hes]

/-- A value below 100 survives `bin2bcd`, the store to a `u8` register and `bcd2bin`. -/
theorem bcd2bin_bin2bcd (x : ℕ) (hx : x < 100) : bcd2bin (bin2bcd x % 256) = x := by
  revert x
  decide

/-- The years that `gmtime_r` fills in from 2000-01-01T00:00:00Z to 2038-01-19T03:14:07Z are two
    BCD digits past 2000. -/
theorem year_of_seconds {y m d t : ℕ} (h2000 : 946684800 ≤ t) (h : t < 2 ^ 31) (hy : 70 ≤ y)
    (hm : m < 12) (hd : d < monthLength (1900 + y) m)
    (hsum : daysBeforeYear (1900 + y) + daysBeforeMonth (1900 + y) m + d = t / 86400) :
    100 ≤ y ∧ y < 139 := by
  have hin := daysBeforeMonth_add_monthLength_le (1900 + y) hm
  constructor
  · -- the days before the next year are at most those before 2000
    by_contra hlt
    have hmono := @daysBeforeYear_mono (1900 + y + 1) 2000 (by omega) (by omega)
    rw [daysBeforeYear_succ (by omega)] at hmono
    have h2000d : daysBeforeYear 2000 = 10957 := by decide
    omega
  · -- the days before 2039 are more than the days in `2 ^ 31` seconds
    by_contra hge
    have hmono := @daysBeforeYear_mono 2039 (1900 + y) (by omega) (by omega)
    have h2039 : daysBeforeYear 2039 = 25202 := by decide
    omega

/-- From 2000-01-01T00:00:00Z to 2038-01-19T03:14:07Z, the registers that `rtc_settimeofday(t)`
    writes read back as `t` in `rtc_gettimeofday`. -/
theorem rtc_round_trip {t : ℕ} (h2000 : 946684800 ≤ t) (h : t < 2 ^ 31) :
    rtcGettimeofday (rtcSetRegs rtcRamPower t) = t := by
  obtain ⟨y, m, d, he, hy, hm, hd, hsum⟩ := gmtimeR_spec h
  obtain ⟨hy100, hy139⟩ := year_of_seconds h2000 h hy hm hd hsum
  have hml := monthLength_le (1900 + y) hm
  have hyear : ((y : ℤ) - 100) % 2 ^ 32 = ((y - 100 : ℕ) : ℤ) := by omega
  have hregs : rtcSetRegs rtcRamPower t = ⟨rtcRamPower, bin2bcd (t % 60) % 256,
      bin2bcd (t % 3600 / 60) % 256, bin2bcd (t % 86400 / 3600) % 256, bin2bcd (1 + d) % 256,
      bin2bcd (m + 1) % 256, bin2bcd (y - 100) % 256⟩ := by
    unfold rtcSetRegs
    rw [he]
    dsimp only
    rw [hyear, Int.toNat_natCast]
  -- the registers decode to the date and time that `gmtime_r` filled in
  have hmon := bcd2bin_bin2bcd (m + 1) (by omega)
  have hday := bcd2bin_bin2bcd (1 + d) (by omega)
  have htm : (⟨(bcd2bin (bin2bcd (y - 100) % 256) : ℤ) + 100, bcd2bin (bin2bcd (m + 1) % 256) - 1,
      bcd2bin (bin2bcd (1 + d) % 256), bcd2bin (bin2bcd (t % 86400 / 3600) % 256),
      bcd2bin (bin2bcd (t % 3600 / 60) % 256), bcd2bin (bin2bcd (t % 60) % 256)⟩ : Tm) =
      gmtimeR t := by
    have hy' : ((bcd2bin (bin2bcd (y - 100) % 256) : ℕ) : ℤ) + 100 = y := by
      rw [bcd2bin_bin2bcd (y - 100) (by omega)]
      omega
    have hm' : bcd2bin (bin2bcd (m + 1) % 256) - 1 = m := by omega
    rw [he, hy', hm', hday, bcd2bin_bin2bcd (t % 86400 / 3600) (by omega),
      bcd2bin_bin2bcd (t % 3600 / 60) (by omega), bcd2bin_bin2bcd (t % 60) (by omega)]
  have hdate : epochSeconds ⟨(bcd2bin (bin2bcd (y - 100) % 256) : ℤ) + 100,
      bcd2bin (bin2bcd (m + 1) % 256) - 1, bcd2bin (bin2bcd (1 + d) % 256),
      bcd2bin (bin2bcd (t % 86400 / 3600) % 256), bcd2bin (bin2bcd (t % 3600 / 60) % 256),
      bcd2bin (bin2bcd (t % 60) % 256)⟩ = t := by
    rw [htm]
    exact epochSeconds_gmtimeR h
  rw [hregs, rtcGettimeofday_eq rfl (by dsimp only; omega) (by dsimp only; omega)
    (by dsimp only; omega) (by dsimp only; omega)]
  exact hdate

/-- 2023-11-14T22:13:20Z. -/
theorem rtc_round_trip_2023 :
    946684800 ≤ 1700000000 ∧ 1700000000 < 2 ^ 31 ∧
      rtcGettimeofday (rtcSetRegs rtcRamPower 1700000000) = 1700000000 :=
  ⟨by decide, by decide, rtc_round_trip (by decide) (by decide)⟩

/-! ## After 2038 -/

/-- At 2040-01-01T00:00:00Z, second 2208988800 since the epoch: `mktime` of that date wraps,
    and `rtc_gettimeofday` returns a different value; `gmtime_r` of that second fills in the
    hour 86; and the registers that `rtc_settimeofday` writes do not read back as it. -/
theorem rtc_y2038 :
    epochSeconds ⟨140, 0, 1, 0, 0, 0⟩ = 2208988800 ∧
      mktime ⟨140, 0, 1, 0, 0, 0⟩ < 0 ∧
      u64 (mktime ⟨140, 0, 1, 0, 0, 0⟩) ≠ 2208988800 ∧
      gmtimeR 2208988800 = ⟨140, 0, 1, 86, 28, 16⟩ ∧
      rtcGettimeofday (rtcSetRegs rtcRamPower 2208988800) ≠ 2208988800 := by
  decide +kernel

end Nanos.Rtc
