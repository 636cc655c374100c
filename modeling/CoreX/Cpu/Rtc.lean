import Mathlib.Algebra.BigOperators.Intervals
import Mathlib.Algebra.BigOperators.Ring.Finset
import Mathlib.Algebra.Order.BigOperators.Group.Finset

/-!
# The clock (`cpu/rtc.rs`) and the times of FAT files (`filesystems/fat32/fat32-utils.rs`)

`rtc_to_unix` adds up years, months and days, and so does `fat32_unix_time` with an `i32`. `read_from_cmos` gives the
time that the clock shows, but takes 12 p.m. for midnight and 12 a.m. for noon.
-/

namespace CoreX.Rtc

open Finset List

structure RTC where
  (second minute hour day month year : Nat)
  deriving DecidableEq

/-! ## Unix time -/

def isLeapYear (year : Nat) : Bool := year % 4 = 0 ∧ year % 100 ≠ 0 ∨ year % 400 = 0

def daysInMonth (leap : Bool) (m : Nat) : Nat :=
  (if leap then [31, 29, 31, 30, 31, 30, 31, 31, 30, 31, 30, 31]
    else [31, 28, 31, 30, 31, 30, 31, 31, 30, 31, 30, 31]).getD m 0

section
variable (rtc : RTC)

def rtcToUnix : Nat :=
  ∑ y ∈ Ico 1970 rtc.year, (365 + (isLeapYear y).toNat) * 86400 +
    ∑ m ∈ Finset.range (rtc.month - 1), daysInMonth (isLeapYear rtc.year) m * 86400 +
    (rtc.day - 1) * 86400 + rtc.hour * 3600 + rtc.minute * 60 + rtc.second

/-- A date and time of the calendar. -/
structure RTC.Valid (rtc : RTC) : Prop where
  month : 1 ≤ rtc.month ∧ rtc.month ≤ 12
  day : 1 ≤ rtc.day ∧ rtc.day ≤ daysInMonth (isLeapYear rtc.year) (rtc.month - 1)
  hour : rtc.hour < 24
  minute : rtc.minute < 60
  second : rtc.second < 60

/-- The fields from the year down, which lists compare in lexicographic order. -/
def RTC.fields : List Nat := [rtc.year, rtc.month, rtc.day, rtc.hour, rtc.minute, rtc.second]

def RTC.secondOfDay : Nat := rtc.hour * 3600 + rtc.minute * 60 + rtc.second

def gregorianDays (y : Nat) : Nat := 365 * y + y / 4 - y / 100 + y / 400

/-- The days since 1970 in closed form. The years are counted from March on, so that a leap day comes last. -/
def daysSince1970 (year month day : Nat) : Nat :=
  gregorianDays (if month ≤ 2 then year - 1 else year) + (153 * ((month + 9) % 12) + 2) / 5 + day - 719469

def RTC.nextDay : RTC :=
  if rtc.day < daysInMonth (isLeapYear rtc.year) (rtc.month - 1) then { rtc with day := rtc.day + 1 }
  else if rtc.month < 12 then { rtc with day := 1, month := rtc.month + 1 }
  else { rtc with day := 1, month := 1, year := rtc.year + 1 }

def yearDays (year : Nat) : Nat := ∑ y ∈ Ico 1970 year, (365 + (isLeapYear y).toNat)

def monthDays (leap : Bool) (month : Nat) : Nat := ∑ m ∈ Finset.range (month - 1), daysInMonth leap m

def RTC.days : Nat := yearDays rtc.year + monthDays (isLeapYear rtc.year) rtc.month + (rtc.day - 1)

end

variable {rtc later : RTC} {y : Nat}

theorem rtcToUnix_days (rtc : RTC) : rtcToUnix rtc = rtc.days * 86400 + rtc.secondOfDay := by
  simp only [rtcToUnix, RTC.days, yearDays, monthDays, RTC.secondOfDay, ← Finset.sum_mul]
  omega

theorem yearDays_succ (hy : 1970 ≤ y) : yearDays (y + 1) = yearDays y + (365 + (isLeapYear y).toNat) :=
  Finset.sum_Ico_succ_top hy _

theorem toNat_isLeapYear (hy : 1 ≤ y) : (isLeapYear y).toNat + (y - 1) / 4 + (y - 1) / 400 + y / 100 =
    y / 4 + y / 400 + (y - 1) / 100 := by
  by_cases hleap : y % 4 = 0 ∧ y % 100 ≠ 0 ∨ y % 400 = 0
  · simp only [isLeapYear, hleap, decide_true, Bool.toNat_true]
    omega
  · simp only [isLeapYear, hleap, decide_false, Bool.toNat_false]
    omega

theorem yearDays_eq (hy : 1970 ≤ y) :
    yearDays y + 719527 + (y - 1) / 100 = 365 * y + (y - 1) / 4 + (y - 1) / 400 := by
  induction y, hy using Nat.le_induction with
  | base => rfl
  | succ y hy ih =>
    have hleap := toNat_isLeapYear (show 1 ≤ y by omega)
    rw [yearDays_succ hy, Nat.add_sub_cancel]
    omega

theorem monthDays_eq : ∀ leap : Bool, ∀ m < 13, 1 ≤ m → monthDays leap m =
    if m ≤ 2 then 31 * (m - 1) else (153 * ((m + 9) % 12) + 2) / 5 + 59 + leap.toNat := by
  decide +kernel

theorem monthDays_add_le : ∀ leap : Bool, ∀ m < 13, 1 ≤ m →
    monthDays leap m + daysInMonth leap (m - 1) ≤ 365 + leap.toNat ∧
    ∀ m' < 13, m < m' → monthDays leap m + daysInMonth leap (m - 1) ≤ monthDays leap m' := by
  decide +kernel

section
variable (h : rtc.Valid)
include h

theorem RTC.Valid.days_eq (hyear : 1970 ≤ rtc.year) : rtc.days = daysSince1970 rtc.year rtc.month rtc.day := by
  obtain ⟨hpos, hmonth⟩ := h.month
  have hday := h.day.1
  have hyears := yearDays_eq hyear
  have hleap := toNat_isLeapYear (show 1 ≤ rtc.year by omega)
  have hmonths := monthDays_eq (isLeapYear rtc.year) rtc.month (by omega) hpos
  unfold RTC.days daysSince1970 gregorianDays
  split_ifs at hmonths ⊢
  · have hm : (153 * ((rtc.month + 9) % 12) + 2) / 5 = 306 + 31 * (rtc.month - 1) := by omega
    omega
  · omega

theorem RTC.Valid.day_le : rtc.day ≤ 31 := by
  have hlong : ∀ leap : Bool, ∀ m < 12, daysInMonth leap m ≤ 31 := by decide
  have hle := hlong (isLeapYear rtc.year) (rtc.month - 1) (by have := h.month; omega)
  exact h.day.2.trans hle

theorem RTC.Valid.secondOfDay_lt : rtc.secondOfDay < 86400 := by
  have hhour := h.hour
  have hminute := h.minute
  have hsecond := h.second
  rw [RTC.secondOfDay]
  omega

theorem rtcToUnix_lt (hlater : later.Valid) (hyear : 1970 ≤ rtc.year) (hlt : rtc.fields < later.fields) :
    rtcToUnix rtc < rtcToUnix later := by
  have hsecs := h.secondOfDay_lt
  obtain ⟨hfits, hnext⟩ := monthDays_add_le (isLeapYear rtc.year) rtc.month (Nat.lt_succ_of_le h.month.2) h.month.1
  have hday := h.day
  simp only [RTC.fields, cons_lt_cons_iff, List.not_lt_nil, and_false, or_false] at hlt
  rw [rtcToUnix_days, rtcToUnix_days]
  suffices rtc.days < later.days ∨ rtc.days = later.days ∧ rtc.secondOfDay < later.secondOfDay by omega
  unfold RTC.days
  rcases hlt with hy | ⟨hy, hm | ⟨hm, hd | ⟨hd, htime⟩⟩⟩
  · have hmono : yearDays (rtc.year + 1) ≤ yearDays later.year :=
      Finset.sum_le_sum_of_subset (Finset.Ico_subset_Ico_right hy)
    rw [yearDays_succ hyear] at hmono
    omega
  · have hle := hnext later.month (Nat.lt_succ_of_le hlater.month.2) hm
    rw [hy] at hle hday ⊢
    omega
  · rw [hy, hm]
    omega
  · have hminute := h.minute
    have hsecond := h.second
    rw [hy, hm, hd]
    refine .inr ⟨rfl, ?_⟩
    unfold RTC.secondOfDay
    omega

theorem days_nextDay (hyear : 1970 ≤ rtc.year) : rtc.nextDay.days = rtc.days + 1 := by
  obtain ⟨hpos, hmonth⟩ := h.month
  have hday := h.day
  rw [RTC.nextDay]
  split_ifs with hin hlast
  · simp only [RTC.days]
    omega
  · have hsucc : monthDays (isLeapYear rtc.year) (rtc.month - 1 + 1 + 1) =
        monthDays (isLeapYear rtc.year) (rtc.month - 1 + 1) + daysInMonth (isLeapYear rtc.year) (rtc.month - 1) :=
      Finset.sum_range_succ _ _
    rw [Nat.sub_add_cancel hpos] at hsucc
    simp only [RTC.days]
    omega
  · have hyearEnd : ∀ leap : Bool, monthDays leap 12 + daysInMonth leap (12 - 1) = 365 + leap.toNat := by decide +kernel
    have hdec : rtc.month = 12 := by omega
    have hend := hyearEnd (isLeapYear rtc.year)
    have hfirst : monthDays (isLeapYear (rtc.year + 1)) 1 = 0 := rfl
    rw [hdec] at hday hin
    simp only [RTC.days, yearDays_succ hyear, hdec, hfirst]
    omega

end

/-- **Unix time** is the closed form for the days, times 86400, plus the seconds of the day, and fits in a `u64`. So it
goes up with the time, by 86400 from one day to the next. -/
theorem rtcToUnix_eq (h : rtc.Valid) (hyear : 1970 ≤ rtc.year) (hi32 : rtc.year < 2 ^ 31) :
    rtcToUnix rtc = daysSince1970 rtc.year rtc.month rtc.day * 86400 + rtc.secondOfDay ∧ rtcToUnix rtc < 2 ^ 64 ∧
      (∀ later : RTC, later.Valid → rtc.fields < later.fields → rtcToUnix rtc < rtcToUnix later) ∧
      rtcToUnix rtc.nextDay = rtcToUnix rtc + 86400 := by
  have heq : rtcToUnix rtc = _ := rtcToUnix_days rtc
  have hnext : rtc.nextDay.secondOfDay = rtc.secondOfDay := by
    rw [RTC.nextDay]
    split_ifs <;> rfl
  rw [h.days_eq hyear] at heq
  refine ⟨heq, ?_, fun later hlater => rtcToUnix_lt h hlater hyear, ?_⟩
  · have hsecs := h.secondOfDay_lt
    have hday := h.day_le
    unfold daysSince1970 gregorianDays at heq
    split_ifs at heq <;> omega
  · rw [rtcToUnix_days, rtcToUnix_days, days_nextDay h hyear, hnext]
    omega

theorem rtcToUnix_leapDay :
    let rtc : RTC := ⟨59, 59, 23, 29, 2, 2024⟩
    rtc.Valid ∧ rtcToUnix rtc = 1709251199 ∧ rtcToUnix rtc.nextDay = 1709337599 := by
  have h : RTC.Valid ⟨59, 59, 23, 29, 2, 2024⟩ := ⟨by decide, by decide, by decide, by decide, by decide⟩
  obtain ⟨heq, -, -, hnext⟩ := rtcToUnix_eq h (by decide) (by decide)
  exact ⟨h, heq, hnext.trans (congrArg (· + 86400) heq)⟩

/-! ## FAT dates and times -/

namespace Fat32

def daysInMonth (year month : Nat) : Nat :=
  if month = 2 ∧ isLeapYear year then 29 else [31, 28, 31, 30, 31, 30, 31, 31, 30, 31, 30, 31].getD (month - 1) 0

def daysSince1980 (year month day : Nat) : Nat :=
  ∑ y ∈ Ico 1980 year, (if isLeapYear y then 366 else 365) + ∑ m ∈ Ico 1 month, daysInMonth year m + (day - 1)

/-- The result of an operation on numbers from 0 on, if it is an `i32`. -/
def i32 (n : Nat) : Option Nat := if n < 2 ^ 31 then some n else none

/-- `fat32_unix_time`, where `none` is an overflow. -/
def fat32UnixTime (fatDate fatTime : Nat) : Option Nat := do
  let days := daysSince1980 ((fatDate >>> 9 &&& 0x7F) + 1980) (fatDate >>> 5 &&& 0x0F) (fatDate &&& 0x1F) + (365 * 10 + 2)
  let seconds ← i32 (days * 86400)
  let seconds ← i32 (seconds + (fatTime >>> 11 &&& 0x1F) * 3600)
  let seconds ← i32 (seconds + (fatTime >>> 5 &&& 0x3F) * 60)
  i32 (seconds + (fatTime &&& 0x1F) * 2)

def fatDate (rtc : RTC) : Nat := (rtc.year - 1980) * 2 ^ 9 + rtc.month * 2 ^ 5 + rtc.day

def fatTime (rtc : RTC) : Nat := rtc.hour * 2 ^ 11 + rtc.minute * 2 ^ 5 + rtc.second / 2

theorem daysSince1980_add (h : rtc.Valid) (hyear : 1980 ≤ rtc.year) :
    daysSince1980 rtc.year rtc.month rtc.day + (365 * 10 + 2) = rtc.days := by
  have hyears : yearDays rtc.year = 3652 + ∑ y ∈ Ico 1980 rtc.year, (if isLeapYear y then 366 else 365) := by
    rw [yearDays, ← Finset.sum_Ico_consecutive _ (by decide : 1970 ≤ 1980) hyear]
    refine congrArg₂ _ (by decide +kernel) (Finset.sum_congr rfl fun y _ => ?_)
    cases isLeapYear y <;> rfl
  have hmonths : ∑ m ∈ Ico 1 rtc.month, daysInMonth rtc.year m = monthDays (isLeapYear rtc.year) rtc.month := by
    rw [Finset.sum_Ico_eq_sum_range, monthDays]
    refine Finset.sum_congr rfl fun m hm => ?_
    have hm := Finset.mem_range.1 hm
    have htable : ∀ leap : Bool, ∀ m < 12, (if 1 + m = 2 ∧ leap then 29 else
        [31, 28, 31, 30, 31, 30, 31, 31, 30, 31, 30, 31].getD (1 + m - 1) 0) = Rtc.daysInMonth leap m := by decide
    exact htable _ m (by have := h.month; omega)
  rw [daysSince1980, RTC.days, hyears, hmonths]
  omega

theorem i32_bind (a b : Nat) : ((i32 a).bind fun s => i32 (s + b)) = i32 (a + b) := by
  unfold i32
  split_ifs with ha hab hab
  · exact if_pos hab
  · exact if_neg hab
  · omega
  · rfl

theorem fat32UnixTime_eq (h : rtc.Valid) (hyear : 1980 ≤ rtc.year ∧ rtc.year ≤ 2107) (heven : rtc.second % 2 = 0) :
    fat32UnixTime (fatDate rtc) (fatTime rtc) = i32 (rtcToUnix rtc) := by
  have hday := h.day_le
  have hdays := daysSince1980_add h hyear.1
  obtain ⟨⟨-, hmonth⟩, -, hhour, hminute, hsecond⟩ := h
  have hmask : ∀ x, x &&& 0x7F = x % 128 ∧ x &&& 0x3F = x % 64 ∧ x &&& 0x1F = x % 32 ∧ x &&& 0x0F = x % 16 := fun x =>
    ⟨Nat.and_two_pow_sub_one_eq_mod x 7, Nat.and_two_pow_sub_one_eq_mod x 6, Nat.and_two_pow_sub_one_eq_mod x 5,
      Nat.and_two_pow_sub_one_eq_mod x 4⟩
  have hfields : fatDate rtc / 2 ^ 9 % 128 + 1980 = rtc.year ∧ fatDate rtc / 2 ^ 5 % 16 = rtc.month ∧
      fatDate rtc % 32 = rtc.day ∧ fatTime rtc / 2 ^ 11 % 32 = rtc.hour ∧ fatTime rtc / 2 ^ 5 % 64 = rtc.minute ∧
      fatTime rtc % 32 * 2 = rtc.second := by
    unfold fatDate fatTime
    omega
  obtain ⟨hy, hm, hd, hh, hmin, hs⟩ := hfields
  simp only [fat32UnixTime, (hmask _).1, (hmask _).2.1, (hmask _).2.2.1, (hmask _).2.2.2, Nat.shiftRight_eq_div_pow,
    hy, hm, hd, hdays, hh, hmin, hs, Option.bind_eq_bind, i32_bind, Nat.add_assoc]
  rw [rtcToUnix_days, RTC.secondOfDay, Nat.add_assoc]

/-- **FAT times** are those of the clock until the `i32` overflows, on 2038-01-19 at 03:14:08. -/
theorem fat32UnixTime_eq_iff (h : rtc.Valid) (hyear : 1980 ≤ rtc.year ∧ rtc.year ≤ 2107) (heven : rtc.second % 2 = 0) :
    fat32UnixTime (fatDate rtc) (fatTime rtc) = some (rtcToUnix rtc) ↔ rtc.fields < [2038, 1, 19, 3, 14, 8] := by
  have hvalid : RTC.Valid ⟨8, 14, 3, 19, 1, 2038⟩ := ⟨by decide, by decide, by decide, by decide, by decide⟩
  have hend : rtcToUnix ⟨8, 14, 3, 19, 1, 2038⟩ = 2 ^ 31 := by decide +kernel
  have hi32 : i32 (rtcToUnix rtc) = some (rtcToUnix rtc) ↔ rtcToUnix rtc < 2 ^ 31 := by simp [i32]
  rw [fat32UnixTime_eq h hyear heven, hi32]
  constructor
  · intro hlt
    rcases lt_trichotomy rtc.fields [2038, 1, 19, 3, 14, 8] with hbefore | heq | hafter
    · exact hbefore
    · obtain ⟨second, minute, hour, day, month, year⟩ := rtc
      simp only [RTC.fields, cons.injEq, and_true] at heq
      obtain ⟨rfl, rfl, rfl, rfl, rfl, rfl⟩ := heq
      omega
    · have := rtcToUnix_lt hvalid h (by decide) hafter
      omega
  · intro hbefore
    rw [← hend]
    exact rtcToUnix_lt h hvalid (by omega) hbefore

theorem fat32UnixTime_1980 : ∃ rtc : RTC, rtc.Valid ∧ rtc.year = 1980 ∧
    fat32UnixTime (fatDate rtc) (fatTime rtc) = some (rtcToUnix rtc) := by
  have h : RTC.Valid ⟨58, 59, 23, 31, 12, 1980⟩ := ⟨by decide, by decide, by decide, by decide, by decide⟩
  exact ⟨_, h, rfl, (fat32UnixTime_eq_iff h (by decide) (by decide)).2 (by decide)⟩

theorem fat32UnixTime_2038 : RTC.Valid ⟨8, 14, 3, 19, 1, 2038⟩ ∧
    fat32UnixTime (fatDate ⟨8, 14, 3, 19, 1, 2038⟩) (fatTime ⟨8, 14, 3, 19, 1, 2038⟩) = none :=
  ⟨⟨by decide, by decide, by decide, by decide, by decide⟩, by decide +kernel⟩

end Fat32

/-! ## Reading the clock -/

/-- The registers of the clock, and the one of the century if there is one. -/
def readRegisters (centuryRegister : Nat) (cmos : Nat → Nat) : RTC × Nat :=
  (⟨cmos 0x00, cmos 0x02, cmos 0x04, cmos 0x07, cmos 0x08, cmos 0x09⟩, if centuryRegister ≠ 0 then cmos centuryRegister else 0)

/-- Reads until two passes agree; `read i` is what the pass `i` finds. -/
def readStable (read : Nat → RTC × Nat) : (fuel i : Nat) → Option (Nat × RTC × Nat)
  | 0, _ => none
  | fuel + 1, i => if read i = read (i + 1) then some (i + 2, read (i + 1)) else readStable read fuel (i + 1)

def fromBcd (bcd : Bool) (value : Nat) : Nat := if bcd then (value &&& 0x0F) + value / 16 * 10 else value

def hourOf (bcd twelve : Bool) (hour : Nat) : Nat :=
  let hour := if bcd then (hour &&& 0x0F) + (hour &&& 0x70) / 16 * 10 ||| hour &&& 0x80 else hour
  if twelve ∧ hour &&& 0x80 ≠ 0 then ((hour &&& 0x7F) + 12) % 24 else hour

def fullYear (centuryRegister century year : Nat) : Nat :=
  if centuryRegister ≠ 0 then year + century * 100
  else if year + 2000 < 2025 then year + 2000 + 100 else year + 2000

/-- `read_from_cmos`, where `cmos i` are the registers at the pass `i`, outside of an update. -/
def readFromCmos (centuryRegister fuel : Nat) (cmos : Nat → Nat → Nat) : Option RTC := do
  let (i, rtc, century) ← readStable (fun i => readRegisters centuryRegister (cmos i)) fuel 0
  let registerB := cmos i 0x0B
  let bcd : Bool := registerB &&& 0x04 = 0
  some ⟨fromBcd bcd rtc.second, fromBcd bcd rtc.minute, hourOf bcd (registerB &&& 0x02 = 0) rtc.hour,
    fromBcd bcd rtc.day, fromBcd bcd rtc.month,
    fullYear centuryRegister (fromBcd bcd century) (fromBcd bcd rtc.year)⟩

/-- A number as a register holds it. -/
def encoded (bcd : Bool) (n : Nat) : Nat := if bcd then n / 10 * 16 + n % 10 else n

/-- With twelve hours the hours are 12, 1, …, 11 with the high bit for p.m. -/
def encodedHour (bcd twelve : Bool) (hour : Nat) : Nat :=
  if twelve then encoded bcd ((hour + 11) % 12 + 1) + (if 12 ≤ hour then 0x80 else 0) else encoded bcd hour

/-- The registers show the time, in the format that register B names. -/
structure Shows (centuryRegister : Nat) (bcd twelve : Bool) (cmos : Nat → Nat) (rtc : RTC) : Prop where
  registers : readRegisters centuryRegister cmos = (⟨encoded bcd rtc.second, encoded bcd rtc.minute,
    encodedHour bcd twelve rtc.hour, encoded bcd rtc.day, encoded bcd rtc.month, encoded bcd (rtc.year % 100)⟩,
    encoded bcd (rtc.year / 100))
  bcd : (cmos 0x0B &&& 0x04 = 0) ↔ bcd
  twelve : (cmos 0x0B &&& 0x02 = 0) ↔ twelve

theorem fromBcd_encoded {bcd : Bool} {n : Nat} (h : bcd → n < 100) : fromBcd bcd (encoded bcd n) = n := by
  have htwo : ∀ n < 100, fromBcd true (encoded true n) = n := by decide
  cases bcd with
  | false => rfl
  | true => exact htwo n (h rfl)

theorem hourOf_encodedHour_iff : ∀ bcd twelve : Bool, ∀ hour < 24,
    hourOf bcd twelve (encodedHour bcd twelve hour) = hour ↔ twelve = false ∨ hour % 12 ≠ 0 := by
  decide

/-- **Reading the clock** gives the time that it shows, in all modes and at all hours but noon and midnight on a
clock of twelve hours. -/
theorem readFromCmos_iff {centuryRegister fuel : Nat} {bcd twelve : Bool} {cmos : Nat → Nat} (h : rtc.Valid)
    (hyear : bcd → rtc.year < 10000) (hcentury : centuryRegister ≠ 0) (hshows : Shows centuryRegister bcd twelve cmos rtc) :
    readFromCmos centuryRegister (fuel + 1) (fun _ => cmos) = some rtc ↔ twelve = false ∨ rtc.hour % 12 ≠ 0 := by
  have hstable : readStable (fun _ => readRegisters centuryRegister cmos) (fuel + 1) 0 = some (2, _) := if_pos rfl
  have hdecode : ∀ n < 100, fromBcd bcd (encoded bcd n) = n := fun n hn => fromBcd_encoded fun _ => hn
  have hcenturies : fromBcd bcd (encoded bcd (rtc.year / 100)) = rtc.year / 100 :=
    fromBcd_encoded fun hbcd => by have := hyear hbcd; omega
  have hday := h.day_le
  obtain ⟨⟨-, hmonth⟩, -, hhour, hminute, hsecond⟩ := h
  rw [← hourOf_encodedHour_iff bcd twelve rtc.hour hhour, readFromCmos, hstable, hshows.registers]
  simp only [Option.bind_eq_bind, Option.bind_some, hshows.bcd, hshows.twelve, Bool.decide_eq_true,
    hdecode rtc.second (by omega), hdecode rtc.minute (by omega), hdecode rtc.day (by omega),
    hdecode rtc.month (by omega), hdecode (rtc.year % 100) (by omega), hcenturies, fullYear, if_pos hcentury, Nat.mod_add_div']
  obtain ⟨second, minute, hour, day, month, year⟩ := rtc
  simp

/-- The registers of a clock that shows a time of the year 2024, with the century in register 0x32. -/
def shown (hour registerB : Nat) (register : Nat) : Nat :=
  if register = 0x04 then hour else if register = 0x07 then 0x29 else if register = 0x08 then 0x02
  else if register = 0x09 then 0x24 else if register = 0x32 then 0x20 else if register = 0x0B then registerB else 0

theorem readFromCmos_evening : RTC.Valid ⟨0, 0, 23, 29, 2, 2024⟩ ∧
    readFromCmos 0x32 1 (fun _ => shown 0x91 0) = some ⟨0, 0, 23, 29, 2, 2024⟩ := by
  have h : RTC.Valid ⟨0, 0, 23, 29, 2, 2024⟩ := ⟨by decide, by decide, by decide, by decide, by decide⟩
  have hshows : Shows 0x32 true true (shown 0x91 0) ⟨0, 0, 23, 29, 2, 2024⟩ := ⟨by decide, by decide, by decide⟩
  exact ⟨h, (readFromCmos_iff h (by decide) (by decide) hshows).2 (by decide)⟩

/-- At noon the clock shows 12 p.m. -/
theorem readFromCmos_noon : Shows 0x32 true true (shown 0x92 0) ⟨0, 0, 12, 29, 2, 2024⟩ ∧
    readFromCmos 0x32 1 (fun _ => shown 0x92 0) = some ⟨0, 0, 0, 29, 2, 2024⟩ :=
  ⟨⟨by decide, by decide, by decide⟩, by decide⟩

end CoreX.Rtc
