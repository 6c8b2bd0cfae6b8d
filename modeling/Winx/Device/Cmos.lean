import Winx.Impl.Math
import Winx.Lib.Blocks
import Winx.Lib.Word

/-! # The calendar of the clock

A timestamp counts seconds from the start of 1970. The two conversions count off years and
months in loops of their own, with two forms of the rule for leap years. Both agree with
one calendar of consecutive years and months, so that they undo each other.
-/

namespace Winx

namespace Calendar

/-- The leap years. -/
def Leap (y : ℕ) : Prop := y % 4 = 0 ∧ (y % 100 ≠ 0 ∨ y % 400 = 0)

instance : DecidablePred Leap := fun y => inferInstanceAs (Decidable (y % 4 = 0 ∧ (y % 100 ≠ 0 ∨ y % 400 = 0)))

/-- The days of a year. -/
def yearDays (y : ℕ) : ℕ := if Leap y then 366 else 365

/-- The days of a month, counted from 0. -/
def monthDays (y m : ℕ) : ℕ :=
  if m = 1 then if Leap y then 29 else 28
  else if m = 3 ∨ m = 5 ∨ m = 8 ∨ m = 10 then 30
  else 31

/-- Years from 1970 on. -/
abbrev yearsFrom1970 (k : ℕ) : ℕ := yearDays (1970 + k)

theorem le_yearDays (y : ℕ) : 365 ≤ yearDays y := by
  unfold yearDays
  split <;> omega

theorem monthDays_le (y m : ℕ) : monthDays y m ≤ 31 := by
  unfold monthDays
  split_ifs <;> omega

/-- Twelve months make a year. -/
theorem start_monthDays (y : ℕ) : Blocks.start (monthDays y) 12 = yearDays y := by
  by_cases hleap : Leap y
  · simp [Blocks.start, monthDays, yearDays, hleap]
  · simp [Blocks.start, monthDays, yearDays, hleap]

end Calendar

/-- `struct tm`: the month counts from 0, the year from 1900. -/
structure Tm where
  tmSec : UInt32
  tmMin : UInt32
  tmHour : UInt32
  tmMday : UInt32
  tmMon : UInt32
  tmYear : UInt32
  deriving DecidableEq

namespace Cmos

/-- A counter below its limit gets closer to it. -/
theorem sub_succ_lt {limit y : UInt32} (h : y < limit) : limit.toNat - (y + 1).toNat < limit.toNat - y.toNat := by
  have hlt := UInt32.lt_iff_toNat_lt.mp h
  have hmax := limit.toNat_lt
  rw [Word.toNat_add (by rw [UInt32.toNat_one]; omega), UInt32.toNat_one]
  omega

/-- Something taken off makes a word smaller. -/
theorem toNat_sub_lt {days len : UInt32} (h : days ≥ len) (hpos : 0 < len.toNat) :
    (days - len).toNat < days.toNat := by
  have hle := UInt32.le_iff_toNat_le.mp h
  rw [Word.toNat_sub hle]
  omega

/-- `is_leap_year`. -/
def isLeapYear (year : Int32) : Bool := (year % 4 = 0 ∧ year % 100 ≠ 0) ∨ year % 400 = 0

/-- `days_in_month`. -/
def daysInMonth (month year : Int32) : Int32 :=
  if month = 2 then
    if isLeapYear year then 29 else 28
  else if month = 4 ∨ month = 6 ∨ month = 9 ∨ month = 11 then 30
  else 31

/-- `for (; y < limit; y++) total_seconds += seconds(y)`. -/
def countUp (limit : UInt32) (seconds : UInt32 → UInt64) (y : UInt32) (totalSeconds : UInt64) : UInt64 :=
  if y < limit then countUp limit seconds (y + 1) (totalSeconds + seconds y) else totalSeconds
termination_by limit.toNat - y.toNat
decreasing_by exact sub_succ_lt ‹_›

/-- What a year adds. -/
def yearSeconds (y : UInt32) : UInt64 := if isLeapYear y.toInt32 then 31622400 else 31536000

/-- What the month after `m` adds. -/
def monthSeconds (year m : UInt32) : UInt64 :=
  (daysInMonth (m + 1).toInt32 year.toInt32 * 24 * 60 * 60).toInt64.toUInt64

/-- `datetime_to_timestamp`. -/
def datetimeToTimestamp : Option Tm → UInt64
  | none => 0
  | some tm =>
    let totalSeconds := countUp (tm.tmYear + 1900) yearSeconds 1970 0
    let totalSeconds := countUp tm.tmMon (monthSeconds (tm.tmYear + 1900)) 0 totalSeconds
    let totalSeconds := totalSeconds + ((tm.tmMday - 1) * 24 * 60 * 60).toUInt64
    totalSeconds + (tm.tmHour * 60 * 60 + tm.tmMin * 60 + tm.tmSec).toUInt64

/-- The days of a year as the loop of `timestamp_to_datetime` has them. -/
def yearLength (year : UInt32) : UInt32 :=
  365 + if year % 4 = 0 ∧ (year % 100 ≠ 0 ∨ year % 400 = 0) then 1 else 0

/-- `days_in_month` as the loop of `timestamp_to_datetime` compares it. -/
def monthLength (year month : UInt32) : UInt32 := (daysInMonth month.toInt32 year.toInt32).toUInt32

theorem yearLength_pos (year : UInt32) : 0 < (yearLength year).toNat := by
  unfold yearLength
  split <;> decide

theorem monthLength_pos (year month : UInt32) : 0 < (monthLength year month).toNat := by
  unfold monthLength daysInMonth
  split_ifs <;> decide

/-- `while (days >= len(k)) { days -= len(k); k++; }`. -/
def countOff (len : UInt32 → UInt32) (hpos : ∀ k, 0 < (len k).toNat) (days k : UInt32) : UInt32 × UInt32 :=
  if days ≥ len k then countOff len hpos (days - len k) (k + 1) else (days, k)
termination_by days.toNat
decreasing_by exact toNat_sub_lt ‹_› (hpos k)

/-- What `timestamp_to_datetime` stores. -/
def datetimeOf (timestamp : UInt64) : Tm :=
  let days := (Math.divideU64U32NoMod timestamp (24 * 3600)).toUInt32
  let years := countOff yearLength yearLength_pos days 1970
  let year := years.2
  let months := countOff (monthLength year) (monthLength_pos year) years.1 1
  { tmYear := year - 1900
    tmMon := months.2 - 1
    tmMday := months.1 + 1
    tmHour := (Math.divideU64U32NoMod (Math.modU64U32 timestamp (24 * 3600)) 3600).toUInt32
    tmMin := (Math.divideU64U32NoMod (Math.modU64U32 timestamp 3600) 60).toUInt32
    tmSec := (Math.modU64U32 timestamp 60).toUInt32 }

/-- `timestamp_to_datetime`, with the structure behind the pointer before and after. -/
def timestampToDatetime (timestamp : UInt64) : Option Tm → Option Tm
  | none => none
  | some _ => some (datetimeOf timestamp)

/-! ## Leap years and months -/

variable {y m days : UInt32} {total : UInt64} {k D : ℕ}

theorem toInt_toInt32 (h : y.toNat < 2 ^ 31) : y.toInt32.toInt = y.toNat :=
  BitVec.toInt_eq_toNat_of_lt (by
    change 2 * y.toNat < 2 ^ 32
    omega)

/-- The remainder of a word as an `int`. -/
theorem toInt32_mod_eq_zero_iff {d : Int32} {n : ℕ} (h : y.toNat < 2 ^ 31) (hd : d.toInt = n) :
    y.toInt32 % d = 0 ↔ y.toNat % n = 0 := by
  rw [← Int32.toInt_inj, Int32.toInt_mod, toInt_toInt32 h, hd, Int32.toInt_zero, ← Int.ofNat_tmod]
  exact Int.natCast_eq_zero

theorem isLeapYear_iff (h : y.toNat < 2 ^ 31) : isLeapYear y.toInt32 = true ↔ Calendar.Leap y.toNat := by
  unfold isLeapYear Calendar.Leap
  have h4 := toInt32_mod_eq_zero_iff (d := 4) (n := 4) h rfl
  have h100 := toInt32_mod_eq_zero_iff (d := 100) (n := 100) h rfl
  have h400 := toInt32_mod_eq_zero_iff (d := 400) (n := 400) h rfl
  rw [decide_eq_true_iff, ne_eq, h4, h100, h400]
  omega

theorem yearLength_eq (y : UInt32) : (yearLength y).toNat = Calendar.yearDays y.toNat := by
  have hmod (d : UInt32) : y % d = 0 ↔ y.toNat % d.toNat = 0 := by
    rw [← UInt32.toNat_inj, UInt32.toNat_mod, UInt32.toNat_zero]
  unfold yearLength Calendar.yearDays Calendar.Leap
  simp only [ne_eq, hmod]
  split
  · rename_i hleap
    exact (if_pos hleap).symm
  · rename_i hleap
    exact (if_neg hleap).symm

theorem toInt32_eq_iff {d : Int32} {n : ℕ} (h : m.toNat < 2 ^ 31) (hd : d.toInt = n) :
    m.toInt32 = d ↔ m.toNat = n := by
  rw [← Int32.toInt_inj, toInt_toInt32 h, hd]
  exact Int.natCast_inj

/-- Months are counted from 1 here. -/
theorem daysInMonth_eq (hm : m.toNat = k + 1) (hk : k + 1 < 2 ^ 31) (hy : y.toNat < 2 ^ 31) :
    daysInMonth m.toInt32 y.toInt32 = Int32.ofNat (Calendar.monthDays y.toNat k) := by
  have heq {d : Int32} {n : ℕ} (hd : d.toInt = (n + 1 : ℕ)) : m.toInt32 = d ↔ k = n := by
    rw [toInt32_eq_iff (by omega) hd, hm, Nat.add_right_cancel_iff]
  have h2 : m.toInt32 = 2 ↔ k = 1 := heq rfl
  have h4 : m.toInt32 = 4 ↔ k = 3 := heq rfl
  have h6 : m.toInt32 = 6 ↔ k = 5 := heq rfl
  have h9 : m.toInt32 = 9 ↔ k = 8 := heq rfl
  have h11 : m.toInt32 = 11 ↔ k = 10 := heq rfl
  unfold daysInMonth Calendar.monthDays
  simp only [h2, h4, h6, h9, h11, isLeapYear_iff hy]
  split_ifs <;> rfl

theorem monthLength_eq (hm : m.toNat = k + 1) (hk : k + 1 < 2 ^ 31) (hy : y.toNat < 2 ^ 31) :
    (monthLength y m).toNat = Calendar.monthDays y.toNat k := by
  have := Calendar.monthDays_le y.toNat k
  rw [monthLength, daysInMonth_eq hm hk hy, Int32.toUInt32_ofNat', Word.toNat_ofNat (by omega)]

theorem yearSeconds_eq (h : y.toNat < 2 ^ 31) :
    yearSeconds y = UInt64.ofNat (86400 * Calendar.yearDays y.toNat) := by
  unfold yearSeconds Calendar.yearDays
  simp only [isLeapYear_iff h]
  split <;> rfl

/-- The product is in range for an `int`. -/
theorem monthSeconds_eq (hm : m.toNat = k) (hk : k + 1 < 2 ^ 31) (hy : y.toNat < 2 ^ 31) :
    monthSeconds y m = UInt64.ofNat (86400 * Calendar.monthDays y.toNat k) := by
  have hint : ∀ n ≤ 31, (Int32.ofNat n * 24 * 60 * 60).toInt64.toUInt64 = UInt64.ofNat (86400 * n) := by
    decide
  have hnext : (m + 1).toNat = k + 1 := by
    rw [Word.toNat_add (by rw [UInt32.toNat_one]; omega), UInt32.toNat_one, hm]
  rw [monthSeconds, daysInMonth_eq hnext hk hy]
  exact hint _ (Calendar.monthDays_le _ _)

/-! ## The loops -/

/-- Counting up adds the blocks between the two ends. -/
theorem countUp_eq {limit : UInt32} {seconds : UInt32 → UInt64} {len : ℕ → ℕ}
    (hseconds : ∀ w : UInt32, y ≤ w → w < limit → seconds w = UInt64.ofNat (86400 * len w.toNat))
    (hk : y.toNat + k = limit.toNat) :
    countUp limit seconds y total =
      total + UInt64.ofNat (86400 * Blocks.start (fun i => len (y.toNat + i)) k) := by
  induction k generalizing y total with
  | zero =>
    have hge : ¬ y < limit := by
      rw [UInt32.lt_iff_toNat_lt]
      omega
    rw [countUp, if_neg hge, Blocks.start_zero, Nat.mul_zero]
    exact (UInt64.add_zero _).symm
  | succ k ih =>
    have hlt : y < limit := by
      rw [UInt32.lt_iff_toNat_lt]
      omega
    have hmax := limit.toNat_lt
    have hnext : (y + 1).toNat = y.toNat + 1 := by
      rw [Word.toNat_add (by rw [UInt32.toNat_one]; omega), UInt32.toNat_one]
    have hlens : (fun i => len ((y + 1).toNat + i)) = fun i => len (y.toNat + (i + 1)) := by
      funext i
      rw [hnext, Nat.add_assoc, Nat.add_comm 1]
    rw [countUp, if_pos hlt, ih _ (by omega), hlens, hseconds y (UInt32.le_refl y) hlt,
      Blocks.start_succ_left, Nat.mul_add, UInt64.ofNat_add, UInt64.add_assoc, Nat.add_zero]
    intro w hle hw
    apply hseconds w _ hw
    rw [UInt32.le_iff_toNat_le] at hle ⊢
    omega

/-- Counting off ends in the block of the number. -/
theorem countOff_at {len : UInt32 → UInt32} {hpos : ∀ k, 0 < (len k).toNat} {lens : ℕ → ℕ}
    {base bound : ℕ} (hlen : ∀ (w : UInt32) (i : ℕ), w.toNat = base + i → i < bound → (len w).toNat = lens i)
    (hbound : base + bound < 2 ^ 32) (hD : D < Blocks.start lens bound)
    (hy : y.toNat = base + k) (hdays : Blocks.start lens k + days.toNat = D) :
    ∃ i, (countOff len hpos days y).2.toNat = base + i ∧
      Blocks.At lens D i (countOff len hpos days y).1.toNat := by
  have hk : k < bound := Blocks.lt_of_start_lt (lt_of_le_of_lt (Nat.le_of_add_right_le hdays.le) hD)
  fun_induction countOff len hpos days y generalizing k with
  | case1 days y hge ih =>
    have hge := UInt32.le_iff_toNat_le.mp hge
    have hword := hlen y k hy hk
    have hleft : Blocks.start lens (k + 1) + (days - len y).toNat = D := by
      rw [Word.toNat_sub hge, Blocks.start_succ]
      omega
    apply ih (k := k + 1)
    · rw [Word.toNat_add (by rw [UInt32.toNat_one]; omega), UInt32.toNat_one]
      omega
    · exact hleft
    · exact Blocks.lt_of_start_lt (lt_of_le_of_lt (Nat.le_of_add_right_le hleft.le) hD)
  | case2 days y hlt =>
    refine ⟨k, hy, hdays, ?_⟩
    rw [← hlen y k hy hk]
    exact Nat.lt_of_not_le fun h => hlt (UInt32.le_iff_toNat_le.mpr h)

/-- Counting off from the first block. -/
theorem countOff_start {len : UInt32 → UInt32} {hpos : ∀ k, 0 < (len k).toNat} {lens : ℕ → ℕ} {bound : ℕ}
    (hlen : ∀ (w : UInt32) (i : ℕ), w.toNat = y.toNat + i → i < bound → (len w).toNat = lens i)
    (hbound : y.toNat + bound < 2 ^ 32) (hdays : days.toNat < Blocks.start lens bound) :
    ∃ i, (countOff len hpos days y).2.toNat = y.toNat + i ∧ i < bound ∧
      Blocks.At lens days.toNat i (countOff len hpos days y).1.toNat := by
  obtain ⟨i, hi, hat⟩ := countOff_at (k := 0) hlen hbound hdays rfl (Nat.zero_add _)
  exact ⟨i, hi, hat.lt_of_lt_start hdays, hat⟩

/-! ## The conversions -/

end Cmos

namespace Tm

/-- A date of the calendar with a time of day. -/
structure Valid (tm : Tm) : Prop where
  mon_lt : tm.tmMon.toNat < 12
  mday_pos : 0 < tm.tmMday.toNat
  mday_le : tm.tmMday.toNat ≤ Calendar.monthDays (tm.tmYear.toNat + 1900) tm.tmMon.toNat
  hour_lt : tm.tmHour.toNat < 24
  min_lt : tm.tmMin.toNat < 60
  sec_lt : tm.tmSec.toNat < 60

/-- The days of the year before the date. -/
def dayOfYear (tm : Tm) : ℕ :=
  Blocks.start (Calendar.monthDays (tm.tmYear.toNat + 1900)) tm.tmMon.toNat + (tm.tmMday.toNat - 1)

/-- The days from the start of 1970 to the date. -/
def dayNumber (tm : Tm) : ℕ :=
  Blocks.start Calendar.yearsFrom1970 (tm.tmYear.toNat - 70) + tm.dayOfYear

/-- The seconds of the day before the time. -/
def secondOfDay (tm : Tm) : ℕ := tm.tmHour.toNat * 3600 + tm.tmMin.toNat * 60 + tm.tmSec.toNat

variable {tm tm' : Tm}

theorem Valid.at_month (h : tm.Valid) : Blocks.At (Calendar.monthDays (tm.tmYear.toNat + 1900)) tm.dayOfYear
    tm.tmMon.toNat (tm.tmMday.toNat - 1) :=
  ⟨rfl, by have := h.mday_pos; have := h.mday_le; omega⟩

theorem Valid.at_year (h : tm.Valid) (hyear : 70 ≤ tm.tmYear.toNat) :
    Blocks.At Calendar.yearsFrom1970 tm.dayNumber (tm.tmYear.toNat - 70) tm.dayOfYear := by
  refine ⟨rfl, ?_⟩
  have hlt := h.at_month.lt_start_succ
  have hmono := (Blocks.start_mono h.mon_lt).trans_eq
    (Calendar.start_monthDays (tm.tmYear.toNat + 1900))
  have hcal : 1970 + (tm.tmYear.toNat - 70) = tm.tmYear.toNat + 1900 := by omega
  change _ < Calendar.yearDays (1970 + (tm.tmYear.toNat - 70))
  rw [hcal]
  exact hlt.trans_le hmono

theorem Valid.secondOfDay_lt (h : tm.Valid) : tm.secondOfDay < 86400 := by
  have := h.hour_lt
  have := h.min_lt
  have := h.sec_lt
  unfold secondOfDay
  omega

/-- A date is known from its day and its second. -/
theorem Valid.ext (h : tm.Valid) (h' : tm'.Valid) (hyear : 70 ≤ tm.tmYear.toNat)
    (hyear' : 70 ≤ tm'.tmYear.toNat) (hday : tm.dayNumber = tm'.dayNumber)
    (hsec : tm.secondOfDay = tm'.secondOfDay) : tm = tm' := by
  obtain ⟨hy, hdoy⟩ := (h.at_year hyear).unique (hday ▸ h'.at_year hyear')
  have hy : tm.tmYear.toNat = tm'.tmYear.toNat := by omega
  have hmonth' := h'.at_month
  rw [← hdoy, ← hy] at hmonth'
  obtain ⟨hmon, hmday⟩ := h.at_month.unique hmonth'
  have := h.mday_pos
  have := h'.mday_pos
  have := h.hour_lt
  have := h.min_lt
  have := h.sec_lt
  have := h'.hour_lt
  have := h'.min_lt
  have := h'.sec_lt
  unfold secondOfDay at hsec
  cases tm
  cases tm'
  simp only [Tm.mk.injEq, ← UInt32.toNat_inj]
  dsimp only at *
  omega

end Tm

namespace Cmos

variable {tm : Tm} {t : UInt64}

/-- Days up to the 32-bit limit are in years far below it. -/
theorem year_lt (hday : tm.dayNumber < 2 ^ 32) : tm.tmYear.toNat < 2 ^ 24 := by
  have hyears : 365 * (tm.tmYear.toNat - 70) ≤ Blocks.start Calendar.yearsFrom1970 (tm.tmYear.toNat - 70) :=
    Blocks.mul_le_start (fun k => Calendar.le_yearDays _) _
  unfold Tm.dayNumber at hday
  omega

/-- The seconds of whole days, computed in 32 bits. -/
theorem daySeconds_eq {w : UInt32} (h : w.toNat < 31) :
    (w * 24 * 60 * 60).toUInt64 = UInt64.ofNat (86400 * w.toNat) := by
  apply UInt64.toNat_inj.mp
  rw [UInt32.toNat_toUInt64, UInt32.toNat_mul, UInt32.toNat_mul, UInt32.toNat_mul, UInt64.toNat_ofNat']
  change w.toNat * 24 % 2 ^ 32 * 60 % 2 ^ 32 * 60 % 2 ^ 32 = 86400 * w.toNat % 2 ^ 64
  simp (disch := omega) only [Nat.mod_eq_of_lt]
  omega

/-- The seconds of the time of day, computed in 32 bits. -/
theorem timeSeconds_eq (h : tm.Valid) :
    (tm.tmHour * 60 * 60 + tm.tmMin * 60 + tm.tmSec).toUInt64 = UInt64.ofNat tm.secondOfDay := by
  have hhour := h.hour_lt
  have hmin := h.min_lt
  have hsec := h.sec_lt
  apply UInt64.toNat_inj.mp
  rw [UInt32.toNat_toUInt64, UInt32.toNat_add, UInt32.toNat_add, UInt32.toNat_mul, UInt32.toNat_mul,
    UInt32.toNat_mul, UInt64.toNat_ofNat']
  unfold Tm.secondOfDay
  change ((tm.tmHour.toNat * 60 % 2 ^ 32 * 60 % 2 ^ 32 + tm.tmMin.toNat * 60 % 2 ^ 32) % 2 ^ 32 +
    tm.tmSec.toNat) % 2 ^ 32 = _ % 2 ^ 64
  simp (disch := omega) only [Nat.mod_eq_of_lt]
  omega

theorem datetimeToTimestamp_eq (h : tm.Valid) (hyear : 70 ≤ tm.tmYear.toNat) (hday : tm.dayNumber < 2 ^ 32) :
    datetimeToTimestamp (some tm) = UInt64.ofNat (86400 * tm.dayNumber + tm.secondOfDay) := by
  have hlt := year_lt hday
  have hmon := h.mon_lt
  have hpos := h.mday_pos
  have hle := h.mday_le.trans (Calendar.monthDays_le _ _)
  have hy : (tm.tmYear + 1900).toNat = tm.tmYear.toNat + 1900 :=
    Word.toNat_add (by change tm.tmYear.toNat + 1900 < 2 ^ 32; omega)
  have hmday : (tm.tmMday - 1).toNat = tm.tmMday.toNat - 1 := Word.toNat_sub hpos
  have hyears : countUp (tm.tmYear + 1900) yearSeconds 1970 0 =
      0 + UInt64.ofNat (86400 * Blocks.start Calendar.yearsFrom1970 (tm.tmYear.toNat - 70)) := by
    apply countUp_eq
    · intro w _ hw
      apply yearSeconds_eq
      have := UInt32.lt_iff_toNat_lt.mp hw
      omega
    · change 1970 + _ = _
      omega
  have hmonths (total : UInt64) : countUp tm.tmMon (monthSeconds (tm.tmYear + 1900)) 0 total =
      total + UInt64.ofNat (86400 *
        Blocks.start (fun i => Calendar.monthDays (tm.tmYear.toNat + 1900) (0 + i)) tm.tmMon.toNat) := by
    apply countUp_eq
    · intro w _ hw
      have := UInt32.lt_iff_toNat_lt.mp hw
      rw [monthSeconds_eq rfl (by omega) (by omega), hy]
    · exact Nat.zero_add _
  simp only [Nat.zero_add] at hmonths
  change countUp tm.tmMon _ 0 (countUp _ _ _ _) + _ + _ = _
  rw [hyears, hmonths, daySeconds_eq (by omega), timeSeconds_eq h, hmday, UInt64.zero_add,
    ← UInt64.ofNat_add, ← UInt64.ofNat_add, ← UInt64.ofNat_add]
  unfold Tm.dayNumber Tm.dayOfYear
  rw [Nat.mul_add, Nat.mul_add, Nat.add_assoc (86400 * _) (86400 * _) (86400 * _)]

theorem countYears_at (days : UInt32) : ∃ i, (countOff yearLength yearLength_pos days 1970).2.toNat = 1970 + i ∧
    i < 2 ^ 24 ∧ Blocks.At Calendar.yearsFrom1970 days.toNat i
      (countOff yearLength yearLength_pos days 1970).1.toNat := by
  have hbound : days.toNat < Blocks.start Calendar.yearsFrom1970 (2 ^ 24) :=
    calc days.toNat < 2 ^ 32 := days.toNat_lt
      _ ≤ 365 * 2 ^ 24 := by norm_num
      _ ≤ _ := Blocks.mul_le_start (fun k => Calendar.le_yearDays _) _
  apply countOff_start
  · intro w i hw _
    rw [yearLength_eq, hw]
    rfl
  · change 1970 + 2 ^ 24 < 2 ^ 32
    norm_num
  · exact hbound

theorem countMonths_at {days year : UInt32} (hyear : year.toNat < 2 ^ 31)
    (hdays : days.toNat < Calendar.yearDays year.toNat) :
    ∃ i, (countOff (monthLength year) (monthLength_pos year) days 1).2.toNat = 1 + i ∧ i < 12 ∧
      Blocks.At (Calendar.monthDays year.toNat) days.toNat i
        (countOff (monthLength year) (monthLength_pos year) days 1).1.toNat := by
  rw [← Calendar.start_monthDays] at hdays
  apply countOff_start
  · intro w i hw hi
    exact monthLength_eq (hw.trans (Nat.add_comm 1 i)) (by omega) hyear
  · change 1 + 12 < 2 ^ 32
    norm_num
  · exact hdays

/-- The three quotients of a time of day. -/
theorem timeOfDay (t : UInt64) :
    ((Math.divideU64U32NoMod (Math.modU64U32 t (24 * 3600)) 3600).toUInt32.toNat = t.toNat % 86400 / 3600) ∧
      ((Math.divideU64U32NoMod (Math.modU64U32 t 3600) 60).toUInt32.toNat = t.toNat % 3600 / 60) ∧
      (Math.modU64U32 t 60).toUInt32.toNat = t.toNat % 60 := by
  rw [UInt64.toNat_toUInt32, UInt64.toNat_toUInt32, UInt64.toNat_toUInt32,
    Math.toNat_divideU64U32NoMod (by decide), Math.toNat_divideU64U32NoMod (by decide),
    Math.toNat_modU64U32 (by decide), Math.toNat_modU64U32 (by decide), Math.toNat_modU64U32 (by decide)]
  change t.toNat % 86400 / 3600 % 2 ^ 32 = _ ∧ t.toNat % 3600 / 60 % 2 ^ 32 = _ ∧ t.toNat % 60 % 2 ^ 32 = _
  omega

/-- The date lies at the day of the timestamp. -/
theorem datetimeOf_spec (ht : t.toNat / 86400 < 2 ^ 32) :
    (datetimeOf t).Valid ∧ 70 ≤ (datetimeOf t).tmYear.toNat ∧
      (datetimeOf t).dayNumber = t.toNat / 86400 ∧ (datetimeOf t).secondOfDay = t.toNat % 86400 := by
  have hdays : (Math.divideU64U32NoMod t (24 * 3600)).toUInt32.toNat = t.toNat / 86400 := by
    rw [UInt64.toNat_toUInt32, Math.toNat_divideU64U32NoMod (by decide)]
    exact Nat.mod_eq_of_lt ht
  obtain ⟨hhour, hmin, hsec⟩ := timeOfDay t
  obtain ⟨i, hi, hilt, hati⟩ := countYears_at (Math.divideU64U32NoMod t (24 * 3600)).toUInt32
  rw [hdays] at hati
  unfold datetimeOf
  dsimp only
  generalize countOff yearLength yearLength_pos (Math.divideU64U32NoMod t (24 * 3600)).toUInt32 1970 = years
    at hi hati ⊢
  have hlt := hati.lt
  rw [Calendar.yearsFrom1970, ← hi] at hlt
  obtain ⟨j, hj, hjlt, hatj⟩ := countMonths_at (by omega) hlt
  generalize countOff (monthLength years.2) (monthLength_pos years.2) years.1 1 = months at hj hatj ⊢
  have hyear : (years.2 - 1900).toNat = i + 70 := by
    rw [Word.toNat_sub (by change 1900 ≤ _; omega), hi]
    change 1970 + i - 1900 = _
    omega
  have hmonth : (months.2 - 1).toNat = j := by
    rw [Word.toNat_sub (by change 1 ≤ _; omega), hj]
    change 1 + j - 1 = j
    omega
  have hmlt := hatj.lt
  have hmle := Calendar.monthDays_le years.2.toNat j
  have hmday : (months.1 + 1).toNat = months.1.toNat + 1 := by
    rw [Word.toNat_add (by rw [UInt32.toNat_one]; omega), UInt32.toNat_one]
  have hcal : i + 70 + 1900 = years.2.toNat := by omega
  refine ⟨⟨hmonth.trans_lt hjlt, ?_, ?_, ?_, ?_, ?_⟩, ?_, ?_, ?_⟩
  · change 0 < (months.1 + 1).toNat
    omega
  · change (months.1 + 1).toNat ≤ Calendar.monthDays ((years.2 - 1900).toNat + 1900) (months.2 - 1).toNat
    rw [hyear, hmonth, hmday, hcal]
    omega
  · exact hhour.trans_lt (by omega)
  · exact hmin.trans_lt (by omega)
  · exact hsec.trans_lt (by omega)
  · exact (Nat.le_add_left 70 i).trans_eq hyear.symm
  · unfold Tm.dayNumber Tm.dayOfYear
    dsimp only
    rw [hyear, hmonth, hmday, hcal, Nat.add_sub_cancel, Nat.add_sub_cancel, hatj.eq, hati.eq]
  · unfold Tm.secondOfDay
    dsimp only
    omega

/-- The two conversions undo each other on all days up to the 32-bit limit. -/
theorem datetime_timestamp_inverse :
    (∀ (t : UInt64) (old : Tm), t.toNat / 86400 < 2 ^ 32 → ∃ tm, timestampToDatetime t (some old) = some tm ∧
        tm.Valid ∧ datetimeToTimestamp (some tm) = t) ∧
      ∀ (tm old : Tm), tm.Valid → 70 ≤ tm.tmYear.toNat → tm.dayNumber < 2 ^ 32 →
        timestampToDatetime (datetimeToTimestamp (some tm)) (some old) = some tm := by
  constructor
  · intro t old ht
    obtain ⟨hvalid, hyear, hday, hsec⟩ := datetimeOf_spec ht
    refine ⟨datetimeOf t, rfl, hvalid, ?_⟩
    rw [datetimeToTimestamp_eq hvalid hyear (by rw [hday]; exact ht), hday, hsec, Nat.div_add_mod,
      UInt64.ofNat_toNat]
  · intro tm old h hyear hday
    have hsec := h.secondOfDay_lt
    have ht : (datetimeToTimestamp (some tm)).toNat = 86400 * tm.dayNumber + tm.secondOfDay := by
      rw [datetimeToTimestamp_eq h hyear hday, UInt64.toNat_ofNat']
      exact Nat.mod_eq_of_lt (by omega)
    obtain ⟨hvalid, hyear', hday', hsec'⟩ :=
      datetimeOf_spec (t := datetimeToTimestamp (some tm)) (by omega)
    rw [ht] at hday' hsec'
    exact congrArg some (hvalid.ext h hyear' hyear (by omega) (by omega))

/-- The leap day of 2000 at noon, both ways. -/
theorem datetime_timestamp_inverse_leapDay :
    (∃ tm, timestampToDatetime 951825600 (some ⟨0, 0, 0, 0, 0, 0⟩) = some tm ∧ tm.Valid ∧
        datetimeToTimestamp (some tm) = 951825600) ∧
      timestampToDatetime (datetimeToTimestamp (some ⟨0, 0, 12, 29, 1, 100⟩)) (some ⟨0, 0, 0, 0, 0, 0⟩) =
        some ⟨0, 0, 12, 29, 1, 100⟩ := by
  constructor
  · exact datetime_timestamp_inverse.1 951825600 _ (by decide)
  · apply datetime_timestamp_inverse.2
    · exact ⟨by decide, by decide, by decide, by decide, by decide, by decide⟩
    · decide
    · decide

end Cmos
end Winx
