import Mathlib.Data.Int.Basic
import Mathlib.Data.List.Basic
import Mathlib.Tactic.IntervalCases

/-!
# The date picker cell

Each edit of the picker makes a new date out of the fields of the old one. The
dates are those of the system: a calendar tells their fields, and for the
fields of a valid date gives the date that has them.
-/

namespace BathyScaphe.Palette

-- Dates of the calendar

def IsLeap (year : Int) : Prop := 4 ∣ year ∧ (100 ∣ year → 400 ∣ year)

instance : Decidable (IsLeap year) := inferInstanceAs (Decidable (_ ∧ _))

def daysOf (year month : Int) : Int :=
  if month = 2 then (if IsLeap year then 29 else 28)
  else if month = 4 ∨ month = 6 ∨ month = 9 ∨ month = 11 then 30
  else 31

structure Civil where
  year : Int
  month : Int
  day : Int
  hour : Int
  minute : Int
  second : Int
  deriving DecidableEq

structure Civil.Valid (c : Civil) : Prop where
  month : 1 ≤ c.month ∧ c.month ≤ 12
  day : 1 ≤ c.day ∧ c.day ≤ daysOf c.year c.month
  hour : 0 ≤ c.hour ∧ c.hour ≤ 23
  minute : 0 ≤ c.minute ∧ c.minute ≤ 59
  second : 0 ≤ c.second ∧ c.second ≤ 59

structure CalendarDates (Date Zone : Type) where
  dateWithYear : Int → Int → Int → Int → Int → Int → Zone → Date
  yearOfCommonEra : Date → Int
  monthOfYear : Date → Int
  dayOfMonth : Date → Int
  hourOfDay : Date → Int
  minuteOfHour : Date → Int
  secondOfMinute : Date → Int
  timeZone : Date → Zone

variable {Date Zone : Type}

namespace CalendarDates

def civil (cal : CalendarDates Date Zone) (d : Date) : Civil where
  year := cal.yearOfCommonEra d
  month := cal.monthOfYear d
  day := cal.dayOfMonth d
  hour := cal.hourOfDay d
  minute := cal.minuteOfHour d
  second := cal.secondOfMinute d

/-- The date that is made of the fields of a valid date of a year `years` has
these fields. -/
structure Keeps (cal : CalendarDates Date Zone) (years : Int → Prop) : Prop where
  civil : ∀ c z, Civil.Valid c → years c.year →
    cal.civil (cal.dateWithYear c.year c.month c.day c.hour c.minute c.second z) = c
  timeZone : ∀ c z, Civil.Valid c → years c.year →
    cal.timeZone (cal.dateWithYear c.year c.month c.day c.hour c.minute c.second z) = z

end CalendarDates

-- The cell

namespace BSDatePickerCell

def sMaxDays : List Int := [31, 28, 31, 30, 31, 30, 31, 31, 30, 31, 30, 31]

def sMaxDaysOf (month : Int) : Int := sMaxDays.getD (month - 1).toNat 0

/-- `%` is the remainder of the division that rounds towards zero. -/
def isLeapYear (year : Int) : Bool :=
  (year.tmod 4 = 0 && year.tmod 100 ≠ 0) || year.tmod 400 = 0

def maxDayFor (year month : Int) : Int :=
  if month ≠ 2 then sMaxDaysOf month
  else if isLeapYear year = false then sMaxDaysOf month
  else 29

def calcDayFor (newYear newMonth oldDay : Int) : Int :=
  let newMaxDay := sMaxDaysOf newMonth
  if newMaxDay ≥ oldDay then oldDay
  else if newMonth ≠ 2 then newMaxDay
  else if isLeapYear newYear = false then newMaxDay
  else 29

section
variable (cal : CalendarDates Date Zone)

def minYear : Int := -999

def maxYear : Int := 9999

def setYear (date : Date) (year : Int) : Date :=
  cal.dateWithYear year (cal.monthOfYear date)
    (calcDayFor year (cal.monthOfYear date) (cal.dayOfMonth date))
    (cal.hourOfDay date) (cal.minuteOfHour date) (cal.secondOfMinute date) (cal.timeZone date)

def minMonth : Int := 1

def maxMonth : Int := 12

def setMonth (date : Date) (month : Int) : Date :=
  if minMonth > month ∨ month > maxMonth then date
  else cal.dateWithYear (cal.yearOfCommonEra date) month
    (calcDayFor (cal.yearOfCommonEra date) month (cal.dayOfMonth date))
    (cal.hourOfDay date) (cal.minuteOfHour date) (cal.secondOfMinute date) (cal.timeZone date)

def minDay : Int := 1

def maxDay (date : Date) : Int := maxDayFor (cal.yearOfCommonEra date) (cal.monthOfYear date)

def setDay (date : Date) (day : Int) : Date :=
  if minDay > day ∨ day > maxDay cal date then date
  else cal.dateWithYear (cal.yearOfCommonEra date) (cal.monthOfYear date) day
    (cal.hourOfDay date) (cal.minuteOfHour date) (cal.secondOfMinute date) (cal.timeZone date)

def minHour : Int := 0

def maxHour : Int := 23

def setHour (date : Date) (hour : Int) : Date :=
  if minHour > hour ∨ hour > maxHour then date
  else cal.dateWithYear (cal.yearOfCommonEra date) (cal.monthOfYear date) (cal.dayOfMonth date)
    hour (cal.minuteOfHour date) (cal.secondOfMinute date) (cal.timeZone date)

def minMinute : Int := 0

def maxMinute : Int := 59

def setMinute (date : Date) (minute : Int) : Date :=
  if minMinute > minute ∨ minute > maxMinute then date
  else cal.dateWithYear (cal.yearOfCommonEra date) (cal.monthOfYear date) (cal.dayOfMonth date)
    (cal.hourOfDay date) minute (cal.secondOfMinute date) (cal.timeZone date)

def minSecond : Int := 0

def maxSecond : Int := 59

def setSecond (date : Date) (second : Int) : Date :=
  if minSecond > second ∨ second > maxSecond then date
  else cal.dateWithYear (cal.yearOfCommonEra date) (cal.monthOfYear date) (cal.dayOfMonth date)
    (cal.hourOfDay date) (cal.minuteOfHour date) second (cal.timeZone date)

inductive Edit where
  | year (n : Int)
  | month (n : Int)
  | day (n : Int)
  | hour (n : Int)
  | minute (n : Int)
  | second (n : Int)

def perform (date : Date) : Edit → Date
  | .year n => setYear cal date n
  | .month n => setMonth cal date n
  | .day n => setDay cal date n
  | .hour n => setHour cal date n
  | .minute n => setMinute cal date n
  | .second n => setSecond cal date n

end

-- What an edit is for

/-- The field of an edit is replaced, whatever the day then is. -/
def Edit.replace (c : Civil) : Edit → Civil
  | .year n => { c with year := n }
  | .month n => { c with month := n }
  | .day n => { c with day := n }
  | .hour n => { c with hour := n }
  | .minute n => { c with minute := n }
  | .second n => { c with second := n }

def Edit.InRange (c : Civil) : Edit → Prop
  | .year n => -999 ≤ n ∧ n ≤ 9999
  | .month n => 1 ≤ n ∧ n ≤ 12
  | .day n => 1 ≤ n ∧ n ≤ daysOf c.year c.month
  | .hour n => 0 ≤ n ∧ n ≤ 23
  | .minute n => 0 ≤ n ∧ n ≤ 59
  | .second n => 0 ≤ n ∧ n ≤ 59

instance : (e : Edit) → Decidable (e.InRange c)
  | .year _ | .month _ | .day _ | .hour _ | .minute _ | .second _ =>
    inferInstanceAs (Decidable (_ ∧ _))

def clamp (c : Civil) : Civil := { c with day := min c.day (daysOf c.year c.month) }

def Edit.apply (c : Civil) (e : Edit) : Civil := if e.InRange c then clamp (e.replace c) else c

-- The days of a month

theorem isLeapYear_iff : isLeapYear year = true ↔ IsLeap year := by
  have h4 : 4 ∣ year ↔ year.tmod 4 = 0 := Int.dvd_iff_tmod_eq_zero
  have h100 : 100 ∣ year ↔ year.tmod 100 = 0 := Int.dvd_iff_tmod_eq_zero
  have h400 : 400 ∣ year ↔ year.tmod 400 = 0 := Int.dvd_iff_tmod_eq_zero
  simp only [isLeapYear, IsLeap, Bool.or_eq_true, Bool.and_eq_true, decide_eq_true_eq, ← h4,
    ne_eq, ← h100, ← h400]
  omega

theorem maxDayFor_eq (hmonth : 1 ≤ month ∧ month ≤ 12) :
    maxDayFor year month = daysOf year month := by
  unfold maxDayFor daysOf
  by_cases hfebruary : month = 2
  · subst hfebruary
    cases hleap : isLeapYear year with
    | true => simp [isLeapYear_iff.mp hleap]
    | false =>
      have hcommon : ¬IsLeap year := fun h => by simp [isLeapYear_iff.mpr h] at hleap
      simp [hcommon, sMaxDaysOf, sMaxDays]
  · obtain ⟨hlow, hhigh⟩ := hmonth
    simp only [hfebruary, ne_eq, not_false_eq_true, if_true, if_false]
    interval_cases month <;> first | rfl | contradiction

theorem calcDayFor_eq (year month oldDay : Int) :
    calcDayFor year month oldDay = min oldDay (maxDayFor year month) := by
  unfold calcDayFor maxDayFor
  by_cases hfebruary : month = 2
  · have htable : sMaxDaysOf 2 = 28 := rfl
    subst hfebruary
    cases isLeapYear year <;> simp only [htable] <;> split <;> simp <;> omega
  · simp only [hfebruary, ne_eq, not_false_eq_true, if_true]
    split <;> omega

theorem daysOf_pos (year month : Int) : 28 ≤ daysOf year month := by
  unfold daysOf
  split
  · split <;> decide
  · split <;> decide

-- One edit

theorem replace_day_pos (h : c.Valid) {e : Edit} (hrange : e.InRange c) :
    1 ≤ (e.replace c).day := by
  cases e with
  | day n => exact hrange.1
  | _ => exact h.day.1

theorem valid_clamp_replace (h : c.Valid) {e : Edit} (hrange : e.InRange c) :
    (clamp (e.replace c)).Valid where
  month := by
    cases e with
    | month n => exact hrange
    | _ => exact h.month
  day := by
    have hlow := replace_day_pos h hrange
    have hdays := daysOf_pos (e.replace c).year (e.replace c).month
    exact ⟨le_min hlow (by omega), min_le_right _ _⟩
  hour := by
    cases e with
    | hour n => exact hrange
    | _ => exact h.hour
  minute := by
    cases e with
    | minute n => exact hrange
    | _ => exact h.minute
  second := by
    cases e with
    | second n => exact hrange
    | _ => exact h.second

theorem valid_apply (h : c.Valid) (e : Edit) : (e.apply c).Valid := by
  unfold Edit.apply
  split
  · rename_i hrange
    exact valid_clamp_replace h hrange
  · exact h

section
variable {cal : CalendarDates Date Zone} {date : Date}

def remade (cal : CalendarDates Date Zone) (date : Date) (c : Civil) : Date :=
  cal.dateWithYear c.year c.month c.day c.hour c.minute c.second (cal.timeZone date)

theorem calcDayFor_daysOf (hmonth : 1 ≤ month ∧ month ≤ 12) :
    calcDayFor year month oldDay = min oldDay (daysOf year month) := by
  rw [calcDayFor_eq, maxDayFor_eq hmonth]

theorem ite_outside (low n high : Int) (date date' : Date) :
    (if low > n ∨ n > high then date else date') = if low ≤ n ∧ n ≤ high then date' else date := by
  by_cases hrange : low ≤ n ∧ n ≤ high
  · rw [if_pos hrange, if_neg (by omega)]
  · rw [if_neg hrange, if_pos (by omega)]

theorem perform_eq (h : (cal.civil date).Valid) (e : Edit)
    (hyear : ∀ n, e = .year n → minYear ≤ n ∧ n ≤ maxYear) :
    perform cal date e =
      if e.InRange (cal.civil date) then remade cal date (clamp (e.replace (cal.civil date)))
      else date := by
  have hmonth : 1 ≤ cal.monthOfYear date ∧ cal.monthOfYear date ≤ 12 := h.month
  have hday : min (cal.dayOfMonth date) (daysOf (cal.yearOfCommonEra date) (cal.monthOfYear date)) =
      cal.dayOfMonth date := min_eq_left h.day.2
  have hmax : maxDay cal date = daysOf (cal.yearOfCommonEra date) (cal.monthOfYear date) :=
    maxDayFor_eq h.month
  cases e with
  | year n =>
    have hrange : (Edit.year n).InRange (cal.civil date) := hyear n rfl
    rw [if_pos hrange]
    simp only [perform, setYear, calcDayFor_daysOf hmonth]
    rfl
  | month n =>
    refine (ite_outside _ _ _ _ _).trans (ite_congr rfl (fun hrange => ?_) fun _ => rfl)
    rw [calcDayFor_daysOf hrange]
    rfl
  | day n =>
    refine (ite_outside _ _ _ _ _).trans (ite_congr (by rw [hmax]; rfl) (fun hrange => ?_) fun _ =>
      rfl)
    have hclamp : min n (daysOf (cal.yearOfCommonEra date) (cal.monthOfYear date)) = n :=
      min_eq_left (hmax ▸ hrange.2)
    simp only [remade, clamp, Edit.replace, CalendarDates.civil, hclamp]
  | hour n | minute n | second n =>
    refine (ite_outside _ _ _ _ _).trans (ite_congr rfl (fun _ => ?_) fun _ => rfl)
    simp only [remade, clamp, Edit.replace, CalendarDates.civil, hday]

theorem perform_civil {years : Int → Prop} (hcal : cal.Keeps years)
    (hpicker : ∀ n, minYear ≤ n ∧ n ≤ maxYear → years n)
    (h : (cal.civil date).Valid) (hyears : years (cal.yearOfCommonEra date)) (e : Edit)
    (hyear : ∀ n, e = .year n → minYear ≤ n ∧ n ≤ maxYear) :
    cal.civil (perform cal date e) = e.apply (cal.civil date) ∧
      cal.timeZone (perform cal date e) = cal.timeZone date ∧
      years (e.apply (cal.civil date)).year := by
  rw [perform_eq h e hyear, Edit.apply]
  split
  · rename_i hrange
    have hvalid := valid_clamp_replace h hrange
    have hyears' : years (clamp (e.replace (cal.civil date))).year := by
      cases e with
      | year n => exact hpicker n hrange
      | _ => exact hyears
    exact ⟨hcal.civil _ _ hvalid hyears', hcal.timeZone _ _ hvalid hyears', hyears'⟩
  · exact ⟨rfl, rfl, hyears⟩

/-- The picker goes from one valid date to the next, each edit doing to the
fields what it is for, and the stepper offers the days that the edits clamp to. -/
theorem run_valid {years : Int → Prop} (hcal : cal.Keeps years)
    (hpicker : ∀ n, minYear ≤ n ∧ n ≤ maxYear → years n) (edits : List Edit)
    (hedits : ∀ n, Edit.year n ∈ edits → minYear ≤ n ∧ n ≤ maxYear)
    (h : (cal.civil date).Valid) (hyears : years (cal.yearOfCommonEra date)) :
    let date' := edits.foldl (perform cal) date
    (cal.civil date').Valid ∧ cal.civil date' = edits.foldl Edit.apply (cal.civil date) ∧
      cal.timeZone date' = cal.timeZone date ∧
      (∀ year month oldDay, calcDayFor year month oldDay = min oldDay (maxDayFor year month)) ∧
      maxDay cal date' = daysOf (cal.yearOfCommonEra date') (cal.monthOfYear date') := by
  induction edits generalizing date with
  | nil => exact ⟨h, rfl, rfl, calcDayFor_eq, maxDayFor_eq h.month⟩
  | cons e edits ih =>
    obtain ⟨hcivil, hzone, hyears'⟩ :=
      perform_civil hcal hpicker h hyears e fun n hn => hedits n (by simp [hn])
    have hvalid : (cal.civil (perform cal date e)).Valid := hcivil ▸ valid_apply h e
    have hyear' : (e.apply (cal.civil date)).year = cal.yearOfCommonEra (perform cal date e) :=
      (congrArg Civil.year hcivil).symm
    obtain ⟨hvalid', hcivil', hzone', hrest⟩ :=
      ih (fun n hn => hedits n (List.mem_cons_of_mem e hn)) hvalid (hyear' ▸ hyears')
    exact ⟨hvalid', by rw [List.foldl_cons, hcivil', hcivil, List.foldl_cons],
      hzone'.trans hzone, hrest⟩

end

def plainDates : CalendarDates (Civil × Int) Int where
  dateWithYear := fun year month day hour minute second zone =>
    (⟨year, month, day, hour, minute, second⟩, zone)
  yearOfCommonEra := fun d => d.1.year
  monthOfYear := fun d => d.1.month
  dayOfMonth := fun d => d.1.day
  hourOfDay := fun d => d.1.hour
  minuteOfHour := fun d => d.1.minute
  secondOfMinute := fun d => d.1.second
  timeZone := fun d => d.2

/-- From a 31st of January to February of a leap year before our era, and on to
the year behind it. -/
theorem run_valid_leap_day :
    (plainDates.civil ([.month 2, .year (-4), .year (-3), .month 13].foldl (perform plainDates)
      (⟨2007, 1, 31, 12, 30, 0⟩, 32400))).Valid :=
  (run_valid (show plainDates.Keeps fun _ => True from
    ⟨fun _ _ _ _ => rfl, fun _ _ _ _ => rfl⟩) (fun _ _ => trivial)
    [.month 2, .year (-4), .year (-3), .month 13]
    (by simp [minYear, maxYear]) ⟨by decide, by decide, by decide, by decide, by decide⟩ trivial).1

end BSDatePickerCell

end BathyScaphe.Palette
