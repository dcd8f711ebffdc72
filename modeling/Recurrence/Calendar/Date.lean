/-!
Dates of the proleptic Gregorian calendar, counted in days. Year 0 exists and comes before year 1.

Main statements: a date's year, month and day give back its number (`ofFields_fields`), and they are
the only fields that do (`year_ofFields`, `month_ofFields`, `dayOfMonth_ofFields`).
-/

namespace Recurrence

/-- A date, by the number of its day. 1 January of year 1 is day 1, a Monday. -/
structure Date where
  number : Int
  deriving DecidableEq

namespace Date

/-- A year is leap when 4 divides it, of the centuries only when 400 does. -/
def isLeap (year : Int) : Bool := year % 4 = 0 && (year % 100 ≠ 0 || year % 400 = 0)

def monthLength (year month : Int) : Int :=
  if month = 2 then (if isLeap year then 29 else 28)
  else if month = 4 ∨ month = 6 ∨ month = 9 ∨ month = 11 then 30
  else 31

def daysBeforeYear (year : Int) : Int :=
  365 * (year - 1) + (year - 1) / 4 - (year - 1) / 100 + (year - 1) / 400

/-- The days of a year before a month: as if February had 30, then corrected. -/
def daysBeforeMonth (year month : Int) : Int :=
  (367 * month - 362) / 12 + (if month ≤ 2 then 0 else if isLeap year then -1 else -2)

/-- The date of a year, month and day. Days past the end of the month run on. -/
def ofFields (year month day : Int) : Date :=
  ⟨daysBeforeYear year + daysBeforeMonth year month + day⟩

/-- The year: 146097 days make 400 years, which is at most one year off. -/
def year (d : Date) : Int :=
  let guess := 400 * (d.number - 1) / 146097 + 1
  if d.number ≤ daysBeforeYear guess then guess - 1
  else if daysBeforeYear (guess + 1) < d.number then guess + 1
  else guess

def dayOfYear (d : Date) : Int := d.number - daysBeforeYear d.year

/-- The month that holds the `k`-th day of a common or leap year. -/
def monthOfDay (leap : Bool) (k : Int) : Int :=
  let march := if leap then 60 else 59
  let shift := if k ≤ march then 0 else if leap then 1 else 2
  (12 * (k - 1 + shift) + 373) / 367

def month (d : Date) : Int :=
  let year := d.year
  monthOfDay (isLeap year) (d.number - daysBeforeYear year)

def dayOfMonth (d : Date) : Int :=
  let year := d.year
  let k := d.number - daysBeforeYear year
  k - daysBeforeMonth year (monthOfDay (isLeap year) k)

def fields (d : Date) : Int × Int × Int :=
  let year := d.year
  let k := d.number - daysBeforeYear year
  let month := monthOfDay (isLeap year) k
  (year, month, k - daysBeforeMonth year month)

def weekday (d : Date) : Int := d.number % 7 + 1

def firstYear : Int := -262143

def lastYear : Int := 262142

def hasMonth (year month : Int) : Bool :=
  firstYear ≤ year && year ≤ lastYear && 1 ≤ month && month ≤ 12

/-- The date with the given fields, where the calendar has one. -/
def ofFields? (year month day : Int) : Option Date :=
  if hasMonth year month && 1 ≤ day && day ≤ monthLength year month then
    some (ofFields year month day)
  else none

/-- The month after a month; past December the first of the next year. -/
def nextMonth (year month : Int) : Int × Int :=
  if 12 ≤ month then (year + 1, 1) else (year, month + 1)

/-- The number of days in a month. It is taken as 31 where the month or the one after it is off the
calendar. -/
def daysInMonth (year month : Int) : Int :=
  let next := nextMonth year month
  match ofFields? year month 1, ofFields? next.1 next.2 1 with
  | some first, some after => after.number - first.number
  | _, _ => 31

theorem fields_eq (d : Date) : d.fields = (d.year, d.month, d.dayOfMonth) := rfl

theorem isLeap_iff (y : Int) :
    isLeap y = true ↔ y % 4 = 0 ∧ (y % 100 ≠ 0 ∨ y % 400 = 0) := by
  simp [isLeap]

/-- A year has 366 days when it is leap and 365 otherwise. -/
theorem daysBeforeYear_succ (y : Int) :
    daysBeforeYear (y + 1) = daysBeforeYear y + (if isLeap y then 366 else 365) := by
  have h := isLeap_iff y
  unfold daysBeforeYear
  split <;> simp_all <;> omega

/-- Years follow each other without overlap. -/
theorem daysBeforeYear_mono {x y : Int} (h : x ≤ y) : daysBeforeYear x ≤ daysBeforeYear y := by
  unfold daysBeforeYear; omega

/-- A month begins where the one before it ends. -/
theorem daysBeforeMonth_succ {y m : Int} (h₁ : 1 ≤ m) (h₂ : m ≤ 11) :
    daysBeforeMonth y (m + 1) = daysBeforeMonth y m + monthLength y m := by
  have hm : m = 1 ∨ m = 2 ∨ m = 3 ∨ m = 4 ∨ m = 5 ∨ m = 6 ∨ m = 7 ∨ m = 8 ∨ m = 9 ∨ m = 10
      ∨ m = 11 := by omega
  rcases hm with rfl | rfl | rfl | rfl | rfl | rfl | rfl | rfl | rfl | rfl | rfl <;>
    cases hl : isLeap y <;> simp [daysBeforeMonth, monthLength, hl]

/-- **A date lies in its year.** -/
theorem year_bounds (d : Date) :
    daysBeforeYear d.year < d.number ∧ d.number ≤ daysBeforeYear (d.year + 1) := by
  unfold year
  generalize hg : 400 * (d.number - 1) / 146097 + 1 = g
  simp only []
  split
  · unfold daysBeforeYear at *; omega
  · split
    · unfold daysBeforeYear at *; omega
    · omega

/-- The year of a date is the one whose days hold its number. -/
theorem year_eq {d : Date} {y : Int} (h₁ : daysBeforeYear y < d.number)
    (h₂ : d.number ≤ daysBeforeYear (y + 1)) : d.year = y := by
  have hb := d.year_bounds
  rcases Int.lt_trichotomy d.year y with h | h | h
  · have := daysBeforeYear_mono (show d.year + 1 ≤ y by omega); omega
  · exact h
  · have := daysBeforeYear_mono (show y + 1 ≤ d.year by omega); omega

theorem dayOfYear_bounds (d : Date) :
    1 ≤ d.dayOfYear ∧ d.dayOfYear ≤ (if isLeap d.year then 366 else 365) := by
  have hb := d.year_bounds
  have hs := daysBeforeYear_succ d.year
  unfold dayOfYear; omega

/-- The month of a day of the year has that day. -/
theorem monthOfDay_bounds {k : Int} {leap : Bool} (h₁ : 1 ≤ k)
    (h₂ : k ≤ (if leap then 366 else 365)) :
    1 ≤ monthOfDay leap k ∧ monthOfDay leap k ≤ 12
      ∧ (367 * monthOfDay leap k - 362) / 12
        + (if monthOfDay leap k ≤ 2 then 0 else if leap then -1 else -2) < k
      ∧ k ≤ (367 * monthOfDay leap k - 362) / 12
        + (if monthOfDay leap k ≤ 2 then 0 else if leap then -1 else -2)
        + (if monthOfDay leap k = 2 then (if leap then 29 else 28)
          else if monthOfDay leap k = 4 ∨ monthOfDay leap k = 6 ∨ monthOfDay leap k = 9
            ∨ monthOfDay leap k = 11 then 30 else 31) := by
  generalize hm : monthOfDay leap k = m
  unfold monthOfDay at hm
  have hr : 1 ≤ m ∧ m ≤ 12 := by cases leap <;> simp at h₂ hm <;> omega
  have hc : m = 1 ∨ m = 2 ∨ m = 3 ∨ m = 4 ∨ m = 5 ∨ m = 6 ∨ m = 7 ∨ m = 8 ∨ m = 9 ∨ m = 10
      ∨ m = 11 ∨ m = 12 := by omega
  refine ⟨hr.1, hr.2, ?_⟩
  clear hr
  rcases hc with rfl | rfl | rfl | rfl | rfl | rfl | rfl | rfl | rfl | rfl | rfl | rfl <;>
    cases leap <;> simp at h₂ hm ⊢ <;> omega

/-- **A date's month is one of the twelve, and its day lies in that month.** -/
theorem field_bounds (d : Date) :
    1 ≤ d.month ∧ d.month ≤ 12 ∧ 1 ≤ d.dayOfMonth ∧ d.dayOfMonth ≤ monthLength d.year d.month := by
  obtain ⟨h₁, h₂, h₃, h₄⟩ := monthOfDay_bounds d.dayOfYear_bounds.1 d.dayOfYear_bounds.2
  have hmonth : d.month = monthOfDay (isLeap d.year) d.dayOfYear := rfl
  have hday : d.dayOfMonth = d.dayOfYear - daysBeforeMonth d.year d.month := rfl
  rw [hday, hmonth, daysBeforeMonth, monthLength]
  refine ⟨h₁, h₂, ?_, ?_⟩ <;> omega

/-- **The fields of a date give it back.** -/
theorem ofFields_fields (d : Date) : ofFields d.year d.month d.dayOfMonth = d := by
  have hday : d.dayOfMonth = d.dayOfYear - daysBeforeMonth d.year d.month := rfl
  obtain ⟨n⟩ := d
  simp only [ofFields, hday, dayOfYear]
  congr 1
  omega

/-- The days of a year lie in its months. -/
theorem dayOfYear_le {y m d : Int} (h₁ : 1 ≤ m) (h₂ : m ≤ 12) (h₃ : 1 ≤ d)
    (h₄ : d ≤ monthLength y m) :
    1 ≤ daysBeforeMonth y m + d ∧ daysBeforeMonth y m + d ≤ (if isLeap y then 366 else 365) := by
  have hm : m = 1 ∨ m = 2 ∨ m = 3 ∨ m = 4 ∨ m = 5 ∨ m = 6 ∨ m = 7 ∨ m = 8 ∨ m = 9 ∨ m = 10
      ∨ m = 11 ∨ m = 12 := by omega
  rcases hm with rfl | rfl | rfl | rfl | rfl | rfl | rfl | rfl | rfl | rfl | rfl | rfl <;>
    cases hl : isLeap y <;> simp [daysBeforeMonth, monthLength, hl] at h₄ ⊢ <;> omega

theorem year_ofFields {y m d : Int} (h₁ : 1 ≤ m) (h₂ : m ≤ 12) (h₃ : 1 ≤ d)
    (h₄ : d ≤ monthLength y m) : (ofFields y m d).year = y := by
  have hd := dayOfYear_le h₁ h₂ h₃ h₄
  have hs := daysBeforeYear_succ y
  apply year_eq <;> simp only [ofFields] <;> omega

theorem month_ofFields {y m d : Int} (h₁ : 1 ≤ m) (h₂ : m ≤ 12) (h₃ : 1 ≤ d)
    (h₄ : d ≤ monthLength y m) : (ofFields y m d).month = m := by
  have hy := year_ofFields h₁ h₂ h₃ h₄
  have hk : (ofFields y m d).dayOfYear = daysBeforeMonth y m + d := by
    rw [dayOfYear, hy]; simp only [ofFields]; omega
  have hmonth : (ofFields y m d).month
      = monthOfDay (isLeap (ofFields y m d).year) (ofFields y m d).dayOfYear := rfl
  rw [hmonth, hy, hk, monthOfDay]
  have hm : m = 1 ∨ m = 2 ∨ m = 3 ∨ m = 4 ∨ m = 5 ∨ m = 6 ∨ m = 7 ∨ m = 8 ∨ m = 9 ∨ m = 10
      ∨ m = 11 ∨ m = 12 := by omega
  rcases hm with rfl | rfl | rfl | rfl | rfl | rfl | rfl | rfl | rfl | rfl | rfl | rfl <;>
    cases hl : isLeap y <;> simp [daysBeforeMonth, monthLength, hl] at h₄ ⊢ <;> omega

theorem dayOfMonth_ofFields {y m d : Int} (h₁ : 1 ≤ m) (h₂ : m ≤ 12) (h₃ : 1 ≤ d)
    (h₄ : d ≤ monthLength y m) : (ofFields y m d).dayOfMonth = d := by
  have hday : (ofFields y m d).dayOfMonth = (ofFields y m d).dayOfYear
      - daysBeforeMonth (ofFields y m d).year (ofFields y m d).month := rfl
  rw [hday, dayOfYear, year_ofFields h₁ h₂ h₃ h₄, month_ofFields h₁ h₂ h₃ h₄]
  simp only [ofFields]; omega

end Date

end Recurrence
