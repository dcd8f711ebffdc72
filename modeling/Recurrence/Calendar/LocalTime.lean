import Recurrence.TimeUnit
import Recurrence.Calendar.Date
import Recurrence.Calendar.Time

/-!
Local times read as calendar fields, and the ranges of those fields. Two ways of counting units
belong together: the index of the unit that holds a time, and the time at which that unit starts.
-/

namespace Recurrence

namespace TimeUnit

def minValue : TimeUnit → Int
  | second | minute | hour | timeZone => 0
  | day | week | month | year => 1

def maxValue : TimeUnit → Int
  | second | minute => 59
  | hour => 23
  | day => 31
  | week => 7
  | month => 12
  | year => 9999
  | timeZone => 0

/-- The greatest value of a unit in a month. Only the day depends on it; month 0 is no month and
leaves the day its greatest value anywhere. -/
def maxValueIn (u : TimeUnit) (year month : Int) : Int :=
  if u = day ∧ month ≠ 0 then Date.daysInMonth year month else u.maxValue

def clampIn (u : TimeUnit) (year month value : Int) : Int :=
  max u.minValue (min value (u.maxValueIn year month))

end TimeUnit

/-- The calendar fields of a time, most significant first. -/
structure Fields where
  year : Int
  month : Int
  day : Int
  hour : Int
  minute : Int
  second : Int
  deriving DecidableEq

namespace Fields

/-- The fields in order; they compare as lists do, which is the order of time. -/
def toList (f : Fields) : List Int := [f.year, f.month, f.day, f.hour, f.minute, f.second]

def set (f : Fields) (u : TimeUnit) (value : Int) : Fields :=
  match u with
  | .year => { f with year := value }
  | .month => { f with month := value }
  | .day => { f with day := value }
  | .hour => { f with hour := value }
  | .minute => { f with minute := value }
  | .second => { f with second := value }
  | .week | .timeZone => f

end Fields

namespace LocalTime

def epochDay : Int := 719163

def daySeconds : Int := 86400

def date (t : LocalTime) : Date := ⟨t.seconds / daySeconds + epochDay⟩

def midnight (d : Date) : LocalTime := Time.ofSeconds ((d.number - epochDay) * daySeconds)

def secondOfDay (t : LocalTime) : Int := t.seconds % daySeconds

def fields (t : LocalTime) : Fields :=
  let (year, month, day) := t.date.fields
  let s := t.secondOfDay
  ⟨year, month, day, s / 3600, s / 60 % 60, s % 60⟩

/-- The value of a unit; for the week it is the number of the weekday. -/
def part (u : TimeUnit) (t : LocalTime) : Int :=
  match u with
  | .second => t.secondOfDay % 60
  | .minute => t.secondOfDay / 60 % 60
  | .hour => t.secondOfDay / 3600
  | .day => t.date.dayOfMonth
  | .week => t.date.weekday
  | .month => t.date.month
  | .year => t.date.year
  | .timeZone => 0

def ofFields? (f : Fields) : Option LocalTime :=
  match Date.ofFields? f.year f.month f.day with
  | none => none
  | some d =>
    if 0 ≤ f.hour ∧ f.hour ≤ 23 ∧ 0 ≤ f.minute ∧ f.minute ≤ 59 ∧ 0 ≤ f.second ∧ f.second ≤ 59 then
      some ((midnight d).addSeconds (f.hour * 3600 + f.minute * 60 + f.second))
    else none

/-- The number of units up to a time. Two times are in the same unit exactly when they have the same
index, so a cadence is a remainder of indexes. Weeks start on Sunday. -/
def index (u : TimeUnit) (t : LocalTime) : Int :=
  match u with
  | .second | .timeZone => t.seconds
  | .minute => t.seconds / 60
  | .hour => t.seconds / 3600
  | .day => t.date.number
  | .week => t.date.number / 7
  | .month => t.date.year * 12 + (t.date.month - 1)
  | .year => t.date.year

def startOf (u : TimeUnit) (t : LocalTime) : LocalTime :=
  match u with
  | .second | .timeZone => Time.ofSeconds t.seconds
  | .minute => Time.ofSeconds (t.seconds - t.seconds % 60)
  | .hour => Time.ofSeconds (t.seconds - t.seconds % 3600)
  | .day => midnight t.date
  | .week => midnight ⟨t.date.number - t.date.number % 7⟩
  | .month => midnight (Date.ofFields t.date.year t.date.month 1)
  | .year => midnight (Date.ofFields t.date.year 1 1)

def earliest : LocalTime := midnight (Date.ofFields Date.firstYear 1 1)

/-- The last nanosecond of the calendar. -/
def latest : LocalTime :=
  ⟨(midnight (Date.ofFields (Date.lastYear + 1) 1 1)).seconds - 1, ⟨999999999, by decide⟩⟩

def addSeconds? (t : LocalTime) (s : Int) : Option LocalTime :=
  let shifted := t.addSeconds s
  if earliest ≤ shifted ∧ shifted ≤ latest then some shifted else none

/-- Some months later at the same time of day, while the calendar lasts. A day that the month does
not have becomes its last. -/
def addMonths? (t : LocalTime) (months : Int) : Option LocalTime :=
  let count := index .month t + months
  let year := count / 12
  let month := count % 12 + 1
  let day := min t.date.dayOfMonth (Date.daysInMonth year month)
  (Date.ofFields? year month day).map fun d =>
    ⟨(midnight d).seconds + t.secondOfDay, t.nanos⟩

/-- Some units later; past the end of the calendar it is the last time there is. -/
def shift (t : LocalTime) (amount : Int) (u : TimeUnit) : LocalTime :=
  let shifted := match u with
    | .second => t.addSeconds? amount
    | .minute => t.addSeconds? (amount * 60)
    | .hour => t.addSeconds? (amount * 3600)
    | .day => t.addSeconds? (amount * daySeconds)
    | .week => t.addSeconds? (amount * 7 * daySeconds)
    | .month => t.addMonths? amount
    | .year => t.addMonths? (amount * 12)
    | .timeZone => some t
  shifted.getD latest

/-- The start of the `amount`-th unit after the one that holds a time. -/
def land (t : LocalTime) (amount : Int) (u : TimeUnit) : LocalTime := (t.startOf u).shift amount u

@[simp] theorem date_midnight (d : Date) : (midnight d).date = d := by
  obtain ⟨n⟩ := d
  simp only [date, midnight, Time.ofSeconds, daySeconds, epochDay]
  congr 1
  omega

@[simp] theorem secondOfDay_midnight (d : Date) : (midnight d).secondOfDay = 0 := by
  simp only [secondOfDay, midnight, Time.ofSeconds, daySeconds]; omega

theorem secondOfDay_bounds (t : LocalTime) : 0 ≤ t.secondOfDay ∧ t.secondOfDay < 86400 := by
  unfold secondOfDay daySeconds; omega

/-- A time is midnight of its date and the seconds since. -/
theorem midnight_date (t : LocalTime) : (midnight t.date).seconds + t.secondOfDay = t.seconds := by
  simp only [date, midnight, Time.ofSeconds, secondOfDay, daySeconds]; omega

theorem hour_bounds (t : LocalTime) : 0 ≤ t.part .hour ∧ t.part .hour ≤ 23 := by
  have := t.secondOfDay_bounds
  simp only [part]; omega

theorem minute_bounds (t : LocalTime) : 0 ≤ t.part .minute ∧ t.part .minute ≤ 59 := by
  simp only [part]; omega

theorem second_bounds (t : LocalTime) : 0 ≤ t.part .second ∧ t.part .second ≤ 59 := by
  simp only [part]; omega

/-- The parts of the clock give back the seconds since midnight. -/
theorem secondOfDay_eq (t : LocalTime) :
    t.secondOfDay = t.part .hour * 3600 + t.part .minute * 60 + t.part .second := by
  simp only [part]; omega

end LocalTime

end Recurrence
