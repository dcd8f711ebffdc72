import Recurrence.Calendar.LocalTime

/-!
Calendar arithmetic within limits. Numbers are held in machine words, a span of time is counted in
milliseconds in one, and a date is a day of the calendar. A result that does not fit stops the
calculation: nothing wraps round.
-/

namespace Recurrence

/-- What a calculation stops at. -/
inductive Overflow
  /-- A number that its word does not hold. -/
  | number
  /-- A span of time too long to be counted. -/
  | span
  /-- A date off the calendar. -/
  | date
  /-- A range that ends before it starts. -/
  | range
  deriving DecidableEq

/-- A calculation that may stop. -/
abbrev Checked := Except Overflow

/-- The machine words that numbers are held in. -/
inductive Word
  | unsigned32
  | signed32
  | signed64

namespace Word

def least : Word → Int
  | unsigned32 => 0
  | signed32 => -2147483648
  | signed64 => -9223372036854775808

def greatest : Word → Int
  | unsigned32 => 4294967295
  | signed32 => 2147483647
  | signed64 => 9223372036854775807

/-- A number as the word holds it. -/
def hold (w : Word) (n : Int) : Checked Int :=
  if w.least ≤ n ∧ n ≤ w.greatest then .ok n else .error .number

def saturate (w : Word) (n : Int) : Int := max w.least (min n w.greatest)

end Word

namespace Date

def earliest : Date := ofFields firstYear 1 1

def latest : Date := ofFields lastYear 12 31

end Date

namespace Checked

open LocalTime

def span (seconds : Int) : Checked Int :=
  if -9223372036854775 ≤ seconds ∧ seconds ≤ 9223372036854775 then .ok seconds else .error .span

def addDays (d : Date) (days : Int) : Checked Date := do
  let _ ← span (days * daySeconds)
  if Date.earliest.number ≤ d.number + days ∧ d.number + days ≤ Date.latest.number then
    return ⟨d.number + days⟩
  else throw .date

/-- The month after a month; past December the first of the next year. -/
def nextMonth (year month : Int) : Checked (Int × Int) :=
  if 12 ≤ month then do return (← Word.signed32.hold (year + 1), 1)
  else do return (year, ← Word.unsigned32.hold (month + 1))

/-- The number of days in a month. The month after it is named first, on the calendar or not. -/
def daysInMonth (year month : Int) : Checked Int := do
  let next ← nextMonth year month
  match Date.ofFields? year month 1, Date.ofFields? next.1 next.2 1 with
  | some first, some after => return after.number - first.number
  | _, _ => return 31

def index (u : TimeUnit) (t : LocalTime) : Checked Int := do
  let seconds ← Word.signed64.hold t.seconds
  let days ← Word.signed32.hold t.date.number
  match u with
  | .second | .timeZone => return seconds
  | .minute => return seconds / 60
  | .hour => return seconds / 3600
  | .day => return days
  | .week => return days / 7
  | .month => Word.signed64.hold ((← Word.signed64.hold (t.date.year * 12)) + (t.date.month - 1))
  | .year => return t.date.year

/-- The start of the unit that holds a time. Only a week may start before the calendar does. -/
def startOf (u : TimeUnit) (t : LocalTime) : Checked LocalTime :=
  match u with
  | .week => do return midnight (← addDays t.date (-(t.date.number % 7)))
  | _ => .ok (t.startOf u)

def addSeconds? (t : LocalTime) (seconds : Int) : Checked (Option LocalTime) := do
  return t.addSeconds? (← span seconds)

/-- Some months later at the same time of day, while the calendar lasts. A year that no word holds
is off the calendar. -/
def addMonths? (t : LocalTime) (months : Int) : Checked (Option LocalTime) := do
  let years ← Word.signed64.hold (t.date.year * 12)
  let count ← Word.signed64.hold ((← Word.signed64.hold (years + (t.date.month - 1))) + months)
  match Word.signed32.hold (count / 12) with
  | .error _ => return none
  | .ok year =>
    let month := count % 12 + 1
    let day := min t.date.dayOfMonth (← daysInMonth year month)
    return (Date.ofFields? year month day).map fun d =>
      ⟨(midnight d).seconds + t.secondOfDay, t.nanos⟩

def shift? (t : LocalTime) (amount : Int) (u : TimeUnit) : Checked (Option LocalTime) :=
  match u with
  | .second => addSeconds? t amount
  | .minute => addSeconds? t (amount * 60)
  | .hour => addSeconds? t (amount * 3600)
  | .day => addSeconds? t (amount * daySeconds)
  | .week => addSeconds? t (amount * 7 * daySeconds)
  | .month => addMonths? t amount
  | .year => addMonths? t (Word.signed64.saturate (amount * 12))
  | .timeZone => .ok (some t)

/-- Some units later; past the end of the calendar it is the last time there is. -/
def shift (t : LocalTime) (amount : Int) (u : TimeUnit) : Checked LocalTime := do
  return (← shift? t amount u).getD latest

/-- The start of the `amount`-th unit after the one that holds a time. -/
def land (t : LocalTime) (amount : Int) (u : TimeUnit) : Checked LocalTime := do
  shift (← startOf u t) amount u

end Checked

end Recurrence
