import Recurrence.Calendar.Checked
import Recurrence.Resolution.Cache

/-!
What a text stands for, within limits. Years and months come in machine words, months with no regard
to the calendar, and dates are looked for from the first and the last day of the month. A number or
a date that does not fit stops the resolution.
-/

namespace Recurrence

namespace Checked

def maxValueIn (u : TimeUnit) (year month : Int) : Checked Int :=
  if u = .day ∧ month ≠ 0 then daysInMonth year month else .ok u.maxValue

def clamp (least greatest n : Int) : Checked Int :=
  if least ≤ greatest then .ok (max least (min n greatest)) else .error .range

/-- An edge with its offset, cut to the range of the unit in the month. -/
def ofEdge (u : TimeUnit) (year month : Int) (e : EdgeText) : Checked Resolution :=
  if e.ofMonth = true ∧ u ≠ .day then .ok .invalid
  else if u = .day ∧ month = 0 then .ok .invalid
  else do
    let greatest ← maxValueIn u year month
    let base :=
      match e.edge with
      | .last => greatest
      | .first => u.minValue
    let shifted ← Word.signed32.hold (base + e.shift)
    return .value (← clamp u.minValue greatest shifted)

/-- The n-th weekday of a month, between its first and last day. -/
def ofNthWeekday (first last : Date) (n : NthWeekday) : Checked Resolution := do
  let weeks := 7 * (n.nth - 1)
  let found ← match n.edge with
    | .last => addDays last (-(Resolution.weekdayGap n.weekday.number last.weekday + weeks))
    | .first => addDays first (Resolution.weekdayGap first.weekday n.weekday.number + weeks)
  if found.month = first.month ∧ found.year = first.year then return .value found.dayOfMonth
  else return .noMatch

def workingDayFrom (d : Date) : Checked Date :=
  addDays d (if d.weekday = 7 then 2 else if d.weekday = 1 then 1 else 0)

def workingDayUpto (d : Date) : Checked Date :=
  addDays d (if d.weekday = 7 then -1 else if d.weekday = 1 then -2 else 0)

/-- The working day of a month that is closest to its day `n`. -/
def closestWeekday (year month n : Int) : Checked Int := do
  let length ← daysInMonth year month
  match Date.ofFields? year month n with
  | none => return n
  | some d =>
    if d.weekday = 7 then Word.unsigned32.hold (if n = 1 then n + 2 else n - 1)
    else if d.weekday = 1 then Word.unsigned32.hold (if n = length then n - 2 else n + 1)
    else return n

def ofDayForm (year month : Int) (word : String) : Checked Resolution :=
  match Date.ofFields? year month 1 with
  | none => .ok .invalid
  | some first => do
    let length ← daysInMonth year month
    let last ← addDays first (length - 1)
    match SpecialDay.nthWeekday? word with
    | some n => ofNthWeekday first last n
    | none =>
      if word = "firstweekday" then return .value (← workingDayFrom first).dayOfMonth
      else if word = "lastweekday" then return .value (← workingDayUpto last).dayOfMonth
      else match Resolution.closestNumber? word.toList with
      | some ds =>
        let n : Int := Text.digitsValue ds
        if 1 ≤ n ∧ n ≤ 31 then return .value (← closestWeekday year month (min n length))
        else return .invalid
      | none =>
        match SpecialDay.ordinalDay? word with
        | some n => return .value n
        | none => return .invalid

/-- What a text stands for as the value of a unit in a month. -/
def ofText (u : TimeUnit) (year month : Int) (text : String) : Checked Resolution :=
  let cs := Text.trimChars text.toList
  let small := cs.map Char.toLower
  if u = .timeZone ∨ cs = [] then .ok .invalid
  else if cs.all Char.isDigit then .ok (Resolution.ofNumber u (Text.digitsValue cs))
  else match Resolution.ofName? u (String.ofList cs) with
  | some v => .ok (.value v)
  | none =>
    match EdgeText.ofChars? small with
    | some e => ofEdge u year month e
    | none => if u = .day then ofDayForm year month (String.ofList small) else .ok .invalid

end Checked

/-- What a text stands for as the value of a unit, in any month that the words hold. -/
def Resolution.resolve (u : TimeUnit) (year : Int32) (month : UInt32) (text : String) :
    Checked Resolution :=
  Checked.ofText u year.toInt month.toNat text

/-- What a text stands for, looked up first and kept afterwards. -/
def Memory.answer (m : Memory) (u : TimeUnit) (year : Int32) (month : UInt32) (text : String) :
    Checked (Resolution × Memory) :=
  let key := CacheKey.of u year.toInt month.toNat text
  match m.get key with
  | (some hit, m) => .ok (hit, m)
  | (none, m) => do
    let value ← Resolution.resolve u year month text
    return (value, m.insert key value)

end Recurrence
