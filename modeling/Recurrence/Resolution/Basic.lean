import Recurrence.Calendar.LocalTime
import Recurrence.Calendar.MonthName
import Recurrence.Resolution.EdgeText

/-!
What a text stands for as the value of a unit, in a given month: a number, a name, an edge with an
offset, or for days one of the forms that look at the weekdays of the month. A form that the month
does not have, such as a fifth Friday, is valid and matches nothing.
-/

namespace Recurrence

/-- What a text stands for. -/
inductive Resolution
  | value (value : Int)
  | noMatch
  | invalid
  deriving DecidableEq

namespace Resolution

def value? : Resolution → Option Int
  | value v => some v
  | _ => none

/-- Whether the text has a meaning, in this month or another. -/
def isValid : Resolution → Bool
  | invalid => false
  | _ => true

def ofNumber (u : TimeUnit) (n : Nat) : Resolution :=
  if u.minValue ≤ n ∧ (n : Int) ≤ u.maxValue then value n else invalid

def ofName? (u : TimeUnit) (word : String) : Option Int :=
  match u with
  | .week => (Weekday.ofName? word).map Weekday.number
  | .month => MonthName.number? word
  | _ => none

/-- An edge with its offset, cut to the range of the unit in the month. Days need a month. -/
def ofEdge (u : TimeUnit) (year month : Int) (e : EdgeText) : Resolution :=
  if e.ofMonth = true ∧ u ≠ .day then invalid
  else if u = .day ∧ month = 0 then invalid
  else
    let base :=
      match e.edge with
      | .last => u.maxValueIn year month
      | .first => u.minValue
    value (u.clampIn year month (base + e.shift))

def weekdayGap (start stop : Int) : Int := (stop - start) % 7

/-- The n-th weekday of a month, between its first and last day. -/
def ofNthWeekday (first last : Date) (n : NthWeekday) : Resolution :=
  let found : Date :=
    match n.edge with
    | .last => ⟨last.number - (weekdayGap n.weekday.number last.weekday + 7 * (n.nth - 1))⟩
    | .first => ⟨first.number + (weekdayGap first.weekday n.weekday.number + 7 * (n.nth - 1))⟩
  if found.month = first.month ∧ found.year = first.year then value found.dayOfMonth else noMatch

def workingDayFrom (d : Date) : Date :=
  if d.weekday = 7 then ⟨d.number + 2⟩ else if d.weekday = 1 then ⟨d.number + 1⟩ else d

def workingDayUpto (d : Date) : Date :=
  if d.weekday = 7 then ⟨d.number - 1⟩ else if d.weekday = 1 then ⟨d.number - 2⟩ else d

/-- The working day of a month that is closest to its day `n`. -/
def closestWeekday (year month n : Int) : Int :=
  let weekday := (Date.ofFields year month n).weekday
  if weekday = 7 then (if n = 1 then n + 2 else n - 1)
  else if weekday = 1 then (if n = Date.daysInMonth year month then n - 2 else n + 1)
  else n

/-- Reads the closest-weekday word and its day number, of one or two digits. -/
def closestNumber? (cs : List Char) : Option (List Char) :=
  let rest? := ["closestweekdayto", "nearestweekdayto"].findSome? fun w => w.toList.isPrefixOf? cs
  rest?.bind fun rest =>
    let ds := rest.dropWhile Text.isBlank
    if 1 ≤ ds.length ∧ ds.length ≤ 2 ∧ ds.all Char.isDigit then some ds else none

def ofDayForm (year month : Int) (word : String) : Resolution :=
  match Date.ofFields? year month 1 with
  | none => invalid
  | some first =>
    let length := Date.daysInMonth year month
    let last : Date := ⟨first.number + (length - 1)⟩
    match SpecialDay.nthWeekday? word with
    | some n => ofNthWeekday first last n
    | none =>
      if word = "firstweekday" then value (workingDayFrom first).dayOfMonth
      else if word = "lastweekday" then value (workingDayUpto last).dayOfMonth
      else match closestNumber? word.toList with
      | some ds =>
        let n : Int := Text.digitsValue ds
        if 1 ≤ n ∧ n ≤ 31 then value (closestWeekday year month (min n length)) else invalid
      | none =>
        match SpecialDay.ordinalDay? word with
        | some n => value n
        | none => invalid

/-- What a text stands for as the value of a unit in a month. Month 0 is no month; only day forms
need one. -/
def ofText (u : TimeUnit) (year month : Int) (text : String) : Resolution :=
  let cs := Text.trimChars text.toList
  let small := cs.map Char.toLower
  if u = .timeZone ∨ cs = [] then invalid
  else if cs.all Char.isDigit then ofNumber u (Text.digitsValue cs)
  else match ofName? u (String.ofList cs) with
  | some v => value v
  | none =>
    match EdgeText.ofChars? small with
    | some e => ofEdge u year month e
    | none => if u = .day then ofDayForm year month (String.ofList small) else invalid

end Resolution

end Recurrence
