import Recurrence.Calendar.MonthName
import Recurrence.Rule.Basic
import Recurrence.Text.Blank

/-!
The canonical text of a rule: a clock time, a dashed date, an ordinal day with a time, or a unit
with its value.
-/

namespace Recurrence

namespace Canonical

def keyword (units : UnitSet) : String :=
  if units.intersects UnitSet.clock then "@at"
  else if units.intersects (UnitSet.ofList [.day, .week]) then "@on"
  else "@in"

/-- One value with its unit. Names of weekdays and months need none. -/
def single (unit : TimeUnit) (value : String) : String :=
  let plain :=
    match unit with
    | .week => (Weekday.ofName? value).isSome
    | .month => (MonthName.number? value).isSome
    | _ => false
  if plain then value else unit.name ++ " " ++ value

/-- A clock time in two digits each, where hour and minute are given. -/
def clock (hour minute second : Option String) : Option String := do
  let h ← Text.word? (← hour)
  let m ← Text.word? (← minute)
  let time := Text.twoDigits h ++ ":" ++ Text.twoDigits m
  match second with
  | none => return time
  | some text => return time ++ ":" ++ Text.twoDigits (← Text.word? text)

def year (text : String) : Option String := do
  let n ← Text.word? text
  if 1000 ≤ n ∧ n ≤ 9999 then some (toString n) else none

def unspaced (text : String) : Option String :=
  if text.toList.any Text.isBlank then none else some text

/-- The given fields of a date with dashes between them; the month has to be one. -/
def dashedDate (yearText month day : Option String) : Option String := do
  let m ← unspaced (← month)
  let ys ← match yearText with
    | none => some []
    | some text => (year text).map ([·])
  let ds ← match day with
    | none => some []
    | some text => (unspaced text).map ([·])
  return "-".intercalate (ys ++ m :: ds)

def ordinal (n : Nat) : String :=
  let ending :=
    if 11 ≤ n % 100 ∧ n % 100 ≤ 13 then "th"
    else if n % 10 = 1 then "st"
    else if n % 10 = 2 then "nd"
    else if n % 10 = 3 then "rd"
    else "th"
  toString n ++ ending

/-- A day, perhaps of a year; a plain number becomes an ordinal. -/
def dayPhrase (yearText day : Option String) : Option String := do
  let text ← day
  let phrase := ((Text.word? text).map ordinal).getD text
  match yearText with
  | none => return phrase
  | some y => return phrase ++ " " ++ (← year y)

def phrase (vs : Values) : Option String :=
  let units := vs.units
  let get (u : TimeUnit) : Option String := vs.lookup u
  let dashed := dashedDate (get .year) (get .month) (get .day)
  if units.intersects UnitSet.clock then do
    let time ← clock (get .hour) (get .minute) (get .second)
    if (units \ UnitSet.clock).isEmpty then return time
    else if units.has .week then none
    else
      let date ← if (get .month).isSome then dashed else dayPhrase (get .year) (get .day)
      return date ++ " " ++ time
  else if units.has .week then none
  else dashed

def values (vs : Values) : String :=
  match vs with
  | [(unit, value)] => single unit value
  | _ => (phrase vs).getD (" ".intercalate (vs.map fun v => single v.1 v.2))

def sharedUnit (records : List Values) : Option TimeUnit :=
  match records with
  | [(unit, _)] :: _ =>
    let alone := records.all fun r =>
      match r with
      | [(u, _)] => u = unit
      | _ => false
    if alone then some unit else none
  | _ => none

/-- Records as a bracketed list. A unit that all share is written once, in front. -/
def list (records : List Values) : String :=
  match sharedUnit records with
  | some unit =>
    let texts := records.flatMap fun r => r.map Prod.snd
    unit.name ++ " [" ++ ", ".intercalate texts ++ "]"
  | none => "[" ++ ", ".intercalate (records.map values) ++ "]"

def range (r : Range) : String := values r.starts ++ " and " ++ values r.stops

end Canonical

/-- The canonical text of a rule. -/
def Rule.canonical : Rule → String
  | .every e =>
    "@every " ++ toString e.interval ++ " " ++ e.unit.name ++ "s"
      ++ (match e.anchor with
        | some anchor => " AnchoredOn " ++ anchor
        | none => "")
  | .equals u v => Canonical.keyword (UnitSet.single u) ++ " " ++ Canonical.values [(u, v)]
  | .oneOf c =>
    let records := c.records
    let keyword := ((records.head?.map Values.units).map Canonical.keyword).getD "@at"
    keyword ++ " " ++ Canonical.list records
  | .within r => "@between " ++ Canonical.range r
  | .withinAny rs => "@between [" ++ ", ".intercalate (rs.map Canonical.range) ++ "]"
  | .zone id => "@tz " ++ id

end Recurrence
