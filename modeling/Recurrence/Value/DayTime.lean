import Recurrence.Value.Clock
import Recurrence.Value.Date

/-!
Days with a clock time: a date and a time separated by a blank, or a special day with a time and
perhaps a month and a year.
-/

namespace Recurrence.Value

open Token

def isTimed (ts : List Token) : Bool :=
  ts.any fun t =>
    match t.kind with
    | .colon | .meridiem _ => true
    | _ => false

/-- Reads a date and a time. The date is one run, the first or the last. -/
def dateTime (tokens : List Token) : Except Malformed Values := do
  let ts := trimTrivia tokens
  let whole := spelling ts
  let dated (r : Run) := hasDateDash r.meaning
  let before := (runs ts).takeWhile fun r => !dated r
  match (runs ts).dropWhile fun r => !dated r with
  | [] => throw (.blankInDate whole)
  | run :: after =>
    if after.any dated then
      throw (.blankInDate whole)
    let time ← match before, after with
      | [], _ :: _ => pure (after.flatMap Run.all)
      | _ :: _, [] => pure (before.flatMap Run.all)
      | _, _ => throw (.dateAndTimeExpected whole)
    return (← date run.tokens) ++ (← clock time)

/-- The parts of a day, as far as they have been given. -/
structure DayParts where
  day : Option String
  month : Option String
  year : Option String

def DayParts.none : DayParts := ⟨.none, .none, .none⟩

def DayParts.put (p : DayParts) (whole : String) : TimeUnit × String → Except Malformed DayParts
  | (.day, v) =>
    if p.day.isSome then .error (.duplicateField .day whole) else .ok { p with day := v }
  | (.month, v) =>
    if p.month.isSome then .error (.duplicateField .month whole) else .ok { p with month := v }
  | (_, v) =>
    if p.year.isSome then .error (.duplicateField .year whole) else .ok { p with year := v }

/-- Joins each number that stands alone to a closest-weekday word that stands alone before it. -/
def attachDayNumbers : List (List Token) → List (List Token)
  | [t] :: [n] :: rest =>
    if t.kind = .special .closestWeekday ∧ n.kind = .number then [t, n] :: attachDayNumbers rest
    else [t] :: attachDayNumbers ([n] :: rest)
  | run :: rest => run :: attachDayNumbers rest
  | [] => []

def dayPart (run : List Token) : Except Malformed (TimeUnit × String) :=
  let special : Except Malformed (TimeUnit × String) := do
    rejectUnit run .clockTime
    match special? run with
    | some (_, value) => return (.day, value)
    | none => throw (.unexpectedInDayTime (join run))
  match run with
  | [t] =>
    if t.kind = .month then .ok (.month, t.text)
    else if isYear run then .ok (.year, t.text)
    else if t.kind = .special .closestWeekday then .error (.noDayNumber t.text)
    else special
  | _ => special

/-- Divides runs into those before the clock time, those of it and those after it. An hour that
stands alone before an am or pm that stands alone belongs to the time. -/
def splitTime (runs : List Run) : List Run × List Run × List Run :=
  let timed (r : Run) := isTimed r.meaning
  let before := runs.takeWhile fun r => !timed r
  let rest := runs.dropWhile fun r => !timed r
  let time := rest.takeWhile timed
  let after := rest.dropWhile timed
  match before.getLast?.map Run.meaning, time.head?.map Run.meaning with
  | some [n], some [m] =>
    match n.kind, m.kind with
    | .number, .meridiem _ => (before.dropLast, before.drop (before.length - 1) ++ time, after)
    | _, _ => (before, time, after)
  | _, _ => (before, time, after)

def dayTime (tokens : List Token) : Except Malformed Values := do
  let ts := trimTrivia tokens
  let whole := spelling ts
  let (before, time, after) := splitTime (runs ts)
  if time.isEmpty then
    throw (.noClockTime whole)
  let clockValues ← clock (time.flatMap Run.all)
  let parts ← (attachDayNumbers ((before ++ after).map Run.meaning)).foldlM
    (fun parts run => do parts.put whole (← dayPart run)) DayParts.none
  match parts.day with
  | none => throw (.noDay whole)
  | some day =>
    let month := parts.month.toList.map fun m => (TimeUnit.month, m)
    let year := parts.year.toList.map fun y => (TimeUnit.year, y)
    return (.day, day) :: month ++ year ++ clockValues

end Recurrence.Value
