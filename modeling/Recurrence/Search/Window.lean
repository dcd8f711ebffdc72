import Recurrence.Rule.Basic
import Recurrence.Search.Advance

/-!
Ranges as windows on time. The bounds of the clock and the date make one interval, compared field by
field; units coarser than the bounded ones follow the time that is looked at, finer ones span their
whole range. The weekday has a range of its own.
-/

namespace Recurrence

namespace Range

def clockOrder : List TimeUnit := [.year, .month, .day, .hour, .minute, .second]

/-- The units of date and clock that have bounds, most significant first. -/
def bounded (r : Range) : List TimeUnit := clockOrder.filter fun u => (r.bounds.get? u).isSome

/-- The first and last fields of the window, with the units from `us` still to be filled in. Fails
when a bound has no value. -/
def fillBounds (r : Range) (finest : TimeUnit) (start stop : Fields) :
    List TimeUnit → Option (Fields × Fields)
  | [] => some (start, stop)
  | u :: us =>
    match r.bounds.get? u with
    | some (low, high) =>
      match (Resolution.ofText u start.year start.month low).value?,
          (Resolution.ofText u stop.year stop.month high).value? with
      | some l, some h =>
        fillBounds r finest (start.set u (u.clampIn start.year start.month l))
          (stop.set u (u.clampIn stop.year stop.month h)) us
      | _, _ => none
    | none =>
      if u.isFinerThan finest then
        fillBounds r finest (start.set u u.minValue)
          (stop.set u (u.maxValueIn stop.year stop.month)) us
      else fillBounds r finest start stop us

/-- The jump into the interval of date and clock, `none` inside it. -/
def clockCheck (r : Range) (t : LocalTime) : Option Advance :=
  let units := r.bounded
  match units.head?, units.getLast? with
  | some coarsest, some finest =>
    match r.fillBounds finest t.fields t.fields clockOrder with
    | none => some (.wrap coarsest)
    | some (start, stop) =>
      if t.fields.toList < start.toList then
        match LocalTime.ofFields? start with
        | some opening => some (.time opening)
        | none => some (.units 1 finest)
      else if stop.toList < t.fields.toList then some (.wrap coarsest)
      else none
  | _, _ => none

def weekdayCheck (r : Range) (t : LocalTime) : Option Advance :=
  match r.bounds.get? .week with
  | none => none
  | some (low, high) =>
    match (Resolution.ofText .week t.date.year t.date.month low).value?,
        (Resolution.ofText .week t.date.year t.date.month high).value? with
    | some l, some h =>
      let weekday := t.part .week
      if weekday < l then some (.units (l - weekday) .day)
      else if h < weekday then some (.units (7 - weekday + l) .day)
      else none
    | _, _ => some .never

def check (r : Range) (t : LocalTime) : Option Advance :=
  match r.clockCheck t with
  | some a => some a
  | none => r.weekdayCheck t

def accepts (r : Range) (t : LocalTime) : Bool := (r.check t).isNone

end Range

end Recurrence
