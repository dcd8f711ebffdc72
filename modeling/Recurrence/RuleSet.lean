import Recurrence.Resolution.Basic
import Recurrence.Rule.Basic

/-!
Whether rules stand together. The checks have an order and the first that fails is the conflict.
Values are tried in January of year 1.
-/

namespace Recurrence

namespace RuleSet

/-- What a text stands for in the month that stands for all. -/
def probe (u : TimeUnit) (text : String) : Resolution := Resolution.ofText u 1 1 text

def everys (rules : List Rule) : List Every := rules.filterMap Rule.every?

def zones (rules : List Rule) : List String := rules.filterMap Rule.zone?

def zone? (D : Zone.Database) (rules : List Rule) : Option Zone := (zones rules).findSome? D.zone?

def fixedUnits (rules : List Rule) : List UnitSet := (rules.filter Rule.isFixed).map Rule.units

/-- Some fixed value is of the unit of the cadence. Weekdays go with a cadence of weeks, unless it
is anchored on one. -/
def unitConflict (e : Every) (u : TimeUnit) : Option Conflict :=
  if u = .week ∧ e.unit = .week ∧ e.anchor.isSome then some .weekConflictsWithAnchor
  else if u = e.unit ∧ u ≠ .week then some (.conflictsWithEvery u)
  else none

/-- Whether a unit is in two of the sets, or in one of them and in `seen`. -/
def overlaps (seen : UnitSet) : List UnitSet → Bool
  | [] => false
  | s :: sets => seen.intersects s || overlaps (seen ∪ s) sets

/-- The start and end values of a range that compare, most significant unit first, without the
weekday and without days that January does not have. -/
def comparedBounds (r : Range) : List (Int × Int) :=
  r.units.units.filterMap fun u =>
    match r.bounds.get? u with
    | some (start, stop) =>
      match probe u start, probe u stop with
      | .value s, .value e => if u = .week then none else some (s, e)
      | _, _ => none
    | none => none

def boundConflict (r : Range) (u : TimeUnit) : Option Conflict :=
  match r.bounds.get? u with
  | none => none
  | some (start, stop) =>
    match probe u start, probe u stop with
    | .invalid, _ => some (.invalidBetweenValue u start)
    | _, .invalid => some (.invalidBetweenValue u stop)
    | .value s, .value e =>
      if u = .week ∧ e < s then some (.betweenStartAfterEnd start stop) else none
    | _, _ => none

def rangeConflict (r : Range) : Option Conflict :=
  match r.units.units.findSome? (boundConflict r) with
  | some c => some c
  | none =>
    let bounds := comparedBounds r
    if bounds.map Prod.snd < bounds.map Prod.fst then
      let texts (vs : Values) := " ".intercalate (vs.map Prod.snd)
      some (.betweenStartAfterEnd (texts r.starts) (texts r.stops))
    else none

def windowConflict (hasEvery : Bool) (r : Rule) : Option Conflict :=
  if r.isWindow then
    if hasEvery then r.ranges.findSome? rangeConflict else some .betweenWithoutEvery
  else none

def valueConflict (v : TimeUnit × String) : Option Conflict :=
  if (probe v.1 v.2).isValid then none else some (.invalidAtValue v.1 v.2)

def everyConflict (e : Every) : Option Conflict :=
  if e.interval = 0 then some .nonPositiveInterval
  else match e.anchor with
  | none => none
  | some anchor =>
    if (probe e.unit anchor).value?.isSome then none else some (.invalidAnchor e.unit anchor)

/-- The first conflict of rules, if they do not stand together. -/
def conflict? (D : Zone.Database) (rules : List Rule) : Option Conflict :=
  let every? := (everys rules).head?
  let fixed := fixedUnits rules
  if !rules.any Rule.isPrimary then some .missingPrimaryRule
  else if 1 < (everys rules).length then some .multipleEvery
  else
    (every?.bind fun e => (fixed.flatMap UnitSet.units).findSome? (unitConflict e))
    <|> (if overlaps ∅ fixed then some .duplicateAtRule else none)
    <|> rules.findSome? (windowConflict every?.isSome)
    <|> (rules.flatMap Rule.fixedValues).findSome? valueConflict
    <|> ((zones rules).find? fun id => !D.isKnown id).map .unknownTimeZone
    <|> (if 1 < (zones rules).length then some .multipleTimeZones else none)
    <|> every?.bind everyConflict

end RuleSet

end Recurrence
