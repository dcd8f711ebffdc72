import Recurrence.Search.Condition

/-!
The conditions of an expression for a series from a base time. Besides its rules these are pins for
units that no rule fixes. Units finer than the finest fixed value sit at their minimum, so that a
rule for 14:00 means 14:00:00. Units finer than the cadence keep the value of the seed: the base, or
the next opening of the windows when they exclude the base.
-/

namespace Recurrence

namespace Plan

def pinnable : List TimeUnit := [.month, .day, .hour, .minute, .second]

/-- The most jumps from window to window on the way to the seed. -/
def seedSteps : Nat := 8

def windows (rules : List Rule) : List Condition :=
  rules.filterMap fun r =>
    match r with
    | .within range => some (.within range)
    | .withinAny ranges => some (.withinAny ranges)
    | _ => none

def fixedValues (rules : List Rule) : List Condition :=
  rules.filterMap fun r =>
    match r with
    | .equals u text => some (.equals u text)
    | .oneOf columns => some (.oneOf columns)
    | _ => none

def fixedUnits (rules : List Rule) : UnitSet :=
  UnitSet.unions ((rules.filter Rule.isFixed).map Rule.units)

def windowUnits (rules : List Rule) : UnitSet :=
  UnitSet.unions ((rules.filter Rule.isWindow).map Rule.units)

/-- The cadence; of several the last. -/
def every? (rules : List Rule) : Option Every := (rules.filterMap Rule.every?).getLast?

/-- Whether a unit is open to a pin. A fixed weekday decides the day. -/
def isFree (u : TimeUnit) (taken : UnitSet) : Bool :=
  !taken.has u && !(u = .day && taken.has .week)

/-- Pins units at the values of `value`, each that is free of the ones taken so far. -/
def addPins (value : TimeUnit → Int) (blocked : UnitSet) (taken : UnitSet) :
    List TimeUnit → List Condition × UnitSet
  | [] => ([], taken)
  | u :: us =>
    if isFree u (taken ∪ blocked) then
      let (pins, taken) := addPins value blocked (taken ∪ UnitSet.single u) us
      (.pin u (value u) :: pins, taken)
    else addPins value blocked taken us

def windowLandings (windows : List Condition) (t : LocalTime) : List LocalTime :=
  windows.filterMap fun w => if w.accepts t then none else (w.advance t).landing t

/-- The time itself, or after at most `n` jumps the next one that windows leave open. -/
def windowSeed (windows : List Condition) : Nat → LocalTime → LocalTime
  | 0, t => t
  | n + 1, t =>
    match Advance.earliest? (windowLandings windows t) with
    | some next => windowSeed windows n next
    | none => t

/-- The pins under the finest fixed value, and the units fixed after them. -/
def minimumPins (rules : List Rule) : List Condition × UnitSet :=
  let fixed := fixedUnits rules
  match fixed.finest? with
  | none => ([], fixed)
  | some finest =>
    if (every? rules).any fun e => e.unit.isFinerThan finest then ([], fixed)
    else
      addPins TimeUnit.minValue (windowUnits rules) fixed
        (pinnable.filter fun u => u.isFinerThan finest)

def everyConditions (e : Every) (seed : LocalTime) (fixed : UnitSet) : List Condition :=
  let (pins, fixed) :=
    addPins (fun u => seed.part u) ∅ fixed (pinnable.filter fun u => u.isFinerThan e.unit)
  let weekday :=
    if e.unit = .week ∧ e.anchor = none ∧ fixed.has .day = false ∧ fixed.has .week = false then
      [Condition.pin .week (seed.part .week)]
    else []
  .cadence (.startingAt e seed) :: pins ++ weekday

/-- The conditions of rules for a series from a base time. -/
def conditions (rules : List Rule) (base : LocalTime) : List Condition :=
  let (pins, fixed) := minimumPins rules
  let cadence :=
    match every? rules with
    | some e => everyConditions e (windowSeed (windows rules) seedSteps base) fixed
    | none => []
  fixedValues rules ++ pins ++ cadence ++ windows rules

end Plan

end Recurrence
