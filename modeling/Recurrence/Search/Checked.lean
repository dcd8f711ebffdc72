import Recurrence.Calendar.Checked
import Recurrence.Search.Plan

/-!
Jumps and plans within the limits of the calendar. A jump by weeks is counted from the start of a
week, which may be before the calendar starts. A jump to a time leads to the next second at least,
which may be after the calendar ends, and so may the day that a cadence of weeks is counted from.
The calculation stops there.
-/

namespace Recurrence.Checked

def addSeconds (t : LocalTime) (seconds : Int) : Checked LocalTime := do
  match ← addSeconds? t seconds with
  | some later => return later
  | none => throw .date

/-! ### Jumps -/

def landing (a : Advance) (start : LocalTime) : Checked (Option LocalTime) :=
  match a with
  | .units amount unit => do return some (← land start (max amount 1) unit)
  | .time t => do return some (max t (← addSeconds start 1))
  | .never => return none

def toEarliest (advances : List Advance) (t : LocalTime) : Checked Advance := do
  let landings ← advances.mapM fun a => landing a t
  match Advance.earliest? (landings.filterMap id) with
  | some landing => return .time landing
  | none => return .never

/-- The jump from a time that the condition refuses. Alternatives are compared by where they
lead. -/
def advance (c : Condition) (t : LocalTime) : Checked Advance :=
  match c with
  | .oneOf columns =>
    toEarliest ((columns.resolved t.date.year t.date.month).map fun r => r.advance t) t
  | .withinAny rs => toEarliest (rs.filterMap fun r => r.check t) t
  | .equals .. | .pin .. | .cadence _ | .within _ => return c.advance t

/-- The time that the condition asks for when it refuses one. -/
def jump (c : Condition) (t : LocalTime) : Checked (Option LocalTime) := do
  landing (← advance c t) t

/-! ### Plans -/

/-- How many days after a base the first day is that an anchor stands for. -/
def daysAhead (anchor : String) (base : LocalTime) : Int :=
  let r := Resolution.ofText .week base.date.year base.date.month anchor
  (r.value?.getD 1 - base.part .week) % 7

def startingAt (rule : Every) (base : LocalTime) : Checked Cadence := do
  let phase ←
    match rule.unit, rule.anchor with
    | .week, some anchor =>
      index .week (← addSeconds base (daysAhead anchor base * LocalTime.daySeconds))
    | u, _ => index u base
  return ⟨rule.unit, max rule.interval 1, rule.anchor, phase⟩

def windowLandings (windows : List Condition) (t : LocalTime) : Checked (List LocalTime) := do
  let landings ← windows.mapM fun w => if w.accepts t then return none else jump w t
  return landings.filterMap id

/-- The time itself, or after at most `n` jumps the next one that windows leave open. -/
def windowSeed (windows : List Condition) : Nat → LocalTime → Checked LocalTime
  | 0, t => return t
  | n + 1, t => do
    match Advance.earliest? (← windowLandings windows t) with
    | some next => windowSeed windows n next
    | none => return t

/-- The conditions of rules for a series from a base time, once the seed of the cadence is found and
the cadence is counted from it. -/
def conditions (rules : List Rule) (base : LocalTime) : Checked (List Condition) := do
  if let some e := Plan.every? rules then
    let _ ← startingAt e (← windowSeed (Plan.windows rules) Plan.seedSteps base)
  return Plan.conditions rules base

end Recurrence.Checked
