import Recurrence.Resolution.Basic

/-!
How far a search may jump from a time that a constraint refuses.
-/

namespace Recurrence

/-- Where the next time to look at is. -/
inductive Advance
  /-- The start of the `amount`-th unit after this one. -/
  | units (amount : Int) (unit : TimeUnit)
  | time (t : LocalTime)
  /-- Nowhere: no later time is accepted. -/
  | never
  deriving DecidableEq

namespace Advance

/-- Where the jump from a time leads. It leads at least to the next unit or second. -/
def landing (a : Advance) (start : LocalTime) : Option LocalTime :=
  match a with
  | units amount unit => some (start.land (max amount 1) unit)
  | time t => some (max t (start.addSeconds 1))
  | never => none

def wrap (u : TimeUnit) : Advance :=
  match u.parent? with
  | some parent => units 1 parent
  | none => never

/-- From a time at which the unit does not have the value that a text stands for. -/
def toValue (u : TimeUnit) (r : Resolution) (t : LocalTime) : Advance :=
  let current := t.part u
  match r with
  | .noMatch => wrap u
  | .invalid => never
  | .value target =>
    match u with
    | .week =>
      let days := (target - current) % 7
      units (if days = 0 then 7 else days) .day
    | .year => if current < target then units (target - current) .year else never
    | _ =>
      if current < target ∧ target ≤ u.maxValueIn t.date.year t.date.month then
        units (target - current) u
      else wrap u

def earliest? (ts : List LocalTime) : Option LocalTime := ts.min?

def toEarliest (advances : List Advance) (t : LocalTime) : Advance :=
  match earliest? (advances.filterMap fun a => a.landing t) with
  | some landing => time landing
  | none => never

end Advance

end Recurrence
