import Recurrence.Rule.Basic
import Recurrence.Search.Advance

/-!
Cadences: units at a fixed interval. Without an anchor they are counted from a time; with one, from
the anchor value inside each cycle. Weeks with an anchor are counted from the first day that is it.
-/

namespace Recurrence

/-- A cadence, with the index of a unit that belongs to it. -/
structure Cadence where
  unit : TimeUnit
  interval : Int
  anchor : Option String
  phase : Int
  deriving DecidableEq

namespace Cadence

def startingAt (rule : Every) (base : LocalTime) : Cadence :=
  let phase :=
    match rule.unit, rule.anchor with
    | .week, some anchor =>
      let r := Resolution.ofText .week base.date.year base.date.month anchor
      let ahead := (r.value?.getD 1 - base.part .week) % 7
      LocalTime.index .week (base.addSeconds (ahead * LocalTime.daySeconds))
    | u, _ => base.index u
  ⟨rule.unit, max rule.interval 1, rule.anchor, phase⟩

/-- How many units a time is past the last one of the cadence. -/
def offset (c : Cadence) (t : LocalTime) : Int := (t.index c.unit - c.phase) % c.interval

def anchorIn (c : Cadence) (t : LocalTime) : Option Resolution :=
  c.anchor.map (Resolution.ofText c.unit t.date.year t.date.month)

def accepts (c : Cadence) (t : LocalTime) : Bool :=
  match c.anchorIn t with
  | none => c.offset t = 0
  | some (.value anchor) =>
    if c.unit = .week then t.part .week = anchor && c.offset t = 0
    else (t.part c.unit - anchor) % c.interval = 0
  | some _ => false

def advance (c : Cadence) (t : LocalTime) : Advance :=
  let offset := c.offset t
  let ahead := if offset = 0 then c.interval else c.interval - offset
  match c.anchorIn t with
  | none => .units ahead c.unit
  | some .noMatch => .wrap c.unit
  | some .invalid => .never
  | some (.value anchor) =>
    if c.unit = .week then
      let weekday := t.part .week
      if offset = 0 ∧ weekday < anchor then .units (anchor - weekday) .day
      else .units ahead .week
    else
      let current := t.part c.unit
      let step := c.interval - (current - anchor) % c.interval
      if current + step ≤ c.unit.maxValueIn t.date.year t.date.month then .units step c.unit
      else .wrap c.unit

end Cadence

end Recurrence
