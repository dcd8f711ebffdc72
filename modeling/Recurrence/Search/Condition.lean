import Recurrence.Search.Cadence
import Recurrence.Search.Window

/-!
The conditions of a search: what each rule asks of a time, and the values at which units that no
rule fixes are held. A condition says whether it accepts a time and, of one that it refuses, how far
the search may jump.
-/

namespace Recurrence

/-- What the texts of a record stand for in some month, most significant unit first. -/
abbrev Record := List (TimeUnit × Resolution)

namespace Record

/-- A unit of the record whose value the time does not have. -/
def disagrees (t : LocalTime) (p : TimeUnit × Resolution) : Bool := p.2 ≠ .value (t.part p.1)

def accepts (r : Record) (t : LocalTime) : Bool := !r.any (disagrees t)

/-- The jump that the most significant disagreement asks for. -/
def advance (r : Record) (t : LocalTime) : Advance :=
  match r.find? (disagrees t) with
  | some (u, res) => .toValue u res t
  | none => .units 1 .second

end Record

/-- The records of a list, with what they stand for in a month. -/
def Columns.resolved (c : Columns) (year month : Int) : List Record :=
  c.records.map fun r => r.map fun (u, text) => (u, Resolution.ofText u year month text)

/-- One condition. -/
inductive Condition
  /-- The unit has the value that a text stands for. -/
  | equals (unit : TimeUnit) (value : String)
  /-- The unit is held at a number, or at its greatest value in a month too short for it. -/
  | pin (unit : TimeUnit) (value : Int)
  | cadence (cadence : Cadence)
  | oneOf (columns : Columns)
  | within (range : Range)
  | withinAny (ranges : List Range)
  deriving DecidableEq

namespace Condition

/-- The number that a pin holds a unit at in the month of a time. -/
def pinned (u : TimeUnit) (value : Int) (t : LocalTime) : Int :=
  min value (u.maxValueIn t.date.year t.date.month)

/-- The records of a condition in a month; only a list has any. -/
def recordsIn (c : Condition) (year month : Int) : List Record :=
  match c with
  | oneOf columns => columns.resolved year month
  | _ => []

/-- Whether the condition accepts a time, given its records in the month of the time. -/
def acceptsGiven (c : Condition) (records : List Record) (t : LocalTime) : Bool :=
  match c with
  | equals u text =>
    Resolution.ofText u t.date.year t.date.month text = .value (t.part u)
  | pin u value => t.part u = pinned u value t
  | cadence c => c.accepts t
  | oneOf _ => records.any fun r => r.accepts t
  | within r => r.accepts t
  | withinAny rs => rs.any fun r => r.accepts t

/-- The jump from a time that the condition refuses, given its records in the month of the time. -/
def advanceGiven (c : Condition) (records : List Record) (t : LocalTime) : Advance :=
  match c with
  | equals u text => .toValue u (Resolution.ofText u t.date.year t.date.month text) t
  | pin u value => .toValue u (.value (pinned u value t)) t
  | cadence c => c.advance t
  | oneOf _ => .toEarliest (records.map fun r => r.advance t) t
  | within r => (r.check t).getD (.units 1 .second)
  | withinAny rs => .toEarliest (rs.filterMap fun r => r.check t) t

def accepts (c : Condition) (t : LocalTime) : Bool :=
  c.acceptsGiven (c.recordsIn t.date.year t.date.month) t

def advance (c : Condition) (t : LocalTime) : Advance :=
  c.advanceGiven (c.recordsIn t.date.year t.date.month) t

end Condition

end Recurrence
