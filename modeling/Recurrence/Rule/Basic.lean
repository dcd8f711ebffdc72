import Recurrence.UnitMap
import Recurrence.Value.Basic

/-!
Rules: what an expression asks of a time, one constraint each. Values are texts, because what `last`
or a third Friday stands for depends on the month that is looked at.
-/

namespace Recurrence

/-- A range for each of some units, start and end included. -/
structure Range where
  bounds : UnitMap (String × String)
  deriving DecidableEq

namespace Range

def units (r : Range) : UnitSet := r.bounds.units

def starts (r : Range) : Values :=
  r.units.units.filterMap fun u => (r.bounds.get? u).map fun b => (u, b.1)

def stops (r : Range) : Values :=
  r.units.units.filterMap fun u => (r.bounds.get? u).map fun b => (u, b.2)

end Range

/-- Lists of alternatives, one list to a unit: the entries at one place make one record. -/
structure Columns where
  lists : UnitMap (List String)
  deriving DecidableEq

namespace Columns

def units (c : Columns) : UnitSet := c.lists.units

/-- The number of records, taken from the first list in the order of declaration. -/
def length (c : Columns) : Nat :=
  match c.lists.toList with
  | [] => 0
  | (_, texts) :: _ => texts.length

def record (c : Columns) (i : Nat) : Values :=
  c.units.units.filterMap fun u =>
    (c.lists.get? u).bind fun texts => texts[i]?.map fun text => (u, text)

def records (c : Columns) : List Values := (List.range c.length).map c.record

end Columns

/-- A repetition at every `interval` units, perhaps fixed to an anchor value. -/
structure Every where
  unit : TimeUnit
  interval : Nat
  anchor : Option String
  deriving DecidableEq

/-- One constraint. -/
inductive Rule
  | every (cadence : Every)
  | equals (unit : TimeUnit) (value : String)
  /-- The time agrees with one of the records. -/
  | oneOf (columns : Columns)
  | within (range : Range)
  | withinAny (ranges : List Range)
  | zone (id : String)
  deriving DecidableEq

namespace Rule

def units : Rule → UnitSet
  | every e => UnitSet.single e.unit
  | equals u _ => UnitSet.single u
  | oneOf c => c.units
  | within r => r.units
  | withinAny rs => UnitSet.unions (rs.map Range.units)
  | zone _ => ∅

/-- The unit that the rule is filed under, of several the finest. -/
def unit : Rule → TimeUnit
  | every e => e.unit
  | equals u _ => u
  | oneOf c => c.units.finest?.getD .second
  | within r => r.units.finest?.getD .second
  | withinAny rs => (rs.head?.bind fun r => r.units.finest?).getD .second
  | zone _ => .timeZone

def every? : Rule → Option Every
  | every e => some e
  | _ => none

def zone? : Rule → Option String
  | zone id => some id
  | _ => none

def isFixed : Rule → Bool
  | equals .. | oneOf _ => true
  | _ => false

/-- Whether the rule is a window: a range or a list of ranges. -/
def isWindow : Rule → Bool
  | within _ | withinAny _ => true
  | _ => false

def isPrimary (r : Rule) : Bool := r.every?.isSome || r.isFixed

def ranges : Rule → List Range
  | within r => [r]
  | withinAny rs => rs
  | _ => []

def fixedValues : Rule → Values
  | equals u text => [(u, text)]
  | oneOf c => c.lists.toList.flatMap fun p => p.2.map fun text => (p.1, text)
  | _ => []

end Rule

/-- A rule and the clause it was written as. -/
structure WrittenRule where
  rule : Rule
  source : String
  deriving DecidableEq

end Recurrence
