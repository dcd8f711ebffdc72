import Recurrence.Search.Condition

/-!
Conditions with a memory: the last time looked at with its answer, and the records of the last
month. A search asks a condition about the same time and month again and again.
-/

namespace Recurrence

/-- The records of a condition in a month. -/
structure MonthRecords where
  year : Int
  month : Int
  records : List Record

/-- A condition and what it remembers. -/
structure Matcher where
  condition : Condition
  last : Option (LocalTime × Bool)
  month : Option MonthRecords

namespace Matcher

def fresh (c : Condition) : Matcher := ⟨c, none, none⟩

/-- The records of a list in the month of a time, resolved again only when the month is another. -/
def listRecords (m : Matcher) (columns : Columns) (t : LocalTime) : List Record × Matcher :=
  let year := t.date.year
  let month := t.date.month
  match m.month.filter fun known => known.year = year && known.month = month with
  | some known => (known.records, m)
  | none =>
    let records := columns.resolved year month
    (records, { m with month := some ⟨year, month, records⟩ })

def recordsAt (m : Matcher) (t : LocalTime) : List Record × Matcher :=
  match m.condition with
  | .oneOf columns => m.listRecords columns t
  | _ => ([], m)

def accepts (m : Matcher) (t : LocalTime) : Bool × Matcher :=
  match m.last.filter fun known => known.1 = t with
  | some known => (known.2, m)
  | none =>
    let (records, m) := m.recordsAt t
    let answer := m.condition.acceptsGiven records t
    (answer, { m with last := some (t, answer) })

def advance (m : Matcher) (t : LocalTime) : Advance × Matcher :=
  let (records, m) := m.recordsAt t
  (m.condition.advanceGiven records t, m)

end Matcher

end Recurrence
