import Recurrence.Value.Basic

/-!
Dates: a month and perhaps a day, or a year of four digits and perhaps a month and a day, with
dashes between them. A dash between an edge word and a number is an offset and joins them.
-/

namespace Recurrence.Value

open Token

/-- Whether `t`, between `left` and the tokens `rest`, is a dash that separates date fields. -/
def isDateDash (left : Option Token) (t : Token) (rest : List Token) : Bool :=
  let afterEdge := left.any fun p =>
    match p.kind with
    | .special day => day.takesOffset
    | _ => false
  t.kind = .dash && !(afterEdge && rest.head?.any fun n => n.kind = .number)

/-- The fields between date dashes, of tokens that follow `left`. -/
def dateFields (left : Option Token) : List Token → List (List Token)
  | [] => [[]]
  | t :: ts =>
    if isDateDash left t ts then [] :: dateFields (some t) ts
    else match dateFields (some t) ts with
      | [] => [[t]]
      | field :: fields => (t :: field) :: fields

def hasDateDash (ts : List Token) : Bool := 1 < (dateFields none ts).length

def dateField (unit : TimeUnit) (field : List Token) : Except Malformed String :=
  let invalid : Except Malformed String := .error (.invalidDateField unit (join field))
  let special : Except Malformed String :=
    match unit, special? field with
    | .month, some (.edge _, value) => .ok value
    | .day, some (.closestWeekday, _) => invalid
    | .day, some (_, value) => .ok value
    | _, _ => invalid
  match field with
  | [t] =>
    if t.kind = .number then .ok (Text.dropZeros t.text)
    else if unit = .month ∧ t.kind = .month then .ok t.text
    else special
  | _ => special

def isYear (field : List Token) : Bool :=
  match field with
  | [t] => t.kind = .number && t.text.length = 4
  | _ => false

def date (tokens : List Token) : Except Malformed Values := do
  let ts := trimTrivia tokens
  let whole := spelling ts
  if ts.any fun t => t.kind = .blank then
    throw (.blankInDate whole)
  rejectUnit (significant ts) .date
  let fields := dateFields none (significant ts)
  if 3 < fields.length then
    throw (.tooManyDashes whole)
  if fields.any List.isEmpty then
    throw (.nothingAroundDash whole)
  let units :=
    if fields.head?.any isYear then [TimeUnit.year, .month, .day] else [.month, .day]
  if units.length < fields.length then
    throw (.tooManyDateFields whole)
  (units.zip fields).mapM fun (unit, field) => return (unit, ← dateField unit field)

end Recurrence.Value
