import Recurrence.Value.Basic

/-!
Clock times: an hour, then minutes and seconds after colons, then perhaps am or pm.
-/

namespace Recurrence.Value

open Token

def blankAtColon (ts : List Token) : Bool :=
  (ts.zip ts.tail).any fun (a, b) =>
    (a.kind = .colon && b.kind = .blank) || (a.kind = .blank && b.kind = .colon)

def clockNumbers (whole : String) : List Token → Except Malformed (List String)
  | [] => .error (.nothingAfterColon whole)
  | [n] => if n.kind = .number then .ok [n.text] else .error (.unexpectedInClock n.text whole)
  | n :: c :: rest =>
    if n.kind ≠ .number then .error (.unexpectedInClock n.text whole)
    else if c.kind ≠ .colon then .error (.unexpectedInClock c.text whole)
    else (clockNumbers whole rest).map (n.text :: ·)

/-- The hour of the day of an hour on a twelve-hour clock. -/
def hourOf (half : Meridiem) (h : Nat) : Nat :=
  match half with
  | .am => if h = 12 then 0 else h
  | .pm => if h = 12 then 12 else h + 12

def clockHour (half : Option Meridiem) (text : String) : Except Malformed String :=
  let hour := Text.dropZeros text
  match half with
  | none => .ok hour
  | some half =>
    match Text.word? hour with
    | none => .error (.invalidHour hour)
    | some h =>
      if 1 ≤ h ∧ h ≤ 12 then .ok (toString (hourOf half h)) else .error (.hourOutOfHalf h)

/-- Takes a final am or pm off a value. -/
def splitMeridiem (ts : List Token) : List Token × Option Meridiem :=
  match ts.getLast? with
  | some last =>
    match last.kind with
    | .meridiem half => (ts.dropLast, some half)
    | _ => (ts, none)
  | none => (ts, none)

def clock (tokens : List Token) : Except Malformed Values := do
  let ts := trimTrivia tokens
  let whole := spelling ts
  if blankAtColon ts then
    throw (.blankAroundColon whole)
  rejectUnit (significant ts) .clockTime
  let (fields, half) := splitMeridiem (significant ts)
  match ← clockNumbers whole fields with
  | [] => throw (.nothingAfterColon whole)
  | [h] => return [(.hour, ← clockHour half h)]
  | [h, m] => return [(.hour, ← clockHour half h), (.minute, Text.dropZeros m)]
  | [h, m, s] =>
    return [(.hour, ← clockHour half h), (.minute, Text.dropZeros m), (.second, Text.dropZeros s)]
  | _ => throw (.tooManyColons whole)

end Recurrence.Value
