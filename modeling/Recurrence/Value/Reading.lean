import Recurrence.Value.DayTime

/-!
Reading a value. The signs in it decide its format: colons, am and pm make a clock time, dashes a
date, a special-day word a special day; anything else is one word or number.
-/

namespace Recurrence.Value

open Token

/-- Reads a special day that stands without a time. An edge is of the unit named, or the default. -/
def specialDay (ts : List Token) (default : Option TimeUnit) : Except Malformed Values := do
  let (explicit, rest) ← explicitUnit ts
  match special? rest with
  | none => throw (.invalidValue (join rest))
  | some (day, value) =>
    match explicit.or default, day with
    | some unit, .edge _ => return [(unit, value)]
    | none, _ => return [(.day, value)]
    | some .day, _ => return [(.day, value)]
    | some _, _ => throw (.onlyWithDays value)

def single (ts : List Token) (default : Option TimeUnit) : Except Malformed Values := do
  let (explicit, rest) ← explicitUnit ts
  match rest with
  | [] => throw (.noValueAfterUnit explicit)
  | _ :: extra :: _ => throw (.unexpected extra.text)
  | [value] =>
    let named (unit : TimeUnit) : Except Malformed Values :=
      match explicit with
      | none => return [(unit, value.text)]
      | some u =>
        if u = unit then return [(unit, value.text)] else throw (.notOfUnit value.text u)
    match value.kind with
    | .number =>
      match explicit.or default with
      | some unit => return [(unit, Text.dropZeros value.text)]
      | none => throw (.unitRequired value.text)
    | .weekday => named .week
    | .month => named .month
    | _ => throw (.unexpected value.text)

/-- Reads a value. A number without a unit word is of the default unit. -/
def read (tokens : List Token) (default : Option TimeUnit) : Except Malformed Values :=
  let ts := significant (trimTrivia tokens)
  let special := ts.any fun t =>
    match t.kind with
    | .special _ => true
    | _ => false
  if ts.isEmpty then .error .valueRequired
  else match isTimed ts, hasDateDash ts with
    | true, true => dateTime tokens
    | true, false => if special then dayTime tokens else clock tokens
    | false, true => date tokens
    | false, false => if special then specialDay ts default else single ts default

end Recurrence.Value
