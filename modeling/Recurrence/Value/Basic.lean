import Recurrence.Diagnostic
import Recurrence.Token.Run
import Recurrence.UnitSet

/-!
Values as an expression gives them: texts filed under units. A text is kept as written, up to its
normal spelling, because what it stands for can depend on the month.
-/

namespace Recurrence

/-- Texts under units, in the order of the format they were written in. -/
abbrev Values := List (TimeUnit × String)

namespace Values

def units (vs : Values) : UnitSet := UnitSet.ofList (vs.map Prod.fst)

end Values

namespace Value

open Token

/-- A special-day word with its argument or offset, and the normal spelling of the whole. -/
def special? : List Token → Option (SpecialDay × String)
  | [] => none
  | head :: rest =>
    match head.kind with
    | .special day =>
      match day, rest with
      | .ordinal n, [] => some (day, toString n)
      | .ordinal _, _ => none
      | .closestWeekday, [n] =>
        if n.kind = .number then some (day, head.text ++ " " ++ Text.dropZeros n.text) else none
      | .closestWeekday, _ => none
      | day, [] => some (day, head.text)
      | day, [sign, n] =>
        if day.takesOffset && (sign.kind = .plus || sign.kind = .dash) && n.kind = .number then
          some (day, head.text ++ sign.text ++ Text.dropZeros n.text)
        else none
      | _, _ => none
    | _ => none

/-- Refuses unit words in a format that has units of its own. -/
def rejectUnit (ts : List Token) (format : ValueFormat) : Except Malformed Unit :=
  match ts.find? fun t => t.unit?.isSome with
  | some word => .error (.unitWithFormat word.text format)
  | none => .ok ()

/-- Takes the one unit word, if there is one, out of a value. -/
def explicitUnit (ts : List Token) : Except Malformed (Option TimeUnit × List Token) :=
  let rest := ts.filter fun t => t.unit?.isNone
  match ts.filter fun t => t.unit?.isSome with
  | [] => .ok (none, rest)
  | [word] => .ok (word.unit?, rest)
  | _ :: extra :: _ => .error (.unexpectedUnit extra.text)

end Value

end Recurrence
