import Recurrence.SpecialDay
import Recurrence.Text.Blank
import Recurrence.Text.DecimalDigit

/-!
Edges with an offset, as they are written in a value: the edge, perhaps the word for a day of the
month, perhaps a sign and a number of up to six digits, with blanks around the sign.
-/

namespace Recurrence

inductive Direction
  | forward
  | backward
  deriving DecidableEq

/-- An edge as written. -/
structure EdgeText where
  edge : Edge
  ofMonth : Bool
  offset : Option (Direction × List Char)

namespace EdgeText

/-- The number that the digits of an offset denote. Only ASCII digits have a value; with any other
among them the offset counts nothing. -/
def amount (digits : List Char) : Int :=
  if digits.all Char.isDigit then Text.digitsValue digits else 0

def shift (e : EdgeText) : Int :=
  match e.offset with
  | none => 0
  | some (.forward, digits) => amount digits
  | some (.backward, digits) => -amount digits

def digits? (cs : List Char) : Option (List Char) :=
  let ds := cs.dropWhile Text.isBlank
  if 1 ≤ ds.length ∧ ds.length ≤ 6 ∧ ds.all Text.isDecimalDigit then some ds else none

def offset? (cs : List Char) : Option (Option (Direction × List Char)) :=
  match cs.dropWhile Text.isBlank with
  | [] => some none
  | '+' :: rest => (digits? rest).map fun ds => some (.forward, ds)
  | '-' :: rest => (digits? rest).map fun ds => some (.backward, ds)
  | _ => none

def dayWords : List String := ["dayofthemonth", "dayofmonth", "day"]

def dropEdge? (cs : List Char) : Option (Edge × List Char) :=
  match "last".toList.isPrefixOf? cs with
  | some rest => some (.last, rest)
  | none => ("first".toList.isPrefixOf? cs).map fun rest => (.first, rest)

def ofChars? (cs : List Char) : Option EdgeText :=
  match dropEdge? cs with
  | none => none
  | some (edge, rest) =>
    match dayWords.findSome? fun w => w.toList.isPrefixOf? rest with
    | some rest => (offset? rest).map fun o => ⟨edge, true, o⟩
    | none => (offset? rest).map fun o => ⟨edge, false, o⟩

end EdgeText

end Recurrence
