import Recurrence.Calendar.LocalTime
import Recurrence.Clause
import Recurrence.Rule.Canonical
import Recurrence.Value.Reading

/-!
Reading the rules of a clause.
-/

namespace Recurrence.Rule

open Token

def splitAnchor (body : List Token) : Except Malformed (List Token × Option String) :=
  match body.dropWhile fun t => t.kind ≠ .anchor with
  | [] => .ok (body, none)
  | word :: value =>
    match value.find? fun t => t.kind = .anchor with
    | some extra => .error (.secondAnchor extra.text)
    | none =>
      if spelling value = "" then .error (.noAnchorValue word.text)
      else .ok (body.takeWhile fun t => t.kind ≠ .anchor, some (spelling value))

def readEach (unit : TimeUnit) (body : List Token) : Except Malformed (List Rule) := do
  let (main, anchor) ← splitAnchor body
  match significant main with
  | extra :: _ => throw (.unexpected extra.text)
  | [] => return [.every ⟨unit, 1, anchor⟩]

def interval (word : Token) : Except Malformed Nat :=
  match Text.word? word.text with
  | some n => .ok n
  | none => .error (.invalidInterval word.text)

/-- Reads a cadence: perhaps an interval, then a unit; or a weekday, which is a week anchored
there. -/
def readEvery (body : List Token) : Except Malformed (List Rule) := do
  let (main, anchor) ← splitAnchor body
  let words := significant main
  let count := words.head?.filter fun t => t.kind = .number
  let rest := if count.isSome then words.tail else words
  let n ← match count with
    | some word => interval word
    | none => pure 1
  match rest with
  | [] =>
    match count with
    | some word => throw (.noUnitAfter word.text)
    | none => throw .intervalExpected
  | _ :: extra :: _ => throw (.unexpected extra.text)
  | [word] =>
    match word.kind with
    | .unit unit => return [.every ⟨unit, n, anchor⟩]
    | .weekday =>
      if count.isSome then throw (.unexpected word.text)
      else if anchor.isSome then throw (.alreadyAnchored word.text)
      else return [.every ⟨.week, 1, some word.text⟩]
    | _ => throw (.unexpected word.text)

def splitCommas : List Token → List (List Token)
  | [] => [[]]
  | t :: ts =>
    match splitCommas ts with
    | [] => [[t]]
    | item :: items => if t.kind = .comma then [] :: item :: items else (t :: item) :: items

/-- A bracketed list: the unit for its numbers, and its items. -/
structure Bracketed where
  default : Option TimeUnit
  items : List (List Token)

def hasBracket (body : List Token) : Bool := body.any fun t => t.kind = .openBracket

/-- Reads a bracketed list. The unit is in front of the bracket or starts the first item. -/
def readBracketed (body : List Token) : Except Malformed Bracketed := do
  let before := body.takeWhile fun t => t.kind ≠ .openBracket
  let opened := (body.dropWhile fun t => t.kind ≠ .openBracket).drop 1
  let after := (opened.reverse.takeWhile fun t => t.kind ≠ .closeBracket).reverse
  let inner := ((opened.reverse.dropWhile fun t => t.kind ≠ .closeBracket).drop 1).reverse
  if !opened.any fun t => t.kind = .closeBracket then
    throw .bracketNotClosed
  let named ← match significant before with
    | [] => pure none
    | [word] =>
      match word.unit? with
      | some unit => pure (some unit)
      | none => throw (.unexpectedBeforeBracket word.text)
    | other :: _ => throw (.unexpectedBeforeBracket other.text)
  match significant after with
  | extra :: _ => throw (.unexpectedAfterBracket extra.text)
  | [] =>
    if inner.any fun t => t.kind = .openBracket then
      throw .nestedBrackets
    let items := splitCommas inner
    if items.any fun item => (significant item).isEmpty then
      throw .emptyItem
    let first := items.head?.bind fun item => (significant item).head?.bind Token.unit?
    return ⟨named.or first, items⟩

def addRecord (m : UnitMap (List String)) (record : Values) : UnitMap (List String) :=
  record.foldl (fun m (u, text) => m.insert u ((m.get? u).getD [] ++ [text])) m

def readItems (default : Option TimeUnit) (shape : Option UnitSet) :
    List (List Token) → Except Malformed (List Values)
  | [] => .ok []
  | item :: items => do
    let record ← Value.read item default
    if shape.any (· ≠ record.units) then
      throw (.itemUnitsDiffer (sourceText item))
    return record :: (← readItems default (some record.units) items)

/-- Reads one value, whose units become a rule each, or a list of alternatives. -/
def readPick (body : List Token) : Except Malformed (List Rule) := do
  if hasBracket body then
    let list ← readBracketed body
    let records ← readItems list.default none list.items
    return [.oneOf ⟨records.foldl addRecord UnitMap.empty⟩]
  else
    return (← Value.read body none).map fun (unit, value) => .equals unit value

/-- Reads a range: two values with the same units around an `and`. -/
def readRange (default : Option TimeUnit) (tokens : List Token) : Except Malformed Range := do
  let start := tokens.takeWhile fun t => t.kind ≠ .conjunction
  match tokens.dropWhile fun t => t.kind ≠ .conjunction with
  | [] => throw (.noConjunction (sourceText tokens))
  | _ :: stop =>
    if stop.any fun t => t.kind = .conjunction then
      throw (.secondConjunction (sourceText tokens))
    let unit := default.or ((significant tokens).findSome? Token.unit?)
    let starts ← Value.read start unit
    let stops ← Value.read stop unit
    if starts.units ≠ stops.units then
      throw (.sideUnitsDiffer (sourceText tokens))
    let bounds := starts.filterMap fun (u, text) =>
      (stops.lookup u).map fun other => (u, (text, other))
    return ⟨UnitMap.ofList bounds⟩

/-- Reads one range or a list of ranges over the same units. -/
def readBetween (body : List Token) : Except Malformed (List Rule) := do
  if hasBracket body then
    let list ← readBracketed body
    let ranges ← list.items.mapM (readRange list.default)
    let shape := (ranges.head?.map Range.units).getD ∅
    match ranges.find? fun r => r.units ≠ shape with
    | some odd => throw (.rangeUnitsDiffer (Canonical.range odd))
    | none => return [.withinAny ranges]
  else
    return [.within (← readRange none body)]

/-- The end of the range that starts at a value: the last of its unit. -/
def openEnd (unit : TimeUnit) : String :=
  match unit with
  | .day => "Last"
  | u => toString u.maxValue

/-- The start of the range that ends at a value: the first of its unit. -/
def openStart (unit : TimeUnit) : String := toString unit.minValue

def readUpto (body : List Token) : Except Malformed (List Rule) := do
  let vs ← Value.read body none
  return [.within ⟨UnitMap.ofList (vs.map fun (u, text) => (u, (openStart u, text)))⟩]

def readOnward (body : List Token) : Except Malformed (List Rule) := do
  let vs ← Value.read body none
  return [.within ⟨UnitMap.ofList (vs.map fun (u, text) => (u, (text, openEnd u)))⟩]

def readZone (body : List Token) : Except Malformed (List Rule) :=
  let id := sourceText body
  if id = "" then .error .zoneRequired else .ok [.zone id]

def ofClause (c : Clause) : Except Malformed (List Rule) :=
  match c.keyword with
  | .every => readEvery c.body
  | .each unit => readEach unit c.body
  | .pick => readPick c.body
  | .between => readBetween c.body
  | .upto => readUpto c.body
  | .onward => readOnward c.body
  | .zone => readZone c.body

end Recurrence.Rule
