import Recurrence.Text.Numeral
import Recurrence.Calendar.Weekday

/-!
Words for special days: the two edges of a unit, the edges of a month's working days, the n-th
weekday of a month and ordinal numbers. A word is read in any letter case; inside the compounds that
carry a number the long s also stands for an s.
-/

namespace Recurrence

/-- An end of a unit's range. -/
inductive Edge
  | first
  | last
  deriving DecidableEq

/-- The n-th day of a weekday in a month, counted from one of the month's edges. -/
structure NthWeekday where
  nth : Int
  edge : Edge
  weekday : Weekday
  deriving DecidableEq

/-- What a special-day word means. -/
inductive SpecialDay
  /-- An edge of any unit, open to an offset. -/
  | edge (edge : Edge)
  /-- The first or last day of the month, open to an offset. -/
  | edgeDay (edge : Edge)
  /-- The first or last working day of the month. -/
  | edgeWeekday (edge : Edge)
  /-- The working day closest to a day number, which follows. -/
  | closestWeekday
  /-- The n-th weekday of the month. -/
  | nthWeekday (day : NthWeekday)
  /-- A day number with an ordinal ending. -/
  | ordinal (day : Nat)
  deriving DecidableEq

namespace SpecialDay

/-- A character without its letter case. The long s is an s. -/
def fold (c : Char) : Char := if c = 'ſ' then 's' else c.toLower

/-- Reads a word in small letters off the front of a text, and gives the rest of the text. -/
def dropFolded? : List Char → List Char → Option (List Char)
  | [], cs => some cs
  | w :: ws, c :: cs => if fold c = w then dropFolded? ws cs else none
  | _ :: _, [] => none

def dropEnding? (cs : List Char) : Option (List Char) :=
  ["st", "nd", "rd", "th"].findSome? fun e => dropFolded? e.toList cs

def ordinalWords : List (String × Int) :=
  [("first", 1), ("second", 2), ("third", 3), ("fourth", 4), ("fifth", 5)]

/-- Reads an ordinal number spelled out. Spelled with a long s, it counts as the fifth. -/
def dropOrdinalWord? (cs : List Char) : Option (Int × List Char) :=
  ordinalWords.findSome? fun (word, n) =>
    (dropFolded? word.toList cs).map fun rest =>
      (if (cs.take word.length).map Char.toLower = word.toList then n else 5, rest)

/-- Reads the number of a weekday in the month: a digit from 1 to 5 with an ending, or a word. -/
def dropNth? (cs : List Char) : Option (Int × List Char) :=
  match cs with
  | '1' :: rest => (dropEnding? rest).map fun r => (1, r)
  | '2' :: rest => (dropEnding? rest).map fun r => (2, r)
  | '3' :: rest => (dropEnding? rest).map fun r => (3, r)
  | '4' :: rest => (dropEnding? rest).map fun r => (4, r)
  | '5' :: rest => (dropEnding? rest).map fun r => (5, r)
  | _ => dropOrdinalWord? cs

/-- Reads a weekday compound: last friday, third friday and second last friday, each in one word. -/
def nthWeekday? (word : String) : Option NthWeekday :=
  let weekday? (cs : List Char) := Weekday.ofName? (String.ofList cs)
  match dropFolded? "last".toList word.toList with
  | some rest => (weekday? rest).map fun w => ⟨1, .last, w⟩
  | none =>
    match dropNth? word.toList with
    | none => none
    | some (n, rest) =>
      match dropFolded? "last".toList rest with
      | some rest => (weekday? rest).map fun w => ⟨n, .last, w⟩
      | none => (weekday? rest).map fun w => ⟨n, .first, w⟩

/-- Reads a day number with an ordinal ending, from 1st to 31st. -/
def ordinalDay? (word : String) : Option Nat :=
  let digits := word.toList.takeWhile Char.isDigit
  let n := Text.digitsValue digits
  if digits.length ≤ 2 ∧ dropEnding? (word.toList.dropWhile Char.isDigit) = some []
      ∧ 1 ≤ n ∧ n ≤ 31 then
    some n
  else none

def words : List (String × SpecialDay) :=
  [("last", edge .last), ("first", edge .first),
   ("lastday", edgeDay .last), ("lastdayofmonth", edgeDay .last),
   ("lastdayofthemonth", edgeDay .last), ("firstday", edgeDay .first),
   ("firstdayofmonth", edgeDay .first), ("firstdayofthemonth", edgeDay .first),
   ("lastweekday", edgeWeekday .last), ("firstweekday", edgeWeekday .first),
   ("closestweekdayto", closestWeekday), ("nearestweekdayto", closestWeekday)]

def ofWord? (word : String) : Option SpecialDay :=
  let small := word.toLower
  match words.lookup small with
  | some s => some s
  | none =>
    match nthWeekday? small with
    | some n => some (nthWeekday n)
    | none => (ordinalDay? small).map ordinal

/-- Whether a word starts with a number and is kept whole: an ordinal or a weekday compound. -/
def isCompound (word : String) : Bool :=
  (ordinalDay? word).isSome || (nthWeekday? word).isSome

def takesOffset : SpecialDay → Bool
  | edge _ | edgeDay _ => true
  | _ => false

end SpecialDay

end Recurrence
