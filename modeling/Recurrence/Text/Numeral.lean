/-!
Numerals: texts of ASCII digits, their values, and the two spellings used on output, without
leading zeros and padded to two places.
-/

namespace Recurrence.Text

def digitsValue (cs : List Char) : Nat := cs.foldl (fun n c => 10 * n + (c.toNat - '0'.toNat)) 0

/-- Whether a text has no character but ASCII digits. The empty text counts. -/
def isNumeral (s : String) : Bool := s.toList.all Char.isDigit

def numeralValue (s : String) : Nat := digitsValue s.toList

/-- The largest number that counts: intervals and clock fields are 32-bit words. -/
def wordMax : Nat := 4294967295

/-- The value of a text of digits, at most `wordMax`. The empty text has none. -/
def word? (s : String) : Option Nat :=
  if s.toList ≠ [] ∧ isNumeral s = true ∧ numeralValue s ≤ wordMax then some (numeralValue s)
  else none

/-- A numeral without its leading zeros; one zero is left of a numeral of zeros. -/
def dropZeros (s : String) : String :=
  match s.toList.dropWhile (· = '0') with
  | [] => "0"
  | cs => String.ofList cs

def twoDigits (n : Nat) : String := if n < 10 then "0" ++ toString n else toString n

end Recurrence.Text
