import Recurrence.Text.CharRange

/-!
Blank characters, those with the Unicode property White_Space, and the trimming of them.
-/

namespace Recurrence.Text

def blankRanges : List (Nat × Nat) :=
  [(0x9, 0xd), (0x20, 0x20), (0x85, 0x85), (0xa0, 0xa0), (0x1680, 0x1680), (0x2000, 0x200a),
   (0x2028, 0x2029), (0x202f, 0x202f), (0x205f, 0x205f), (0x3000, 0x3000)]

/-- Whether a character is blank. Of the printed characters of ASCII none is, which saves looking
them up. -/
def isBlank (c : Char) : Bool := !(0x21 ≤ c.toNat && c.toNat ≤ 0x7e) && inRanges blankRanges c

def trimChars (cs : List Char) : List Char :=
  ((cs.dropWhile isBlank).reverse.dropWhile isBlank).reverse

def trim (s : String) : String := String.ofList (trimChars s.toList)

end Recurrence.Text
