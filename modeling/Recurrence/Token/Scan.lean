import Recurrence.Text.Alphabetic
import Recurrence.Token.Basic

/-!
Splitting a text into tokens, in one pass over its characters. A word ends at a blank or a sign, and
where letters meet digits unless the digits open a compound such as a third friday in one word. The
word after a time zone keyword is taken whole, whatever signs it holds.
-/

namespace Recurrence

/-- The state between two characters: the tokens so far, last first; the word under way, last
character first, and where it started; the place reached; how many brackets are open; and whether
the next word names a zone. -/
structure Scan where
  done : List Token
  word : List Char
  wordLine : Nat
  wordColumn : Nat
  line : Nat
  column : Nat
  depth : Nat
  zoneNext : Bool

namespace Scan

def start : Scan := ⟨[], [], 1, 1, 1, 1, 0, false⟩

variable (D : Zone.Database)

/-- Whether a character always ends a word. -/
def isBreaking (c : Char) : Bool :=
  Text.isBlank c || ['\x00', ',', ':', '-', '+', '[', ']', '.', ';', '!', '?', '(', ')'].contains c

/-- Whether the word under way ends before `c`, when `rest` follows. -/
def splitsBefore (s : Scan) (c : Char) (rest : List Char) : Bool :=
  match s.word with
  | [] => false
  | prev :: _ =>
    if prev.isDigit = c.isDigit then false
    else if !prev.isDigit then true
    else
      let letters := (c :: rest).takeWhile Text.isAlphabetic
      !SpecialDay.isCompound (String.ofList (s.word.reverse ++ letters))

def push (s : Scan) (c : Char) : Scan :=
  match s.word with
  | [] => { s with word := [c], wordLine := s.line, wordColumn := s.column }
  | cs => { s with word := c :: cs }

def wordToken (s : Scan) : Token :=
  let text := String.ofList s.word.reverse
  if s.zoneNext && !Keyword.isRuleWord text then
    Token.ofText .zoneId text s.wordLine s.wordColumn
  else Token.ofWord D text s.wordLine s.wordColumn

def flush (s : Scan) : Scan :=
  match s.word with
  | [] => s
  | _ =>
    let t := s.wordToken D
    { s with done := t :: s.done, word := [], zoneNext := t.opensZone }

def sign (s : Scan) (kind : Token.Kind) (text : String) : Scan :=
  { s with done := Token.ofText kind text s.line s.column :: s.done }

def blank (s : Scan) (c : Char) : Scan :=
  match s.done with
  | t :: ts =>
    if t.kind = .blank then
      { s with done := { t with text := t.text.push c, endColumn := s.column + 1 } :: ts }
    else s.sign .blank (String.singleton c)
  | [] => s.sign .blank (String.singleton c)

def close (s : Scan) : Scan :=
  if s.depth = 0 then
    { s with done :=
      (Token.ofText .closeBracket "]" s.line s.column).withFault .unmatched :: s.done }
  else { s.sign .closeBracket "]" with depth := s.depth - 1 }

def addBreak (s : Scan) (c : Char) : Scan :=
  if c = '\x00' then s.sign .endOfInput ""
  else if Text.isBlank c then s.blank c
  else if c = ',' then s.sign .comma ","
  else if c = ':' then s.sign .colon ":"
  else if c = '-' then s.sign .dash "-"
  else if c = '+' then s.sign .plus "+"
  else if c = '[' then { s.sign .openBracket "[" with depth := s.depth + 1 }
  else if c = ']' then s.close
  else s.sign .punctuation (String.singleton c)

def advance (s : Scan) (c : Char) : Scan :=
  if c = '\n' then { s with line := s.line + 1, column := 1 }
  else { s with column := s.column + 1 }

def step (s : Scan) (c : Char) (rest : List Char) : Scan :=
  let next :=
    if s.zoneNext && !Text.isBlank c && c != '\x00' then s.push c
    else if isBreaking c then (s.flush D).addBreak c
    else if s.splitsBefore c rest then (s.flush D).push c
    else s.push c
  next.advance c

def run (s : Scan) : List Char → Scan
  | [] => s
  | c :: rest => (s.step D c rest).run rest

end Scan

namespace Token

/-- The tokens of a text, with one for its end. A NUL in the text is an end too. -/
def scan (D : Zone.Database) (text : String) : List Token :=
  (Scan.start.run D (text.toList ++ ['\x00'])).done.reverse

end Token

end Recurrence
