import Recurrence.Calendar.MonthName
import Recurrence.Keyword
import Recurrence.SpecialDay
import Recurrence.Text.Blank
import Recurrence.Zone.Database

/-!
Tokens: the words and signs of an expression, each with its place in the text. A token that no rule
can use is kept with its fault, so that nothing of the text is lost.
-/

namespace Recurrence

/-- Before and after noon. -/
inductive Meridiem
  | am
  | pm
  deriving DecidableEq

namespace Token

/-- What a token is. -/
inductive Kind
  | number
  | keyword (keyword : Keyword)
  | anchor
  | unit (unit : TimeUnit)
  | month
  | weekday
  | special (day : SpecialDay)
  | zoneId
  | meridiem (half : Meridiem)
  | conjunction
  | colon
  | comma
  | dash
  | plus
  | openBracket
  | closeBracket
  | blank
  | punctuation
  | endOfInput
  | unknown
  deriving DecidableEq

/-- Why no rule can use a token. -/
inductive Fault
  | unknownKeyword
  | unrecognized
  | unmatched
  deriving DecidableEq

def Fault.message : Fault → String
  | unknownKeyword => "Unknown rule keyword"
  | unrecognized => "Unrecognized token"
  | unmatched => "Unmatched"

end Token

/-- A piece of the text, with its first line and column and the column past its last character, all
counted from 1. -/
structure Token where
  kind : Token.Kind
  text : String
  line : Nat
  column : Nat
  endColumn : Nat
  fault : Option Token.Fault
  deriving DecidableEq

namespace Token

def ofText (kind : Kind) (text : String) (line column : Nat) : Token :=
  ⟨kind, text, line, column, column + text.length, none⟩

/-- Whether the next word is the name of a zone. -/
def opensZone (t : Token) : Bool :=
  match t.kind with
  | .keyword _ => Keyword.isZoneWord t.text
  | _ => false

def withFault (t : Token) (fault : Fault) : Token := { t with fault := some fault }

def isValid (t : Token) : Bool := t.fault.isNone

/-- Whether the token is a blank, punctuation that is ignored, or the end of the text. -/
def isTrivia (t : Token) : Bool :=
  match t.kind with
  | .blank | .punctuation | .endOfInput => true
  | _ => false

def unit? (t : Token) : Option TimeUnit :=
  match t.kind with
  | .unit u => some u
  | _ => none

def anchorWords : List String :=
  ["anchoredon", "anchoredat", "anchoredin", "basedon", "basedat", "basedin"]

/-- What a word is. A word that starts with an at sign can only be a keyword. -/
def classify (D : Zone.Database) (word : String) : Except Fault Kind :=
  let small := word.toLower
  if Text.isNumeral word then .ok .number
  else if h : Keyword.isRuleWord word = true then .ok (.keyword (Keyword.opened word h))
  else if word.toList.head? = some '@' then .error .unknownKeyword
  else if anchorWords.contains small then .ok .anchor
  else match TimeUnit.ofWord? word with
  | some u => .ok (.unit u)
  | none =>
    if (MonthName.number? word).isSome then .ok .month
    else if (Weekday.ofName? word).isSome then .ok .weekday
    else if word.toList.contains '/' && D.isKnown word then .ok .zoneId
    else match SpecialDay.ofWord? word with
    | some s => .ok (.special s)
    | none =>
      if small = "am" then .ok (.meridiem .am)
      else if small = "pm" then .ok (.meridiem .pm)
      else if small = "and" then .ok .conjunction
      else .error .unrecognized

def ofWord (D : Zone.Database) (word : String) (line column : Nat) : Token :=
  match classify D word with
  | .ok kind => ofText kind word line column
  | .error fault => (ofText .unknown word line column).withFault fault

end Token

end Recurrence
