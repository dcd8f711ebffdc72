import Recurrence.Text.Blank
import Recurrence.Token.Basic

/-!
Lists of tokens: what is left without trivia, the text they spell, and their division into runs that
blanks separate.
-/

namespace Recurrence

namespace Token

def significant (ts : List Token) : List Token := ts.filter fun t => !t.isTrivia

def trimTrivia (ts : List Token) : List Token :=
  ((ts.dropWhile isTrivia).reverse.dropWhile isTrivia).reverse

/-- The source text of the tokens, without the blanks at its ends. -/
def sourceText (ts : List Token) : String :=
  Text.trim (String.ofList (ts.flatMap fun t => t.text.toList))

def isGlue (t : Token) : Bool :=
  match t.kind with
  | .plus | .dash | .colon => true
  | _ => false

def joinAfter (left : Token) : List Token → String
  | [] => ""
  | t :: ts => (if left.isGlue || t.isGlue then "" else " ") ++ t.text ++ joinAfter t ts

/-- The text of tokens one space apart, but none around signs. -/
def join : List Token → String
  | [] => ""
  | t :: ts => t.text ++ joinAfter t ts

/-- The normal spelling of a value: its tokens without trivia, joined. -/
def spelling (ts : List Token) : String := join (significant ts)

/-- Tokens without a blank between them, and the blanks that follow. -/
structure Run where
  tokens : List Token
  gap : List Token

namespace Run

def all (r : Run) : List Token := r.tokens ++ r.gap

def meaning (r : Run) : List Token := significant r.tokens

end Run

def splitRuns : List Token → List Token × List Run
  | [] => ([], [])
  | t :: ts =>
    let (lead, runs) := splitRuns ts
    if t.kind = .blank then (t :: lead, runs)
    else match lead, runs with
      | [], r :: runs => ([], { r with tokens := t :: r.tokens } :: runs)
      | lead, runs => ([], ⟨[t], lead⟩ :: runs)

def runs (ts : List Token) : List Run := (splitRuns ts).2

/-- Nothing is lost in the division. -/
theorem splitRuns_all (ts : List Token) :
    (splitRuns ts).1 ++ (splitRuns ts).2.flatMap Run.all = ts := by
  induction ts with
  | nil => rfl
  | cons t ts ih =>
    rw [splitRuns]
    rcases hs : splitRuns ts with ⟨lead, runs⟩
    rw [hs] at ih
    simp only
    split
    · simpa using ih
    · cases lead <;> cases runs <;> simp_all [Run.all]

end Token

end Recurrence
