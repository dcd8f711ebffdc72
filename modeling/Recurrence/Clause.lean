import Recurrence.Diagnostic
import Recurrence.Token.Run

/-!
Clauses: a keyword and the tokens after it, up to the next keyword.
-/

namespace Recurrence

/-- A keyword, its token and the tokens that follow. -/
structure Clause where
  keyword : Keyword
  head : Token
  body : List Token

namespace Clause

def tokens (c : Clause) : List Token := c.head :: c.body

def source (c : Clause) : String := Token.sourceText c.tokens

/-- Divides tokens into those before the first keyword and the clauses. -/
def split : List Token → List Token × List Clause
  | [] => ([], [])
  | t :: ts =>
    let (lead, clauses) := split ts
    match t.kind with
    | .keyword k => ([], ⟨k, t, lead⟩ :: clauses)
    | _ => (t :: lead, clauses)

/-- Nothing is lost in the division. -/
theorem split_tokens (ts : List Token) :
    (split ts).1 ++ (split ts).2.flatMap tokens = ts := by
  induction ts with
  | nil => rfl
  | cons t ts ih =>
    rw [split]
    rcases hs : split ts with ⟨lead, clauses⟩
    rw [hs] at ih
    cases hk : t.kind <;> simpa [hk, tokens] using ih

end Clause

def Token.diagnostics (ts : List Token) : List Diagnostic :=
  ts.filterMap fun t => t.fault.map fun f => .lexical t.text t.line t.column f

end Recurrence
