import Recurrence.Rule.Reading
import Recurrence.RuleSet
import Recurrence.Search.Series
import Recurrence.Token.Scan

/-!
Expressions: texts read as rules that stand together, and the questions asked of them. Reading goes
on after a problem, so that every problem of a text is reported at once; whether the rules stand
together is asked only of a text without problems.
-/

namespace Recurrence

/-- Rules and problems of a text, each in order. -/
structure Parsed where
  rules : List WrittenRule
  problems : List Diagnostic

namespace Parsed

def empty : Parsed := ⟨[], []⟩

def append (p q : Parsed) : Parsed := ⟨p.rules ++ q.rules, p.problems ++ q.problems⟩

/-- The problem of tokens that come before any keyword: their faults, or that they are there. -/
def ofLead (lead : List Token) : Parsed :=
  if lead.any fun t => !t.isValid then ⟨[], Token.diagnostics lead⟩
  else if lead.any fun t => !t.isTrivia then
    ⟨[], [.malformed (Token.sourceText lead) .keywordExpected]⟩
  else empty

/-- What a clause holds. With a faulty token in it, it is not read. -/
def ofClause (c : Clause) : Parsed :=
  if c.tokens.any fun t => !t.isValid then ⟨[], Token.diagnostics c.tokens⟩
  else match Rule.ofClause c with
  | .ok rules => ⟨rules.map fun r => ⟨r, c.source⟩, []⟩
  | .error cause => ⟨[], [.malformed c.source cause]⟩

/-- What a list of tokens holds, up to the first end of the text. -/
def ofTokens (tokens : List Token) : Parsed :=
  let (lead, clauses) := Clause.split (tokens.takeWhile fun t => t.kind ≠ .endOfInput)
  clauses.foldl (fun p c => p.append (ofClause c)) (ofLead lead)

def ofText (D : Zone.Database) (text : String) : Parsed := ofTokens (Token.scan D text)

end Parsed

/-- A text whose rules stand together, with the zone that they name. -/
structure Expression where
  text : String
  written : List WrittenRule
  zone? : Option Zone
  ceiling : Nat

namespace Expression

/-- The ceiling on the times that one pass of a search looks at, unless another is given. -/
def standardCeiling : Nat := 1000000

/-- Reads an expression, or reports its problems. -/
def parse (D : Zone.Database) (text : String) (ceiling : Nat) :
    Except (List Diagnostic) Expression :=
  let parsed := Parsed.ofText D text
  let rules := parsed.rules.map WrittenRule.rule
  if parsed.problems ≠ [] then .error parsed.problems
  else match RuleSet.conflict? D rules with
  | some cause => .error [.conflict cause]
  | none => .ok ⟨text, parsed.rules, RuleSet.zone? D rules, ceiling⟩

def rules (e : Expression) : List Rule := e.written.map WrittenRule.rule

def rulesFor (e : Expression) (u : TimeUnit) : List Rule := e.rules.filter fun r => r.unit = u

def every? (e : Expression) : Option Every := (RuleSet.everys e.rules).head?

def zoneName? (e : Expression) : Option String := (RuleSet.zones e.rules).head?

/-- The zone that the expression is read in: its own, or the one that is given. -/
def zoneOr (e : Expression) (other : Zone) : Zone := e.zone?.getD other

/-- Up to `count` occurrences after the base and before the bound. -/
def occurrences (e : Expression) (zone : Zone) (base : Instant) (count : Nat)
    (bound : Option Instant) : List Instant :=
  (series e.rules (e.zoneOr zone) e.ceiling base count bound).1

/-- The first occurrence after the base and before the bound. -/
def next (e : Expression) (zone : Zone) (base : Instant) (bound : Option Instant) :
    Option Instant :=
  (e.occurrences zone base 1 bound).head?

def mustNext (e : Expression) (zone : Zone) (base : Instant) (bound : Option Instant) :
    Except Shortage Instant :=
  match e.next zone base bound with
  | some t => .ok t
  | none => .error .noOccurrence

def mustOccurrences (e : Expression) (zone : Zone) (base : Instant) (count : Nat)
    (bound : Option Instant) : Except Shortage (List Instant) :=
  let found := e.occurrences zone base count bound
  if found.length < count then .error (.exhausted count found.length) else .ok found

/-- The first occurrence, with the trace of the search for it. -/
def traceNext (e : Expression) (base : Instant) (bound : Option Instant) :
    Option Instant × Trace :=
  let (found, search) := series e.rules (e.zoneOr Zone.utc) e.ceiling base 1 bound
  (found.head?, search.trace)

end Expression

end Recurrence
