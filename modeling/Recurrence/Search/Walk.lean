import Recurrence.Search.Matcher

/-!
The walk of a search. It starts one second after the base; every condition that refuses the time
proposes a landing and the walk jumps to the earliest; a time that none refuses is found. The walk
ends without one at the limit, after the last year, at the ceiling on the times it looks at, or when
a condition can never hold again. What is left behind are counts and times; how long a search takes
is left out.
-/

namespace Recurrence

/-- What the conditions make of a time. -/
inductive Step
  | found
  | jump (next : LocalTime)
  | exhausted
  deriving DecidableEq

namespace Step

/-- The step that the jumps of the refusing conditions ask for. -/
def ofAdvances (advances : List Advance) (t : LocalTime) : Step :=
  if advances.contains .never then exhausted
  else match Advance.earliest? (advances.filterMap fun a => a.landing t) with
  | some next => jump next
  | none => found

def ofConditions (cs : List Condition) (t : LocalTime) : Step :=
  ofAdvances ((cs.filter fun c => !c.accepts t).map fun c => c.advance t) t

/-- The step of matchers at a time, given the earliest landing of those before them. A matcher that
can never hold again ends the step, and those after it are not asked. -/
def ofMatchers (t : LocalTime) (earliest : Option LocalTime) :
    List Matcher → Step × List Matcher
  | [] =>
    match earliest with
    | some next => (jump next, [])
    | none => (found, [])
  | m :: ms =>
    match m.accepts t with
    | (true, m) =>
      let (step, ms) := ofMatchers t earliest ms
      (step, m :: ms)
    | (false, m) =>
      let (a, m) := m.advance t
      match a.landing t with
      | none => (exhausted, m :: ms)
      | some landing =>
        let nearer :=
          match earliest with
          | some e => min e landing
          | none => landing
        let (step, ms) := ofMatchers t (some nearer) ms
        (step, m :: ms)

end Step

/-- What a search leaves behind: how many times it looked at, in how many passes, and the first of
them in order. -/
structure Trace where
  iterations : Nat
  passes : Nat
  candidates : Array LocalTime

namespace Trace

def limit : Nat := 256

def start : Trace := ⟨0, 0, #[]⟩

def visit (trace : Trace) (t : LocalTime) : Trace :=
  { trace with
    iterations := trace.iterations + 1
    candidates := if trace.candidates.size < limit then trace.candidates.push t
      else trace.candidates }

def pass (trace : Trace) : Trace := { trace with passes := trace.passes + 1 }

@[simp] theorem iterations_visit (trace : Trace) (t : LocalTime) :
    (trace.visit t).iterations = trace.iterations + 1 := rfl

/-- Looking at a time keeps no more times than the limit. -/
theorem size_visit_le {trace : Trace} (h : trace.candidates.size ≤ limit) (t : LocalTime) :
    (trace.visit t).candidates.size ≤ limit := by
  unfold visit
  split
  · simpa using ‹_›
  · exact h

end Trace

/-- A search under way: its matchers and its trace. -/
structure Search where
  matchers : List Matcher
  trace : Trace

namespace Search

def fresh (cs : List Condition) : Search := ⟨cs.map Matcher.fresh, Trace.start⟩

def isPast (limit : Option LocalTime) (t : LocalTime) : Bool :=
  limit.any (· ≤ t) || TimeUnit.year.maxValue < t.date.year

/-- Walks from a time, looking at no more than `ceiling` times. -/
def walk (limit : Option LocalTime) : Nat → Search → LocalTime → Option LocalTime × Search
  | 0, s, _ => (none, s)
  | ceiling + 1, s, t =>
    if isPast limit t then (none, s)
    else
      let (step, matchers) := Step.ofMatchers t none s.matchers
      let s : Search := ⟨matchers, s.trace.visit t⟩
      match step with
      | .found => (some t, s)
      | .jump next => walk limit ceiling s next
      | .exhausted => (none, s)

/-- The first time after the base and before the limit that every condition accepts. -/
def next (s : Search) (base : LocalTime) (limit : Option LocalTime) (ceiling : Nat) :
    Option LocalTime × Search :=
  walk limit ceiling s ((base.startOf .second).addSeconds 1)

end Search

end Recurrence
