import Recurrence.Search.Plan
import Recurrence.Search.Walk
import Recurrence.Zone.Basic

/-!
Series of occurrences. A search runs on wall-clock time and crosses to universal time at its two
ends. One plan serves a whole series, so its cadence stays tied to the base.
-/

namespace Recurrence

namespace Search

/-- The most passes over wall-clock time in one search. Another pass is only needed when the time
found stands for no instant after the base. -/
def maxPasses : Nat := 4

/-- Searches in at most `passes` passes, each from the local time that the one before ended at. -/
def instantAfter (zone : Zone) (ceiling : Nat) (base : Instant) (bound : Option Instant) :
    Nat → Search → LocalTime → Option Instant × Search
  | 0, s, _ => (none, s)
  | passes + 1, s, start =>
    match { s with trace := s.trace.pass }.next start (bound.map zone.toLocal) ceiling with
    | (none, s) => (none, s)
    | (some found, s) =>
      match (zone.toUniversal found).find? fun t => base < t with
      | some hit => if bound.any (· ≤ hit) then (none, s) else (some hit, s)
      | none => instantAfter zone ceiling base bound passes s found

/-- The first occurrence after the base and before the bound. -/
def nextInstant (s : Search) (zone : Zone) (ceiling : Nat) (base : Instant)
    (bound : Option Instant) : Option Instant × Search :=
  instantAfter zone ceiling base bound maxPasses s (zone.toLocal base)

/-- Up to `count` occurrences in a row. -/
def instants (zone : Zone) (ceiling : Nat) (bound : Option Instant) :
    Nat → Search → Instant → List Instant × Search
  | 0, s, _ => ([], s)
  | count + 1, s, base =>
    match s.nextInstant zone ceiling base bound with
    | (none, s) => ([], s)
    | (some hit, s) =>
      let (hits, s) := instants zone ceiling bound count s hit
      (hit :: hits, s)

end Search

/-- Up to `count` occurrences of rules after the base and before the bound, in a zone, with what the
search leaves behind. -/
def series (rules : List Rule) (zone : Zone) (ceiling : Nat) (base : Instant) (count : Nat)
    (bound : Option Instant) : List Instant × Search :=
  let search := Search.fresh (Plan.conditions rules (zone.toLocal base))
  Search.instants zone ceiling bound count search base

end Recurrence
