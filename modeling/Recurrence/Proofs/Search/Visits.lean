import Mathlib.Tactic.SplitIfs
import Recurrence.Proofs.Search.Series

/-!
What a search looks at. Searches whose conditions take the same steps look at the same times and
find the same, whatever each of them remembers.

Main statements: `trace_walk`, `Alike.walk`, `Alike.answers` and `Alike.instants`.
-/

namespace Recurrence

namespace Search

variable {s s' : Search}

/-- The times that a walk looks at, in order. -/
def visited (limit : Option LocalTime) : Nat → Search → LocalTime → List LocalTime
  | 0, _, _ => []
  | n + 1, s, t =>
    if isPast limit t then []
    else t :: match (Step.ofMatchers t none s.matchers).1 with
      | .jump next => visited limit n (s.look t) next
      | .found | .exhausted => []

/-- A walk adds to the trace what it looks at. -/
theorem trace_walk (limit : Option LocalTime) (n : Nat) (s : Search) (t : LocalTime) :
    (walk limit n s t).2.trace = (visited limit n s t).foldl Trace.visit s.trace := by
  induction n generalizing s t with
  | zero => rfl
  | succ n ih =>
    rw [walk_succ, visited]
    split_ifs
    · rfl
    · rw [List.foldl_cons]
      cases (Step.ofMatchers t none s.matchers).1 with
      | found => rfl
      | jump next => exact ih _ _
      | exhausted => rfl

/-- One search of a chain. -/
structure Query where
  base : LocalTime
  limit : Option LocalTime
  ceiling : Nat

/-- What the searches of a chain find, one after the other, each with the times that it looks at. -/
def answers : Search → List Query → List (Option LocalTime × List LocalTime)
  | _, [] => []
  | s, q :: qs =>
    let found := s.next q.base q.limit q.ceiling
    (found.1, visited q.limit q.ceiling s ((q.base.startOf .second).addSeconds 1))
      :: found.2.answers qs

def Alike (s s' : Search) : Prop := ∃ cs ds, s.Recalls cs ∧ s'.Recalls ds
  ∧ ∀ t, Step.ofConditions cs t = Step.ofConditions ds t

namespace Alike

lemma fresh {cs ds : List Condition} (h : ∀ t, Step.ofConditions cs t = Step.ofConditions ds t) :
    (fresh cs).Alike (fresh ds) := ⟨cs, ds, recalls_fresh cs, recalls_fresh ds, h⟩

variable (h : s.Alike s')

include h

lemma step (t : LocalTime) :
    (Step.ofMatchers t none s.matchers).1 = (Step.ofMatchers t none s'.matchers).1 := by
  obtain ⟨cs, ds, hs, hs', hstep⟩ := h
  rw [(Step.ofMatchers_eq hs t).1, (Step.ofMatchers_eq hs' t).1, hstep]

lemma look (t : LocalTime) : (s.look t).Alike (s'.look t) := by
  obtain ⟨cs, ds, hs, hs', hstep⟩ := h
  exact ⟨cs, ds, hs.look t, hs'.look t, hstep⟩

lemma again : s.again.Alike s'.again := by
  obtain ⟨cs, ds, hs, hs', hstep⟩ := h
  exact ⟨cs, ds, hs.again, hs'.again, hstep⟩

theorem walk (limit : Option LocalTime) (n : Nat) (t : LocalTime) :
    (walk limit n s t).1 = (walk limit n s' t).1 ∧ visited limit n s t = visited limit n s' t
      ∧ (Search.walk limit n s t).2.Alike (Search.walk limit n s' t).2 := by
  induction n generalizing s s' t with
  | zero => exact ⟨rfl, rfl, h⟩
  | succ n ih =>
    rw [walk_succ, walk_succ, visited, visited, h.step t]
    split_ifs
    · exact ⟨rfl, rfl, h⟩
    · cases (Step.ofMatchers t none s'.matchers).1 with
      | found => exact ⟨rfl, rfl, h.look t⟩
      | jump next =>
        obtain ⟨hfound, hvisited, hafter⟩ := ih (h.look t) next
        exact ⟨hfound, congrArg (t :: ·) hvisited, hafter⟩
      | exhausted => exact ⟨rfl, rfl, h.look t⟩

theorem answers (queries : List Query) : s.answers queries = s'.answers queries := by
  induction queries generalizing s s' with
  | nil => rfl
  | cons q queries ih =>
    obtain ⟨hfound, hvisited, hafter⟩ := h.walk q.limit q.ceiling
      ((q.base.startOf .second).addSeconds 1)
    exact congrArg₂ (· :: ·) (Prod.ext hfound hvisited) (ih hafter)

lemma next (base : LocalTime) (limit : Option LocalTime) (ceiling : Nat) :
    (s.next base limit ceiling).1 = (s'.next base limit ceiling).1
      ∧ (s.next base limit ceiling).2.Alike (s'.next base limit ceiling).2
      ∧ (s.trace = s'.trace →
        (s.next base limit ceiling).2.trace = (s'.next base limit ceiling).2.trace) := by
  obtain ⟨hfound, hvisited, hafter⟩ := h.walk limit ceiling ((base.startOf .second).addSeconds 1)
  refine ⟨hfound, hafter, fun htrace => ?_⟩
  rw [Search.next, Search.next, trace_walk, trace_walk, hvisited, htrace]

theorem instantAfter (zone : Zone) (ceiling : Nat) (base : Instant) (bound : Option Instant)
    (passes : Nat) (start : LocalTime) :
    (instantAfter zone ceiling base bound passes s start).1
        = (instantAfter zone ceiling base bound passes s' start).1
      ∧ (Search.instantAfter zone ceiling base bound passes s start).2.Alike
        (Search.instantAfter zone ceiling base bound passes s' start).2
      ∧ (s.trace = s'.trace →
        (Search.instantAfter zone ceiling base bound passes s start).2.trace
          = (Search.instantAfter zone ceiling base bound passes s' start).2.trace) := by
  induction passes generalizing s s' start with
  | zero => exact ⟨rfl, h, id⟩
  | succ passes ih =>
    obtain ⟨hfound, hafter, htrace⟩ := h.again.next start (bound.map zone.toLocal) ceiling
    have htrace : s.trace = s'.trace → _ := fun heq => htrace (congrArg Trace.pass heq)
    rw [instantAfter_succ, instantAfter_succ]
    generalize s.again.next start (bound.map zone.toLocal) ceiling = res at *
    generalize s'.again.next start (bound.map zone.toLocal) ceiling = res' at *
    obtain ⟨found, s₁⟩ := res
    obtain ⟨found', s₁'⟩ := res'
    obtain rfl : found = found' := hfound
    cases found with
    | none => exact ⟨rfl, hafter, htrace⟩
    | some l =>
      simp only
      split
      · split_ifs
        · exact ⟨rfl, hafter, htrace⟩
        · exact ⟨rfl, hafter, htrace⟩
      · obtain ⟨hhit, hlast, hlastTrace⟩ := ih hafter l
        exact ⟨hhit, hlast, fun heq => hlastTrace (htrace heq)⟩

theorem instants (zone : Zone) (ceiling : Nat) (bound : Option Instant) (count : Nat)
    (base : Instant) : (instants zone ceiling bound count s base).1
        = (instants zone ceiling bound count s' base).1
      ∧ (s.trace = s'.trace → (Search.instants zone ceiling bound count s base).2.trace
        = (Search.instants zone ceiling bound count s' base).2.trace) := by
  induction count generalizing s s' base with
  | zero => exact ⟨rfl, id⟩
  | succ count ih =>
    obtain ⟨hhit, hafter, htrace⟩ :=
      h.instantAfter zone ceiling base bound maxPasses (zone.toLocal base)
    rw [Search.instants, Search.instants, nextInstant, nextInstant]
    generalize Search.instantAfter zone ceiling base bound maxPasses s (zone.toLocal base) = res
      at *
    generalize Search.instantAfter zone ceiling base bound maxPasses s' (zone.toLocal base) = res'
      at *
    obtain ⟨hit, s₁⟩ := res
    obtain ⟨hit', s₁'⟩ := res'
    obtain rfl : hit = hit' := hhit
    cases hit with
    | none => exact ⟨rfl, htrace⟩
    | some t =>
      obtain ⟨hhits, hlast⟩ := ih hafter t
      exact ⟨congrArg (t :: ·) hhits, fun heq => hlast (htrace heq)⟩

end Alike

end Search

end Recurrence
