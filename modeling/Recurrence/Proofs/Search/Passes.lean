import Recurrence.Proofs.Search.Visits
import Recurrence.Proofs.Zone.Crossings
import Recurrence.Zone.Offsets

/-!
Passes over wall-clock time. Where the changes of a zone are far apart and no gap is too long, what
the first pass finds stands for an instant after the base, so no search needs a second one.

Main statements: `one_pass` and `series_passes`.
-/

namespace Recurrence

namespace Search

variable {cs : List Condition} {s : Search} {zone : Zone}

lemma passes_foldl_visit (trace : Trace) (ts : List LocalTime) :
    (ts.foldl Trace.visit trace).passes = trace.passes := by
  induction ts generalizing trace with
  | nil => rfl
  | cons t ts ih => exact ih (trace.visit t)

lemma passes_next (s : Search) (base : LocalTime) (limit : Option LocalTime) (ceiling : Nat) :
    (s.next base limit ceiling).2.trace.passes = s.trace.passes := by
  rw [next, trace_walk, passes_foldl_visit]

lemma exists_hit (hz : zone.WellSeparated) (hgap : zone.GapsWithin Zone.gapMinutes)
    (hs : s.Recalls cs) {base : Instant} {limit : Option LocalTime} {ceiling : Nat} {l : LocalTime}
    (h : (s.next (zone.toLocal base) limit ceiling).1 = some l) :
    ∃ t ∈ zone.toUniversal l, base < t := by
  obtain ⟨hwhole, hlt, -⟩ := next_found hs (Prod.ext h rfl)
  refine Zone.exists_toUniversal_after hz hgap ?_
  -- a whole second that is later is later by a second
  have hnanos : l.nanos.val = 0 := hwhole
  rw [Time.lt_def] at hlt
  omega

lemma instantAfter_eq_of_hit (ceiling : Nat) (base : Instant) (bound : Option Instant)
    (h : ∀ l, (s.again.next (zone.toLocal base) (bound.map zone.toLocal) ceiling).1 = some l →
      ∃ t ∈ zone.toUniversal l, base < t) (passes : Nat) :
    instantAfter zone ceiling base bound (passes + 1) s (zone.toLocal base)
      = instantAfter zone ceiling base bound 1 s (zone.toLocal base)
    ∧ (instantAfter zone ceiling base bound 1 s (zone.toLocal base)).2.trace.passes
      = s.trace.passes + 1 := by
  have hpasses := passes_next s.again (zone.toLocal base) (bound.map zone.toLocal) ceiling
  have hagain : s.again.trace.passes = s.trace.passes + 1 := rfl
  rw [instantAfter_succ, instantAfter_succ]
  generalize s.again.next (zone.toLocal base) (bound.map zone.toLocal) ceiling = res at *
  obtain ⟨found, s₁⟩ := res
  cases found with
  | none => exact ⟨rfl, hpasses.trans hagain⟩
  | some l =>
    obtain ⟨t, ht, hlt⟩ := h l rfl
    have hsome : ((zone.toUniversal l).find? fun t => base < t).isSome = true :=
      List.find?_isSome.2 ⟨t, ht, by simpa using hlt⟩
    obtain ⟨hit, hhit⟩ := Option.isSome_iff_exists.1 hsome
    refine ⟨by simp only [hhit], ?_⟩
    simp only [hhit]
    split_ifs
    · exact hpasses.trans hagain
    · exact hpasses.trans hagain

lemma passes_nextInstant (hz : zone.WellSeparated) (hgap : zone.GapsWithin Zone.gapMinutes)
    (hs : s.Recalls cs) (ceiling : Nat) (base : Instant) (bound : Option Instant) :
    (s.nextInstant zone ceiling base bound).2.trace.passes = s.trace.passes + 1 := by
  have hhit := instantAfter_eq_of_hit ceiling base bound fun l => exists_hit hz hgap hs.again
  rw [nextInstant, maxPasses, (hhit 3).1, (hhit 3).2]

lemma passes_instants (hz : zone.WellSeparated) (hgap : zone.GapsWithin Zone.gapMinutes)
    (hs : s.Recalls cs) (ceiling : Nat) (bound : Option Instant) (count : Nat) (base : Instant) :
    let found := instants zone ceiling bound count s base
    found.2.trace.passes = s.trace.passes + min count (found.1.length + 1) := by
  induction count generalizing s base with
  | zero => rfl
  | succ count ih =>
    have hpass := passes_nextInstant hz hgap hs ceiling base bound
    have hafter := hs.instantAfter zone ceiling base bound maxPasses (zone.toLocal base)
    rw [← nextInstant] at hafter
    simp only [instants]
    generalize s.nextInstant zone ceiling base bound = res at *
    obtain ⟨hit, s₁⟩ := res
    have hpass : s₁.trace.passes = s.trace.passes + 1 := hpass
    cases hit with
    | none =>
      simp only [List.length_nil]
      omega
    | some t =>
      have := ih hafter t
      simp only [List.length_cons] at this ⊢
      omega

/-- **One pass is enough.** Where the changes of the zone are further apart than they move the clock
and no gap is longer than a day, whatever a search has looked at before: what it finds from the base
stands for an instant after the base, every search takes one pass, and none fails for want of
another. -/
theorem one_pass (hz : zone.WellSeparated) (hgap : zone.GapsWithin Zone.gapMinutes)
    (hs : s.Recalls cs) (ceiling : Nat) (base : Instant) :
    (∀ limit l, (s.next (zone.toLocal base) limit ceiling).1 = some l →
        ∃ t ∈ zone.toUniversal l, base < t)
      ∧ ∀ bound, (s.nextInstant zone ceiling base bound).2.trace.passes = s.trace.passes + 1
        ∧ ∀ passes, instantAfter zone ceiling base bound (passes + 1) s (zone.toLocal base)
          = s.nextInstant zone ceiling base bound := by
  refine ⟨fun limit l => exists_hit hz hgap hs, fun bound =>
    ⟨passes_nextInstant hz hgap hs ceiling base bound, fun passes => ?_⟩⟩
  have hhit := instantAfter_eq_of_hit ceiling base bound fun l => exists_hit hz hgap hs.again
  exact (hhit passes).1.trans (hhit 3).1.symm

/-- Quarter past one in New York, where it may come twice, or half past two, which may not come. -/
theorem one_pass_new_york :
    let zone := Zone.newYork
    let cs := Plan.conditions
      [.oneOf ⟨UnitMap.ofList [(.hour, ["1", "2"]), (.minute, ["15", "30"])]⟩]
      (zone.toLocal (Time.ofSeconds 1709161207))
    zone.WellSeparated ∧ zone.GapsWithin Zone.gapMinutes ∧ (fresh cs).Recalls cs
      ∧ (∀ limit base l, ((fresh cs).next (zone.toLocal base) limit 1000).1 = some l →
        ∃ t ∈ zone.toUniversal l, base < t)
      ∧ ∀ base bound, ((fresh cs).nextInstant zone 1000 base bound).2.trace.passes = 1 := by
  intro zone cs
  have hz : zone.WellSeparated := by decide +kernel
  have hgap : zone.GapsWithin Zone.gapMinutes :=
    Zone.gapsWithin_of_jumps hz (by decide +kernel) (by decide)
  have hs : (fresh cs).Recalls cs := recalls_fresh cs
  exact ⟨hz, hgap, hs, fun limit base l => (one_pass hz hgap hs 1000 base).1 limit l,
    fun base bound => ((one_pass hz hgap hs 1000 base).2 bound).1⟩

end Search

/-- A series takes a pass for each occurrence, and one more where it ends before the count. -/
theorem series_passes {zone : Zone} (hz : zone.WellSeparated)
    (hgap : zone.GapsWithin Zone.gapMinutes) (rules : List Rule) (ceiling : Nat) (base : Instant)
    (count : Nat) (bound : Option Instant) :
    let found := series rules zone ceiling base count bound
    found.2.trace.passes = min count (found.1.length + 1) := by
  have hpasses := Search.passes_instants hz hgap
    (Search.recalls_fresh (Plan.conditions rules (zone.toLocal base))) ceiling bound count base
  exact hpasses.trans (Nat.zero_add _)

end Recurrence
