import Recurrence.Proofs.Search.Series

/-!
Searches that are not cut off at their ceiling. Such a search finds the first time that it may find,
and where it finds nothing there is none. A run of searches is not cut off when none of them is.

Main statements: `next_eq_some_iff`, `next_eq_none_iff` and `not_cutOff_of_run`.
-/

namespace Recurrence

open LocalTime

/-- What a search may find: a whole second after the base, before the limit and not after the last
year, that every condition accepts. -/
structure Eligible (cs : List Condition) (base : LocalTime) (limit : Option LocalTime)
    (t : LocalTime) : Prop where
  whole : t.IsWhole
  after : base < t
  before : ∀ l ∈ limit, t < l
  year : t.date.year ≤ 9999
  accepted : Accepted cs t

namespace Search

variable {cs : List Condition} {s : Search} {base t : LocalTime} {limit : Option LocalTime}
  {ceiling : Nat}

/-- The search stops at the ceiling: allowed one more time, it would look at one more. -/
def CutOff (s : Search) (base : LocalTime) (limit : Option LocalTime) (ceiling : Nat) : Prop :=
  (s.next base limit ceiling).2.trace.iterations
    < (s.next base limit (ceiling + 1)).2.trace.iterations

instance : Decidable (s.CutOff base limit ceiling) := inferInstanceAs (Decidable (_ < _))

lemma iterations_walk_le (limit : Option LocalTime) (n : Nat) (s : Search) (t : LocalTime) :
    (walk limit n s t).2.trace.iterations ≤ s.trace.iterations + n := by
  induction n generalizing s t with
  | zero => exact le_refl _
  | succ n ih =>
    rw [walk_succ]
    split_ifs
    · show s.trace.iterations ≤ _
      omega
    · split
      · show s.trace.iterations + 1 ≤ _
        omega
      · have := ih (s.look t) ‹_›
        rw [iterations_look] at this
        omega
      · show s.trace.iterations + 1 ≤ _
        omega

lemma walk_succ_cases (limit : Option LocalTime) (n : Nat) (s : Search) (t : LocalTime) :
    walk limit (n + 1) s t = walk limit n s t
      ∨ (walk limit n s t).1 = none
        ∧ (walk limit n s t).2.trace.iterations
            < (walk limit (n + 1) s t).2.trace.iterations := by
  induction n generalizing s t with
  | zero =>
    rw [walk_succ]
    split_ifs
    · exact Or.inl rfl
    · refine Or.inr ⟨rfl, ?_⟩
      show s.trace.iterations < _
      split <;> exact Nat.lt_succ_self _
  | succ n ih =>
    rw [walk_succ limit (n + 1), walk_succ limit n]
    split_ifs
    · exact Or.inl rfl
    · split
      · exact Or.inl rfl
      · exact ih _ _
      · exact Or.inl rfl

lemma next_succ_eq (hcut : ¬ s.CutOff base limit ceiling) :
    s.next base limit (ceiling + 1) = s.next base limit ceiling :=
  (walk_succ_cases limit ceiling s _).resolve_right fun h => hcut h.2

lemma not_cutOff_of_found {u : LocalTime} {s' : Search}
    (h : s.next base limit ceiling = (some u, s')) : ¬ s.CutOff base limit ceiling := by
  intro hcut
  unfold CutOff at hcut
  rcases walk_succ_cases limit ceiling s ((base.startOf .second).addSeconds 1) with hw | ⟨hw, -⟩
  · rw [next, next, hw] at hcut
    exact lt_irrefl _ hcut
  · rw [next] at h
    rw [h] at hw
    cases hw

lemma exists_next_le (hs : s.Recalls cs) (hc : ∀ c ∈ cs, c.WellFormed) (hb : earliest ≤ base)
    (hcut : ¬ s.CutOff base limit ceiling) (ht : Eligible cs base limit t) :
    ∃ u ≤ t, (s.next base limit ceiling).1 = some u := by
  have hskip := next_skips hs hc hb ht.whole ht.after ht.accepted ht.year ht.before (ceiling + 1)
  rw [next_succ_eq hcut] at hskip
  refine hskip.resolve_right fun h => ?_
  have := iterations_walk_le limit ceiling s ((base.startOf .second).addSeconds 1)
  have := h.2
  rw [next] at this
  omega

lemma eligible_of_next (hs : s.Recalls cs) (h : (s.next base limit ceiling).1 = some t) :
    Eligible cs base limit t := by
  have hfound : s.next base limit ceiling = (some t, (s.next base limit ceiling).2) :=
    Prod.ext h rfl
  obtain ⟨hw, hbt, hl, hy, hacc⟩ := next_found hs hfound
  exact ⟨hw, hbt, hl, hy, hacc⟩

/-- **A search that is not cut off finds the first time that it may find.** -/
theorem next_eq_some_iff (hs : s.Recalls cs) (hc : ∀ c ∈ cs, c.WellFormed) (hb : earliest ≤ base)
    (hcut : ¬ s.CutOff base limit ceiling) : (s.next base limit ceiling).1 = some t
      ↔ Eligible cs base limit t ∧ ∀ u, Eligible cs base limit u → t ≤ u := by
  constructor
  · intro h
    refine ⟨eligible_of_next hs h, fun u hu => ?_⟩
    obtain ⟨v, hvu, hv⟩ := exists_next_le hs hc hb hcut hu
    rw [h, Option.some.injEq] at hv
    exact hv ▸ hvu
  · rintro ⟨ht, hleast⟩
    obtain ⟨u, hut, hu⟩ := exists_next_le hs hc hb hcut ht
    rw [hu, le_antisymm hut (hleast u (eligible_of_next hs hu))]

/-- **A search that is not cut off finds nothing exactly when there is nothing to find.** -/
theorem next_eq_none_iff (hs : s.Recalls cs) (hc : ∀ c ∈ cs, c.WellFormed) (hb : earliest ≤ base)
    (hcut : ¬ s.CutOff base limit ceiling) : (s.next base limit ceiling).1 = none
      ↔ ∀ u, ¬ Eligible cs base limit u := by
  constructor
  · intro h u hu
    obtain ⟨v, -, hv⟩ := exists_next_le hs hc hb hcut hu
    rw [h] at hv
    cases hv
  · intro h
    by_contra hne
    obtain ⟨t, ht⟩ := Option.ne_none_iff_exists'.mp hne
    exact h t (eligible_of_next hs ht)

/-! ### Runs of searches -/

section Runs

variable {zone : Zone} {bound : Option Instant} {start : LocalTime} {passes count : Nat}
  {base hit : Instant} {s₁ : Search}

/-- Some search of a run stops at the ceiling: allowed one more time each, the searches would look
at more. -/
def RunCutOff (zone : Zone) (ceiling : Nat) (bound : Option Instant) (count : Nat) (s : Search)
    (base : Instant) : Prop :=
  (instants zone ceiling bound count s base).2.trace.iterations
    < (instants zone (ceiling + 1) bound count s base).2.trace.iterations

instance : Decidable (RunCutOff zone ceiling bound count s base) :=
  inferInstanceAs (Decidable (_ < _))

lemma le_iterations_walk (limit : Option LocalTime) (n : Nat) (s : Search) (t : LocalTime) :
    s.trace.iterations ≤ (walk limit n s t).2.trace.iterations := by
  induction n generalizing s t with
  | zero => exact le_refl _
  | succ n ih =>
    rw [walk_succ]
    split_ifs
    · exact le_refl _
    · split
      · exact Nat.le_succ _
      · exact le_trans (Nat.le_succ _) (ih (s.look t) _)
      · exact Nat.le_succ _

lemma le_iterations_instantAfter (zone : Zone) (ceiling : Nat) (base : Instant)
    (bound : Option Instant) (passes : Nat) (s : Search) (start : LocalTime) :
    s.trace.iterations
      ≤ (instantAfter zone ceiling base bound passes s start).2.trace.iterations := by
  induction passes generalizing s start with
  | zero => exact le_refl _
  | succ passes ih =>
    rw [instantAfter_succ]
    have hwalk : s.trace.iterations
        ≤ (s.again.next start (bound.map zone.toLocal) ceiling).2.trace.iterations :=
      le_iterations_walk _ _ s.again _
    generalize s.again.next start (bound.map zone.toLocal) ceiling = res at hwalk
    obtain ⟨_ | found, s₁⟩ := res
    · exact hwalk
    · simp only
      split
      · split_ifs <;> exact hwalk
      · exact le_trans hwalk (ih s₁ found)

lemma le_iterations_instants (zone : Zone) (ceiling : Nat) (bound : Option Instant) (count : Nat)
    (s : Search) (base : Instant) :
    s.trace.iterations ≤ (instants zone ceiling bound count s base).2.trace.iterations := by
  induction count generalizing s base with
  | zero => exact le_refl _
  | succ count ih =>
    rw [instants]
    have hnext : s.trace.iterations
        ≤ (s.nextInstant zone ceiling base bound).2.trace.iterations :=
      le_iterations_instantAfter _ _ _ _ _ _ _
    generalize s.nextInstant zone ceiling base bound = res at hnext
    obtain ⟨_ | hit, s₁⟩ := res
    · exact hnext
    · exact le_trans hnext (ih s₁ hit)

/-- A pass that is cut off ends the search, which would look at more times under a higher
ceiling. -/
lemma instantAfter_of_cutOff
    (hcut : s.again.CutOff start (bound.map zone.toLocal) ceiling) :
    (instantAfter zone ceiling base bound (passes + 1) s start).1 = none
      ∧ (instantAfter zone ceiling base bound (passes + 1) s start).2.trace.iterations
        < (instantAfter zone (ceiling + 1) base bound (passes + 1) s start).2.trace.iterations := by
  have hnone : (s.again.next start (bound.map zone.toLocal) ceiling).1 = none := by
    by_contra hne
    obtain ⟨u, hu⟩ := Option.ne_none_iff_exists'.mp hne
    exact not_cutOff_of_found (Prod.ext hu rfl) hcut
  have hended : instantAfter zone ceiling base bound (passes + 1) s start
      = (none, (s.again.next start (bound.map zone.toLocal) ceiling).2) := by
    rw [instantAfter_succ]
    generalize s.again.next start (bound.map zone.toLocal) ceiling = res at hnone
    obtain ⟨found, s₁⟩ := res
    cases hnone
    rfl
  rw [hended]
  refine ⟨rfl, lt_of_lt_of_le hcut ?_⟩
  rw [instantAfter_succ]
  generalize s.again.next start (bound.map zone.toLocal) (ceiling + 1) = res
  obtain ⟨_ | found, s₁⟩ := res
  · exact le_refl _
  · simp only
    split
    · split_ifs <;> exact le_refl _
    · exact le_iterations_instantAfter _ _ _ _ _ _ _

lemma instantAfter_ceiling_cases (zone : Zone) (ceiling : Nat) (base : Instant)
    (bound : Option Instant) (passes : Nat) (s : Search) (start : LocalTime) :
    instantAfter zone (ceiling + 1) base bound passes s start
        = instantAfter zone ceiling base bound passes s start
      ∨ (instantAfter zone ceiling base bound passes s start).1 = none
        ∧ (instantAfter zone ceiling base bound passes s start).2.trace.iterations
          < (instantAfter zone (ceiling + 1) base bound passes s start).2.trace.iterations := by
  induction passes generalizing s start with
  | zero => exact Or.inl rfl
  | succ passes ih =>
    by_cases hcut : s.again.CutOff start (bound.map zone.toLocal) ceiling
    · exact Or.inr (instantAfter_of_cutOff hcut)
    · rw [instantAfter_succ, instantAfter_succ, next_succ_eq hcut]
      generalize s.again.next start (bound.map zone.toLocal) ceiling = res
      obtain ⟨_ | found, s₁⟩ := res
      · exact Or.inl rfl
      · simp only
        split
        · exact Or.inl rfl
        · exact ih s₁ found

/-- **In a run that is not cut off no search is:** neither the first one nor the run after it. -/
theorem not_cutOff_of_run (hrun : ¬ RunCutOff zone ceiling bound (count + 1) s base) :
    ¬ s.again.CutOff (zone.toLocal base) (bound.map zone.toLocal) ceiling
      ∧ ∀ hit s₁, s.nextInstant zone ceiling base bound = (some hit, s₁) →
        ¬ RunCutOff zone ceiling bound count s₁ hit := by
  -- if the first search looked at more times under a higher ceiling, so would the run
  have hsame :
      s.nextInstant zone (ceiling + 1) base bound = s.nextInstant zone ceiling base bound := by
    refine (instantAfter_ceiling_cases zone ceiling base bound maxPasses s _).resolve_right ?_
    rintro ⟨hnone, hlt⟩
    -- without a find the run is that one search
    have hone : (instants zone ceiling bound (count + 1) s base).2.trace.iterations
        = (s.nextInstant zone ceiling base bound).2.trace.iterations := by
      rw [instants]
      have hnone : (s.nextInstant zone ceiling base bound).1 = none := hnone
      generalize s.nextInstant zone ceiling base bound = res at hnone
      obtain ⟨found, s₁⟩ := res
      cases hnone
      rfl
    have hmore : (s.nextInstant zone (ceiling + 1) base bound).2.trace.iterations
        ≤ (instants zone (ceiling + 1) bound (count + 1) s base).2.trace.iterations := by
      rw [instants]
      generalize s.nextInstant zone (ceiling + 1) base bound = res
      obtain ⟨_ | hit, s₁⟩ := res
      · exact le_refl _
      · exact le_iterations_instants _ _ _ _ _ _
    refine hrun ?_
    calc (instants zone ceiling bound (count + 1) s base).2.trace.iterations
        = (s.nextInstant zone ceiling base bound).2.trace.iterations := hone
      _ < (s.nextInstant zone (ceiling + 1) base bound).2.trace.iterations := hlt
      _ ≤ (instants zone (ceiling + 1) bound (count + 1) s base).2.trace.iterations := hmore
  constructor
  · intro hcut
    have hlt : (s.nextInstant zone ceiling base bound).2.trace.iterations
        < (s.nextInstant zone (ceiling + 1) base bound).2.trace.iterations :=
      (instantAfter_of_cutOff hcut).2
    rw [hsame] at hlt
    exact lt_irrefl _ hlt
  · intro hit s₁ hnext hcut
    apply hrun
    unfold RunCutOff at hcut ⊢
    rw [instants, instants, hsame, hnext]
    exact hcut

end Runs

end Search

def SeriesCutOff (rules : List Rule) (zone : Zone) (ceiling : Nat) (base : Instant) (count : Nat)
    (bound : Option Instant) : Prop :=
  Search.RunCutOff zone ceiling bound count
    (Search.fresh (Plan.conditions rules (zone.toLocal base))) base

instance (rules : List Rule) (zone : Zone) (ceiling : Nat) (base : Instant) (count : Nat)
    (bound : Option Instant) : Decidable (SeriesCutOff rules zone ceiling base count bound) :=
  inferInstanceAs (Decidable (Search.RunCutOff _ _ _ _ _ _))

end Recurrence
