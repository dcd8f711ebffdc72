import Recurrence.Proofs.Search.Conditions
import Recurrence.Proofs.Search.Memory

/-!
The walk of a search. A step lands on a whole second, and it passes over none that all conditions
accept; so the walk ends at the first one.

Main statements: `walk_found`, `walk_skips` and `next_exact`.
-/

namespace Recurrence

open LocalTime

variable {cs : List Condition} {t : LocalTime}

/-- Every condition accepts the time. -/
def Accepted (cs : List Condition) (t : LocalTime) : Prop := ∀ c ∈ cs, c.accepts t = true

instance (cs : List Condition) (t : LocalTime) : Decidable (Accepted cs t) :=
  inferInstanceAs (Decidable (∀ c ∈ cs, c.accepts t = true))

/-! ### Steps -/

namespace Step

lemma ofConditions_cases (cs : List Condition) (t : LocalTime) :
    match ofConditions cs t with
    | found => Accepted cs t
    | jump next => ∃ c ∈ cs, c.accepts t = false ∧ (c.advance t).landing t = some next
    | exhausted => ∃ c ∈ cs, c.accepts t = false ∧ (c.advance t).landing t = none := by
  -- each jump is asked for by a condition that refuses the time
  have hmem : ∀ a, a ∈ (cs.filter fun c => !c.accepts t).map (fun c => c.advance t) →
      ∃ c ∈ cs, c.accepts t = false ∧ c.advance t = a := by
    intro a ha
    obtain ⟨c, hc, rfl⟩ := List.mem_map.mp ha
    obtain ⟨hc, hr⟩ := List.mem_filter.mp hc
    exact ⟨c, hc, by simpa using hr, rfl⟩
  unfold ofConditions ofAdvances
  by_cases hn : ((cs.filter fun c => !c.accepts t).map fun c => c.advance t).contains .never = true
  · rw [if_pos hn]
    obtain ⟨c, hc, hr, ha⟩ := hmem _ (List.contains_iff_mem.mp hn)
    exact ⟨c, hc, hr, landing_eq_none.mpr ha⟩
  · rw [if_neg hn]
    unfold Advance.earliest?
    -- with no jump at all, no condition refuses it
    cases hm : (((cs.filter fun c => !c.accepts t).map fun c => c.advance t).filterMap
      fun a => a.landing t).min? with
    | some next =>
      obtain ⟨a, ha, hl⟩ := List.mem_filterMap.mp (List.min?_mem hm)
      obtain ⟨c, hc, hr, rfl⟩ := hmem a ha
      exact ⟨c, hc, hr, hl⟩
    | none =>
      rw [List.min?_eq_none_iff, List.filterMap_eq_nil_iff] at hm
      intro c hc
      by_contra hr
      have ha : c.advance t ∈ (cs.filter fun c => !c.accepts t).map fun c => c.advance t :=
        List.mem_map.mpr ⟨c, List.mem_filter.mpr ⟨hc, by simpa using hr⟩, rfl⟩
      rw [landing_eq_none.mp (hm _ ha)] at ha
      exact hn (List.contains_iff_mem.mpr ha)

end Step

/-- The conditions of a search, and nothing false remembered. -/
def Search.Recalls (s : Search) (cs : List Condition) : Prop :=
  List.Forall₂ Matcher.Recalls s.matchers cs

namespace Search

lemma recalls_fresh (cs : List Condition) : (fresh cs).Recalls cs := by
  unfold Recalls fresh
  induction cs with
  | nil => exact .nil
  | cons c cs ih => exact .cons (Matcher.recalls_fresh c) ih

variable {limit : Option LocalTime} {n : Nat} {s s' : Search} {u : LocalTime}

lemma isPast_eq_false : isPast limit t = false ↔ (∀ l ∈ limit, t < l) ∧ t.date.year ≤ 9999 := by
  unfold isPast
  have hy : decide (TimeUnit.year.maxValue < t.date.year) = false ↔ t.date.year ≤ 9999 := by
    rw [decide_eq_false_iff_not, not_lt]; rfl
  cases limit <;> simp [hy]

lemma isPast_mono (h : t ≤ u) (ht : isPast limit t = true) : isPast limit u = true := by
  by_contra hu
  rw [Bool.not_eq_true, isPast_eq_false] at hu
  have hy := index_mono .year h
  rw [isPast_eq_false.mpr ⟨fun l hl => lt_of_le_of_lt h (hu.1 l hl), le_trans hy hu.2⟩] at ht
  cases ht

def look (s : Search) (t : LocalTime) : Search :=
  ⟨(Step.ofMatchers t none s.matchers).2, s.trace.visit t⟩

@[simp] lemma iterations_look (s : Search) (t : LocalTime) :
    (s.look t).trace.iterations = s.trace.iterations + 1 := rfl

lemma walk_succ (limit : Option LocalTime) (n : Nat) (s : Search) (t : LocalTime) :
    walk limit (n + 1) s t = if isPast limit t then (none, s)
      else match (Step.ofMatchers t none s.matchers).1 with
        | .found => (some t, s.look t)
        | .jump next => walk limit n (s.look t) next
        | .exhausted => (none, s.look t) := rfl

lemma Recalls.look (hs : s.Recalls cs) (t : LocalTime) : (s.look t).Recalls cs :=
  (Step.ofMatchers_eq hs t).2

/-- A walk of a search that recalls its conditions takes the steps of the conditions. -/
lemma Recalls.walk_succ (hs : s.Recalls cs) (limit : Option LocalTime) (n : Nat) (t : LocalTime) :
    walk limit (n + 1) s t = if isPast limit t then (none, s)
      else match Step.ofConditions cs t with
        | .found => (some t, s.look t)
        | .jump next => walk limit n (s.look t) next
        | .exhausted => (none, s.look t) := by
  rw [← (Step.ofMatchers_eq hs t).1]
  rfl

/-! ### Walks -/

lemma Recalls.walk (hs : s.Recalls cs) (limit : Option LocalTime) (n : Nat) (t : LocalTime) :
    (walk limit n s t).2.Recalls cs := by
  induction n generalizing s t with
  | zero => exact hs
  | succ n ih =>
    rw [hs.walk_succ]
    split_ifs
    · exact hs
    · split
      · exact hs.look t
      · exact ih (hs.look t) _
      · exact hs.look t

/-- **What a walk finds is a whole second** from its start on, before the limit and not after the
last year, that every condition accepts. -/
theorem walk_found (hs : s.Recalls cs) (ht : Advance.Standing t)
    (h : walk limit n s t = (some u, s')) :
    u.IsWhole ∧ t ≤ u ∧ (∀ l ∈ limit, u < l) ∧ u.date.year ≤ 9999 ∧ Accepted cs u := by
  induction n generalizing s t with
  | zero => cases h
  | succ n ih =>
    rw [hs.walk_succ] at h
    by_cases hp : isPast limit t = true
    · rw [if_pos hp] at h; cases h
    rw [if_neg hp] at h
    obtain ⟨hl, hy⟩ := isPast_eq_false.mp (Bool.eq_false_iff.mpr hp)
    have htw : t.IsWhole := ht.resolve_right (by omega)
    have hstep := Step.ofConditions_cases cs t
    split at h
    · rename_i hf
      rw [hf] at hstep
      cases h
      exact ⟨htw, le_refl _, hl, hy, hstep⟩
    · rename_i next hj
      rw [hj] at hstep
      obtain ⟨c, -, -, hland⟩ := hstep
      obtain ⟨hstand, hle⟩ := c.lands_advance htw hy next hland
      obtain ⟨h₁, h₂, h₃⟩ := ih (hs.look t) hstand h
      exact ⟨h₁, le_trans hle h₂, h₃⟩
    · cases h

lemma not_accepted_of_step (hc : ∀ c ∈ cs, c.WellFormed) (ht : t.InReach) (htw : t.IsWhole)
    {next : Option LocalTime}
    (hstep : ∃ c ∈ cs, c.accepts t = false ∧ (c.advance t).landing t = next) {v : LocalTime}
    (hv : v.IsWhole) (htv : t ≤ v) (hy : v.date.year ≤ 9999) (hn : ∀ l ∈ next, v < l) :
    ¬ Accepted cs v := by
  obtain ⟨c, hcs, hr, rfl⟩ := hstep
  intro hacc
  rcases eq_or_lt_of_le htv with rfl | hlt
  · rw [hacc c hcs] at hr; cases hr
  · exact Condition.safe_advance (hc c hcs) ht htw hr v hv hlt hy hn (hacc c hcs)

/-- **A walk skips nothing.** No whole second before the one found is accepted by all conditions;
and where a walk ends without one and not at the ceiling, none is. -/
theorem walk_skips (hs : s.Recalls cs) (hc : ∀ c ∈ cs, c.WellFormed) (ht : Advance.Standing t)
    (he : earliest ≤ t) {v : LocalTime} (hv : v.IsWhole) (htv : t ≤ v)
    (hacc : Accepted cs v) (hy : v.date.year ≤ 9999) (hl : ∀ l ∈ limit, v < l) :
    (∃ u ≤ v, (walk limit n s t).1 = some u)
      ∨ (walk limit n s t).1 = none
        ∧ s.trace.iterations + n ≤ (walk limit n s t).2.trace.iterations := by
  induction n generalizing s t with
  | zero => exact Or.inr ⟨rfl, le_refl _⟩
  | succ n ih =>
    rw [hs.walk_succ]
    by_cases hp : isPast limit t = true
    · -- a time past the limit or the last year has none after it
      have hpv := isPast_mono htv hp
      rw [isPast_eq_false.mpr ⟨hl, hy⟩] at hpv
      cases hpv
    rw [if_neg hp]
    obtain ⟨-, hyt⟩ := isPast_eq_false.mp (Bool.eq_false_iff.mpr hp)
    have htw : t.IsWhole := ht.resolve_right (by omega)
    have hstep := Step.ofConditions_cases cs t
    split
    · exact Or.inl ⟨t, htv, rfl⟩
    · rename_i next hj
      rw [hj] at hstep
      have hnext : next ≤ v := by
        by_contra hlt
        refine not_accepted_of_step hc ⟨he, hyt⟩ htw hstep hv htv hy ?_ hacc
        rintro l ⟨rfl⟩
        exact not_le.mp hlt
      obtain ⟨c, -, -, hland⟩ := hstep
      obtain ⟨hstand, hle⟩ := c.lands_advance htw hyt next hland
      have := ih (hs.look t) hstand (le_trans he hle) hnext
      rw [iterations_look] at this
      rcases this with h | ⟨h₁, h₂⟩
      · exact Or.inl h
      · exact Or.inr ⟨h₁, by omega⟩
    · rename_i hx
      rw [hx] at hstep
      exact absurd hacc (not_accepted_of_step hc ⟨he, hyt⟩ htw hstep hv htv hy (by simp))

/-! ### Searches -/

lemma next_eq (s : Search) (base : LocalTime) (limit : Option LocalTime) (ceiling : Nat) :
    s.next base limit ceiling = walk limit ceiling s (Time.ofSeconds (base.seconds + 1)) := by
  rw [next, startOf_eq]
  rfl

lemma Recalls.next (hs : s.Recalls cs) (base : LocalTime) (limit : Option LocalTime)
    (ceiling : Nat) : (s.next base limit ceiling).2.Recalls cs := by
  rw [next_eq]
  exact hs.walk _ _ _

/-- What a search finds is a whole second after its base that every condition accepts. -/
theorem next_found {base : LocalTime} {ceiling : Nat} (hs : s.Recalls cs)
    (h : s.next base limit ceiling = (some u, s')) :
    u.IsWhole ∧ base < u ∧ (∀ l ∈ limit, u < l) ∧ u.date.year ≤ 9999 ∧ Accepted cs u := by
  rw [next_eq] at h
  obtain ⟨hw, hle, hrest⟩ := walk_found hs (Or.inl (Time.isWhole_ofSeconds _)) h
  exact ⟨hw, (Time.lt_iff_le_of_isWhole hw).mpr hle, hrest⟩

lemma next_skips {base : LocalTime} (hs : s.Recalls cs)
    (hc : ∀ c ∈ cs, c.WellFormed) (hb : earliest ≤ base) {v : LocalTime} (hv : v.IsWhole)
    (hbv : base < v) (hacc : Accepted cs v) (hy : v.date.year ≤ 9999) (hl : ∀ l ∈ limit, v < l)
    (ceiling : Nat) :
    (∃ u ≤ v, (s.next base limit ceiling).1 = some u)
      ∨ (s.next base limit ceiling).1 = none
        ∧ s.trace.iterations + ceiling ≤ (s.next base limit ceiling).2.trace.iterations := by
  have hstart : base < Time.ofSeconds (base.seconds + 1) :=
    (Time.lt_iff_le_of_isWhole (Time.isWhole_ofSeconds _)).mpr (le_refl _)
  rw [next_eq]
  exact walk_skips hs hc (Or.inl (Time.isWhole_ofSeconds _)) (le_trans hb (le_of_lt hstart)) hv
    ((Time.lt_iff_le_of_isWhole hv).mp hbv) hacc hy hl

lemma next_le {base : LocalTime} {ceiling : Nat} (hs : s.Recalls cs)
    (hc : ∀ c ∈ cs, c.WellFormed) (hb : earliest ≤ base)
    (h : s.next base limit ceiling = (some u, s')) {v : LocalTime} (hv : v.IsWhole)
    (hbv : base < v) (hacc : Accepted cs v) : u ≤ v := by
  by_contra hlt
  rw [not_le] at hlt
  obtain ⟨-, -, hl, hy, -⟩ := next_found hs h
  have hyv : v.date.year ≤ 9999 := le_trans (index_mono .year (le_of_lt hlt)) hy
  have hskip := next_skips hs hc hb hv hbv hacc hyv (fun l hm => lt_trans hlt (hl l hm)) ceiling
  rw [h] at hskip
  rcases hskip with ⟨w, hwv, hw⟩ | ⟨hw, -⟩
  · cases hw
    exact absurd hlt (not_lt.mpr hwv)
  · cases hw

/-- **The jump search is exact.** What it finds is the first whole second after the base, before the
limit and not after the last year, that every condition of the plan accepts; and where it finds
nothing below the ceiling, there is none. -/
theorem next_exact {rules : List Rule} (hw : ∀ r ∈ rules, ∀ w ∈ r.ranges, w.InARow)
    {base : LocalTime} (hb : earliest ≤ base) (limit : Option LocalTime) (ceiling : Nat) :
    match (fresh (Plan.conditions rules base)).next base limit ceiling with
    | (some t, _) => t.IsWhole ∧ base < t ∧ (∀ l ∈ limit, t < l) ∧ t.date.year ≤ 9999
        ∧ Accepted (Plan.conditions rules base) t
        ∧ ∀ v : LocalTime, v.IsWhole → base < v → v < t → ¬ Accepted (Plan.conditions rules base) v
    | (none, s) => s.trace.iterations < ceiling →
        ∀ v : LocalTime, v.IsWhole → base < v → (∀ l ∈ limit, v < l) → v.date.year ≤ 9999 →
          ¬ Accepted (Plan.conditions rules base) v := by
  have hs := recalls_fresh (Plan.conditions rules base)
  have hc := Plan.wellFormed_conditions hw base
  split
  · rename_i t s h
    obtain ⟨htw, hbt, hl, hy, hacc⟩ := next_found hs h
    refine ⟨htw, hbt, hl, hy, hacc, fun v hv hbv hvt haccv => ?_⟩
    exact absurd hvt (not_lt.mpr (next_le hs hc hb h hv hbv haccv))
  · rename_i s h
    intro hi v hv hbv hl hy hacc
    have hskip := next_skips hs hc hb hv hbv hacc hy hl ceiling
    rw [h] at hskip
    rcases hskip with ⟨u, -, hu⟩ | ⟨-, hle⟩
    · cases hu
    · have h0 : (fresh (Plan.conditions rules base)).trace.iterations = 0 := rfl
      simp only at hle
      omega

/-- Every quarter of an hour from nine to five: after the evening of a leap day it is nine on the
first of March. -/
theorem next_exact_office_hours :
    let rules : List Rule :=
      [.every ⟨.minute, 15, none⟩, .within ⟨UnitMap.ofList [(.hour, ("9", "16"))]⟩]
    let base : LocalTime := Time.ofSeconds 1709236800
    let found : LocalTime := Time.ofSeconds 1709283600
    (∀ r ∈ rules, ∀ w ∈ r.ranges, w.InARow) ∧ earliest ≤ base
      ∧ ((fresh (Plan.conditions rules base)).next base none 100).1 = some found
      ∧ Accepted (Plan.conditions rules base) found
      ∧ ∀ v : LocalTime, v.IsWhole → base < v → v < found →
          ¬ Accepted (Plan.conditions rules base) v := by
  intro rules base found
  have hw : ∀ r ∈ rules, ∀ w ∈ r.ranges, w.InARow := by decide
  have hb : earliest ≤ base := by decide
  have hfound : ((fresh (Plan.conditions rules base)).next base none 100).1 = some found := by
    decide +kernel
  have h := next_exact hw hb none 100
  generalize hres : (fresh (Plan.conditions rules base)).next base none 100 = res at h hfound
  obtain ⟨o, s⟩ := res
  simp only at hfound
  subst hfound
  exact ⟨hw, hb, rfl, h.2.2.2.2.1, h.2.2.2.2.2⟩

end Search

end Recurrence
