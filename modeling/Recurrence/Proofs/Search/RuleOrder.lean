import Recurrence.Proofs.Rule.Checks
import Recurrence.Proofs.Search.Visits
import Recurrence.Zone.Offsets

/-!
The order of rules. A plan has the same conditions for rules in another order, in another order; a
step goes to the earliest landing of all conditions that refuse a time, whichever is asked first.

Main statement: `answers_perm`.
-/

namespace Recurrence

variable {rules rules' : List Rule} {cs ds : List Condition}

/-! ### Steps -/

lemma Advance.earliest?_perm {ts us : List LocalTime} (h : ts.Perm us) :
    earliest? ts = earliest? us := by
  unfold earliest?
  cases hu : us.min? with
  | none =>
    rw [List.min?_eq_none_iff] at hu ⊢
    exact List.perm_nil.1 (hu ▸ h)
  | some t =>
    rw [List.min?_eq_some_iff] at hu ⊢
    exact ⟨h.mem_iff.2 hu.1, fun u hmem => hu.2 u (h.mem_iff.1 hmem)⟩

lemma Step.ofConditions_perm (h : cs.Perm ds) (t : LocalTime) :
    ofConditions cs t = ofConditions ds t := by
  have hadvances : ((cs.filter fun c => !c.accepts t).map fun c => c.advance t).Perm
      ((ds.filter fun c => !c.accepts t).map fun c => c.advance t) := (h.filter _).map _
  unfold ofConditions ofAdvances
  rw [hadvances.contains_eq, Advance.earliest?_perm (hadvances.filterMap _)]

/-! ### Plans -/

lemma UnitSet.unions_perm {sets sets' : List UnitSet} (h : sets.Perm sets') :
    unions sets = unions sets' := by
  refine ext_has fun u => ?_
  rw [has_unions, has_unions, h.any_eq]

namespace Plan

variable (h : rules.Perm rules')

include h

lemma fixedUnits_perm : fixedUnits rules = fixedUnits rules' :=
  UnitSet.unions_perm ((h.filter _).map _)

lemma windowUnits_perm : windowUnits rules = windowUnits rules' :=
  UnitSet.unions_perm ((h.filter _).map _)

lemma windows_perm : (windows rules).Perm (windows rules') := h.filterMap _

omit h in
lemma windowSeed_perm (h : cs.Perm ds) (n : Nat) (t : LocalTime) :
    windowSeed cs n t = windowSeed ds n t := by
  induction n generalizing t with
  | zero => rfl
  | succ n ih =>
    have hlandings : Advance.earliest? (windowLandings cs t)
        = Advance.earliest? (windowLandings ds t) := Advance.earliest?_perm (h.filterMap _)
    rw [windowSeed, windowSeed, hlandings]
    split
    · exact ih _
    · rfl

lemma every?_perm (hone : (RuleSet.everys rules).length ≤ 1) : every? rules = every? rules' :=
  congrArg List.getLast? (RuleSet.eq_of_perm (RuleSet.everys_perm h) hone)

/-- Rules in another order have the same plan, in another order. -/
theorem conditions_perm (hone : (RuleSet.everys rules).length ≤ 1) (base : LocalTime) :
    (conditions rules base).Perm (conditions rules' base) := by
  have hpins : minimumPins rules = minimumPins rules' := by
    unfold minimumPins
    rw [fixedUnits_perm h, every?_perm h hone, windowUnits_perm h]
  unfold conditions
  rw [hpins, every?_perm h hone, windowSeed_perm (windows_perm h)]
  exact (((h.filterMap _).append_right _).append_right _).append (windows_perm h)

end Plan

/-! ### Searches -/

/-- **The order of rules does not matter.** Rules that stand together do so in any order and name
the same zone. Whatever is asked of their plan, one search after the other, it looks at the same
times and finds the same; and so do the series of the rules. -/
theorem answers_perm {D : Zone.Database} (h : rules.Perm rules')
    (hstands : RuleSet.conflict? D rules = none) :
    RuleSet.conflict? D rules' = none
      ∧ (RuleSet.zones rules').head? = (RuleSet.zones rules).head?
      ∧ (∀ base queries, (Search.fresh (Plan.conditions rules' base)).answers queries
        = (Search.fresh (Plan.conditions rules base)).answers queries)
      ∧ ∀ zone ceiling base count bound,
        (series rules' zone ceiling base count bound).1
            = (series rules zone ceiling base count bound).1
          ∧ (series rules' zone ceiling base count bound).2.trace
            = (series rules zone ceiling base count bound).2.trace := by
  have hrules := RuleSet.conflict?_eq_none_iff.1 hstands
  have halike (base : LocalTime) : (Search.fresh (Plan.conditions rules' base)).Alike
      (Search.fresh (Plan.conditions rules base)) :=
    .fresh (Step.ofConditions_perm (Plan.conditions_perm h hrules.cadences base).symm)
  refine ⟨RuleSet.conflict?_eq_none_iff.2 (hrules.perm h), ?_, fun base queries =>
    (halike base).answers queries, fun zone ceiling base count bound => ?_⟩
  · rw [RuleSet.eq_of_perm (RuleSet.zones_perm h) hrules.zone]
  · obtain ⟨hfound, htrace⟩ := (halike (zone.toLocal base)).instants zone ceiling bound count base
    exact ⟨hfound, htrace rfl⟩

/-- Every second day at half past nine in March and April, on weekdays, said the other way round. -/
theorem answers_perm_reversed :
    let rules : List Rule := [.every ⟨.day, 2, none⟩, .equals .hour "9", .equals .minute "30",
      .oneOf ⟨UnitMap.ofList [(.month, ["3", "April"])]⟩,
      .within ⟨UnitMap.ofList [(.week, ("mon", "fri"))]⟩, .zone "Europe/Berlin"]
    RuleSet.conflict? Zone.recorded rules = none
      ∧ RuleSet.conflict? Zone.recorded rules.reverse = none
      ∧ ∀ base queries, (Search.fresh (Plan.conditions rules.reverse base)).answers queries
        = (Search.fresh (Plan.conditions rules base)).answers queries := by
  intro rules
  have hstands : RuleSet.conflict? Zone.recorded rules = none := by decide +kernel
  obtain ⟨hreversed, -, hanswers, -⟩ := answers_perm rules.reverse_perm.symm hstands
  exact ⟨hstands, hreversed, hanswers⟩

end Recurrence
