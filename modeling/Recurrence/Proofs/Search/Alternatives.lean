import Recurrence.Proofs.Search.Ceilings

/-!
A list of alternatives. A plan looks at a list as a whole, with one jump for each record; written
out as rules of its own a record has one jump for each unit. Both ways come to the same times.

Main statement: `next_oneOf`.
-/

namespace Recurrence

open LocalTime

/-- The rules that fix the texts of a record, one for each unit. -/
def Values.rules (vs : Values) : List Rule := vs.map fun v => .equals v.1 v.2

def Columns.Aligned (c : Columns) : Prop := ∀ p ∈ c.lists.toList, p.2.length = c.length

instance (c : Columns) : Decidable c.Aligned := inferInstanceAs (Decidable (∀ p ∈ _, _))

namespace Columns

variable {c : Columns} {i : Nat}

lemma exists_mem_record (hc : c.Aligned) (hi : i < c.length) (u : TimeUnit) :
    (∃ text, (u, text) ∈ c.record i) ↔ c.units.has u = true := by
  simp only [record, List.mem_filterMap, UnitSet.mem_units, Option.bind_eq_some_iff,
    Option.map_eq_some_iff, Prod.mk.injEq]
  constructor
  · rintro ⟨text, v, hv, -, -, -, -, rfl, -⟩
    exact hv
  · intro hu
    have hsome := hu
    rw [units, UnitMap.has_units, Bool.and_eq_true, Option.isSome_iff_exists] at hsome
    obtain ⟨⟨texts, ht⟩, -⟩ := hsome
    have hlen : i < texts.length := by
      rw [hc (u, texts) (UnitMap.mem_toList.mpr ht)]
      exact hi
    exact ⟨texts[i], u, hu, texts, ht, texts[i], List.getElem?_eq_getElem hlen, rfl, rfl⟩

lemma exists_record {r : Values} (hr : r ∈ c.records) : ∃ i < c.length, c.record i = r := by
  simpa [records] using hr

/-- A list accepts a time when one of its records does, read as rules of its own. -/
lemma accepts_oneOf (c : Columns) (t : LocalTime) : (Condition.oneOf c).accepts t = true
    ↔ ∃ r ∈ c.records, Accepted (Plan.fixedValues r.rules) t := by
  have hrec : ∀ r : Values, Accepted (Plan.fixedValues r.rules) t
      ↔ (Record.inMonthOf r t).accepts t = true := by
    intro r
    have hvalues : Plan.fixedValues r.rules = r.map fun v => .equals v.1 v.2 := by
      simp [Plan.fixedValues, Values.rules]
    rw [Record.accepts_inMonthOf, hvalues, Accepted, List.forall_mem_map]
    simp only [Condition.accepts, Condition.acceptsGiven, decide_eq_true_eq]
  simp only [hrec, Condition.accepts, Condition.acceptsGiven, Condition.recordsIn, resolved,
    List.any_map, List.any_eq_true]
  rfl

end Columns

lemma accepted_append {cs ds : List Condition} {t : LocalTime} :
    Accepted (cs ++ ds) t ↔ Accepted cs t ∧ Accepted ds t := List.forall_mem_append

namespace Plan

variable {rules rules' : List Rule}

/-- The conditions of a plan next to its fixed values: pins, the cadence and the windows. -/
def others (rules : List Rule) (base : LocalTime) : List Condition :=
  (minimumPins rules).1
    ++ ((match every? rules with
      | some e =>
        everyConditions e (windowSeed (windows rules) seedSteps base) (minimumPins rules).2
      | none => [])
    ++ windows rules)

lemma conditions_eq (rules : List Rule) (base : LocalTime) :
    conditions rules base = fixedValues rules ++ others rules base :=
  (List.append_assoc _ _ _).trans (List.append_assoc _ _ _)

lemma others_eq (hfixed : fixedUnits rules = fixedUnits rules')
    (hevery : every? rules = every? rules') (hwindows : windows rules = windows rules')
    (hunits : windowUnits rules = windowUnits rules') (base : LocalTime) :
    others rules base = others rules' base := by
  have hpins : minimumPins rules = minimumPins rules' := by
    unfold minimumPins
    rw [hfixed, hevery, hunits]
  simp only [others, hpins, hevery, hwindows]

variable (before after : List Rule) {c : Columns} {r : Values}

lemma fixedUnits_record (hc : c.Aligned) (hr : r ∈ c.records) :
    fixedUnits (before ++ r.rules ++ after) = fixedUnits (before ++ .oneOf c :: after) := by
  obtain ⟨i, hi, rfl⟩ := Columns.exists_record hr
  apply UnitSet.ext_has
  intro u
  -- the rules of a record are of the units of the columns, one each
  have hrecord : ((Values.rules (c.record i)).filter Rule.isFixed).any (fun r => r.units.has u)
      = c.units.has u := by
    rw [Bool.eq_iff_iff, ← Columns.exists_mem_record hc hi u]
    simp only [Values.rules, List.any_eq_true, List.mem_filter, List.mem_map]
    constructor
    · rintro ⟨-, ⟨⟨p, hp, rfl⟩, -⟩, hu⟩
      simp only [Rule.units, UnitSet.has_single, Bool.and_eq_true, decide_eq_true_eq] at hu
      exact ⟨p.2, hu.1 ▸ hp⟩
    · rintro ⟨text, hp⟩
      have hz : u ≠ .timeZone := by
        rintro rfl
        have := (Columns.exists_mem_record hc hi _).mp ⟨text, hp⟩
        simp at this
      exact ⟨_, ⟨⟨_, hp, rfl⟩, rfl⟩, by simp [Rule.units, hz]⟩
  -- to be in the union is to be in one of the sets
  have hunions : ∀ rules : List Rule,
      (fixedUnits rules).has u = (rules.filter Rule.isFixed).any fun r => r.units.has u := by
    intro rules
    rw [fixedUnits, UnitSet.has_unions, List.any_map]
    rfl
  have hlist : (Rule.oneOf c :: after).filter Rule.isFixed
      = .oneOf c :: after.filter Rule.isFixed := rfl
  rw [hunions, hunions, List.filter_append, List.filter_append, List.filter_append, hlist,
    List.any_append, List.any_append, List.any_append, List.any_cons, hrecord, Bool.or_assoc]
  rfl

/-- **A plan with a list accepts what the plans with one of its records accept.** -/
theorem accepted_oneOf (hc : c.Aligned) (base t : LocalTime) :
    Accepted (conditions (before ++ .oneOf c :: after) base) t
      ↔ ∃ r ∈ c.records, Accepted (conditions (before ++ r.rules ++ after) base) t := by
  -- only the fixed values tell a record from its list
  have hothers : ∀ r ∈ c.records, others (before ++ .oneOf c :: after) base
      = others (before ++ r.rules ++ after) base := by
    intro r hr
    apply others_eq (fixedUnits_record before after hc hr).symm
    · simp [every?, Values.rules, List.filterMap_map, Function.comp_def, Rule.every?]
    · simp [windows, Values.rules, List.filterMap_map]
    · simp [windowUnits, Values.rules, List.filter_map, Function.comp_def, Rule.isWindow]
  have hvalues : ∀ rules rules' : List Rule,
      fixedValues (rules ++ rules') = fixedValues rules ++ fixedValues rules' :=
    fun _ _ => List.filterMap_append
  -- a list accepts what one of its records does
  have hlist : Accepted (fixedValues (.oneOf c :: after)) t
      ↔ (∃ r ∈ c.records, Accepted (fixedValues r.rules) t) ∧ Accepted (fixedValues after) t := by
    rw [← Columns.accepts_oneOf]
    exact List.forall_mem_cons
  rw [conditions_eq, hvalues, accepted_append, accepted_append, hlist]
  constructor
  · rintro ⟨⟨hb, ⟨r, hr, hacc⟩, ha⟩, hx⟩
    refine ⟨r, hr, ?_⟩
    rw [conditions_eq, hvalues, hvalues, accepted_append, accepted_append, accepted_append,
      ← hothers r hr]
    exact ⟨⟨⟨hb, hacc⟩, ha⟩, hx⟩
  · rintro ⟨r, hr, h⟩
    rw [conditions_eq, hvalues, hvalues, accepted_append, accepted_append, accepted_append,
      ← hothers r hr] at h
    obtain ⟨⟨⟨hb, hacc⟩, ha⟩, hx⟩ := h
    exact ⟨⟨hb, ⟨r, hr, hacc⟩, ha⟩, hx⟩

end Plan

namespace Search

variable {base : LocalTime} {limit : Option LocalTime} {ceiling : Nat}

lemma next_eq_min {ι : Type} {alternatives : List ι} {cs : List Condition}
    {ds : ι → List Condition} (hcs : ∀ c ∈ cs, c.WellFormed)
    (hds : ∀ i ∈ alternatives, ∀ c ∈ ds i, c.WellFormed) (hb : earliest ≤ base)
    (hcut : ¬ (fresh cs).CutOff base limit ceiling)
    (hcuts : ∀ i ∈ alternatives, ¬ (fresh (ds i)).CutOff base limit ceiling)
    (hacc : ∀ t, Accepted cs t ↔ ∃ i ∈ alternatives, Accepted (ds i) t) :
    ((fresh cs).next base limit ceiling).1
      = (alternatives.filterMap fun i => ((fresh (ds i)).next base limit ceiling).1).min? := by
  have hnone := next_eq_none_iff (recalls_fresh cs) hcs hb hcut
  have hsome := fun t => next_eq_some_iff (t := t) (recalls_fresh cs) hcs hb hcut
  have hsomes := fun i hi t =>
    next_eq_some_iff (t := t) (recalls_fresh (ds i)) (hds i hi) hb (hcuts i hi)
  have helig :
      ∀ t, Eligible cs base limit t ↔ ∃ i ∈ alternatives, Eligible (ds i) base limit t := by
    intro t
    constructor
    · intro h
      obtain ⟨i, hi, ha⟩ := (hacc t).mp h.accepted
      exact ⟨i, hi, h.whole, h.after, h.before, h.year, ha⟩
    · rintro ⟨i, hi, h⟩
      exact ⟨h.whole, h.after, h.before, h.year, (hacc t).mpr ⟨i, hi, h.accepted⟩⟩
  cases h : ((fresh cs).next base limit ceiling).1 with
  | none =>
    rw [hnone] at h
    rw [eq_comm, List.min?_eq_none_iff, List.filterMap_eq_nil_iff]
    intro i hi
    by_contra hne
    obtain ⟨t, ht⟩ := Option.ne_none_iff_exists'.mp hne
    exact h t ((helig t).mpr ⟨i, hi, ((hsomes i hi t).mp ht).1⟩)
  | some t =>
    obtain ⟨ht, hleast⟩ := (hsome t).mp h
    rw [eq_comm, List.min?_eq_some_iff]
    constructor
    · -- an alternative that may find the time can find none before it
      obtain ⟨i, hi, hti⟩ := (helig t).mp ht
      refine List.mem_filterMap.mpr ⟨i, hi, (hsomes i hi t).mpr ⟨hti, fun u hu => ?_⟩⟩
      exact hleast u ((helig u).mpr ⟨i, hi, hu⟩)
    · intro u hu
      obtain ⟨i, hi, hfound⟩ := List.mem_filterMap.mp hu
      exact hleast u ((helig u).mpr ⟨i, hi, ((hsomes i hi u).mp hfound).1⟩)

/-- **A list finds the first of what its records find,** each in the place of the list as rules of
its own; so a list of one record finds what the record finds. No search is to stop at the
ceiling. -/
theorem next_oneOf {before after : List Rule} {c : Columns} (hc : c.Aligned)
    (hw : ∀ r ∈ before ++ after, ∀ w ∈ r.ranges, w.InARow) (hb : earliest ≤ base)
    (hcut : ¬ (fresh (Plan.conditions (before ++ .oneOf c :: after) base)).CutOff
      base limit ceiling)
    (hcuts : ∀ r ∈ c.records, ¬ (fresh (Plan.conditions (before ++ r.rules ++ after) base)).CutOff
      base limit ceiling) :
    let found (rules : List Rule) :=
      ((fresh (Plan.conditions rules base)).next base limit ceiling).1
    found (before ++ .oneOf c :: after)
        = (c.records.filterMap fun r => found (before ++ r.rules ++ after)).min?
      ∧ ∀ r, c.records = [r] →
        found (before ++ .oneOf c :: after) = found (before ++ r.rules ++ after) := by
  intro found
  -- ranges are in a row with the list and with a record in its place
  have hlist : ∀ r ∈ before ++ .oneOf c :: after, ∀ w ∈ r.ranges, w.InARow := by
    intro r hr
    rcases List.mem_append.mp hr with hr | hr
    · exact hw r (List.mem_append_left _ hr)
    rcases List.mem_cons.mp hr with rfl | hr
    · simp [Rule.ranges]
    · exact hw r (List.mem_append_right _ hr)
  have hrecord : ∀ vs : Values, ∀ r ∈ before ++ vs.rules ++ after, ∀ w ∈ r.ranges, w.InARow := by
    intro vs r hr
    rcases List.mem_append.mp hr with hr | hr
    rcases List.mem_append.mp hr with hr | hr
    · exact hw r (List.mem_append_left _ hr)
    · obtain ⟨v, -, rfl⟩ := List.mem_map.mp hr
      simp [Rule.ranges]
    · exact hw r (List.mem_append_right _ hr)
  -- what the list accepts is what one of the records does, so the least of their finds is the find
  have hmin : found (before ++ .oneOf c :: after)
      = (c.records.filterMap fun r => found (before ++ r.rules ++ after)).min? :=
    next_eq_min (Plan.wellFormed_conditions hlist base)
      (fun r _ => Plan.wellFormed_conditions (hrecord r) base) hb hcut hcuts
      (Plan.accepted_oneOf before after hc base)
  refine ⟨hmin, fun r hr => ?_⟩
  rw [hmin, hr, List.filterMap_cons, List.filterMap_nil]
  cases found (before ++ r.rules ++ after) <;> rfl

/-- Half past nine or five in the afternoon: after the evening of a leap day it is half past nine on
the first of March. -/
theorem next_oneOf_morning :
    let times : Columns := ⟨UnitMap.ofList [(.hour, ["9", "17"]), (.minute, ["30", "00"])]⟩
    let base : LocalTime := Time.ofSeconds 1709236800
    let found (rules : List Rule) := ((fresh (Plan.conditions rules base)).next base none 100).1
    times.records = [[(.hour, "9"), (.minute, "30")], [(.hour, "17"), (.minute, "00")]]
      ∧ found [.oneOf times] = some (Time.ofSeconds 1709285400)
      ∧ found [.oneOf times] = (times.records.filterMap fun r => found r.rules).min? := by
  intro times base found
  have hmin := (@next_oneOf base none 100 [] [] times (by decide) (by decide) (by decide)
    (by decide +kernel) (by decide +kernel)).1
  simp only [List.nil_append, List.append_nil] at hmin
  exact ⟨by decide, by decide +kernel, hmin⟩

end Search

end Recurrence
