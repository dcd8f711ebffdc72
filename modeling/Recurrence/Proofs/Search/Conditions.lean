import Recurrence.Search.Plan
import Recurrence.Proofs.Search.Cadences
import Recurrence.Proofs.Search.Windows

/-!
Jumps of conditions. Whatever its kind, a condition that refuses a time asks for a jump over nothing
but times that it refuses.

Main statements: `safe_advance`, `Plan.ofRules_conditions` and `Plan.wellFormed_conditions`.
-/

namespace Recurrence

open LocalTime Advance

variable {s t : LocalTime}

/-! ### Records -/

/-- What a record of texts stands for in the month of a time. -/
def Record.inMonthOf (texts : Values) (t : LocalTime) : Record :=
  texts.map fun (u, text) => (u, Resolution.ofText u t.date.year t.date.month text)

namespace Record

lemma accepts_inMonthOf {texts : Values} : (inMonthOf texts t).accepts t = true ↔
    ∀ p ∈ texts, Resolution.ofText p.1 t.date.year t.date.month p.2 = .value (t.part p.1) := by
  simp [accepts, inMonthOf, disagrees]

/-- The jump of a record is safe, though the record is read anew in another month. -/
lemma safe_advance {texts : Values} (ht : t.InReach) (hr : (inMonthOf texts t).accepts t = false) :
    Safe (fun s => (inMonthOf texts s).accepts s = true) ((inMonthOf texts t).advance t) t := by
  unfold advance
  cases hf : (inMonthOf texts t).find? (disagrees t) with
  | none =>
    rw [List.find?_eq_none] at hf
    rw [accepts, Bool.not_eq_false', List.any_eq_true] at hr
    obtain ⟨p, hp, hd⟩ := hr
    exact absurd hd (hf p hp)
  | some p =>
    obtain ⟨q, hq, rfl⟩ := List.mem_map.mp (List.mem_of_find?_eq_some hf)
    have hd : Resolution.ofText q.1 t.date.year t.date.month q.2 ≠ .value (t.part q.1) := by
      simpa [disagrees] using List.find?_some hf
    exact (safe_toValue (steady_ofText q.1 q.2) ht hd).imp fun s hok => accepts_inMonthOf.mp hok q
      hq

end Record

namespace Condition

/-- What is asked of a condition: cadences count, and ranges bound units next to each other. -/
def WellFormed : Condition → Prop
  | cadence c => 1 ≤ c.interval
  | within r => r.InARow
  | withinAny rs => ∀ r ∈ rs, r.InARow
  | _ => True

/-- A condition on ranges, each of which bounds units next to each other. -/
def IsWindow : Condition → Prop
  | within r => r.InARow
  | withinAny rs => ∀ r ∈ rs, r.InARow
  | _ => False

lemma steady_pinned (u : TimeUnit) (value : Int) :
    Steady u fun t => .value (pinned u value t) where
  cycle {s t} _ _ hc := by
    simp only [pinned, maxValueIn_eq_of_cycle hc]
  week {s t} hu := by
    subst hu; rfl
  invalid _ _ h := by cases h

/-- **The jump of a condition is safe.** -/
theorem safe_advance {c : Condition} (hc : c.WellFormed) (ht : t.InReach) (htw : t.IsWhole)
    (hr : c.accepts t = false) : Safe (fun s => c.accepts s = true) (c.advance t) t := by
  cases c with
  | equals u text =>
    have hs := steady_ofText u text
    simp only [accepts, acceptsGiven, decide_eq_false_iff_not] at hr
    refine (safe_toValue hs ht hr).imp fun s hok => ?_
    simpa [accepts, acceptsGiven] using hok
  -- a pinned number is a resolved text that does not change inside a cycle
  | pin u value =>
    have hs := steady_pinned u value
    simp only [accepts, acceptsGiven, decide_eq_false_iff_not] at hr
    refine (safe_toValue hs ht fun h => hr ?_).imp fun s hok => ?_
    · exact (Resolution.value.inj h).symm
    · rw [accepts, acceptsGiven, decide_eq_true_eq] at hok
      rw [hok]
  | cadence c => exact c.safe_advance hc ht hr
  -- a list accepts where one of its records does, and goes to the first that any asks for
  | oneOf columns =>
    have hrec : ∀ s : LocalTime, columns.resolved s.date.year s.date.month
        = columns.records.map fun texts => Record.inMonthOf texts s := fun _ => rfl
    simp only [accepts, acceptsGiven, recordsIn, hrec, List.any_map, List.any_eq_false] at hr
    simp only [advance, advanceGiven, recordsIn, hrec]
    refine (safe_toEarliest columns.records
      (fun texts s => (Record.inMonthOf texts s).accepts s = true) htw ?_).imp ?_
    · intro texts hm
      refine ⟨(Record.inMonthOf texts t).advance t, ?_, Record.safe_advance ht ?_⟩
      · rw [List.map_map]
        exact List.mem_map.mpr ⟨texts, hm, rfl⟩
      · simpa using hr texts hm
    · intro s hok
      simpa [accepts, acceptsGiven, recordsIn, hrec] using hok
  -- so does a list of ranges
  | within r =>
    simp only [accepts, acceptsGiven, Range.accepts, Option.isNone_eq_false_iff,
      Option.isSome_iff_exists] at hr
    obtain ⟨a, ha⟩ := hr
    simp only [advance, advanceGiven, ha, Option.getD_some]
    exact Range.safe_check hc ht htw ha
  | withinAny rs =>
    simp only [accepts, acceptsGiven, List.any_eq_false, Range.accepts, Bool.not_eq_true,
      Option.isNone_eq_false_iff, Option.isSome_iff_exists] at hr
    simp only [advance, advanceGiven]
    refine (safe_toEarliest rs (fun r s => r.accepts s = true) htw ?_).imp ?_
    · intro r hm
      obtain ⟨a, ha⟩ := hr r hm
      exact ⟨a, List.mem_filterMap.mpr ⟨r, hm, ha⟩, Range.safe_check (hc r hm) ht htw ha⟩
    · intro s hok
      simpa [accepts, acceptsGiven] using hok

lemma lands_advance (htw : t.IsWhole) (hy : t.date.year ≤ 9999) (c : Condition) :
    (c.advance t).Lands t := by
  cases c with
  | equals u text => exact lands_toValue htw hy _ _
  | pin u value => exact lands_toValue htw hy u (.value (pinned u value t))
  | cadence c => exact c.lands_advance htw hy
  | oneOf columns =>
    refine lands_toEarliest htw fun a ha => ?_
    obtain ⟨r, -, rfl⟩ := List.mem_map.mp ha
    unfold Record.advance
    split
    · exact lands_toValue htw hy _ _
    · exact lands_units htw hy _ _
  | within r =>
    show ((r.check t).getD (.units 1 .second)).Lands t
    cases h : r.check t with
    | some a => exact Range.lands_check htw hy h
    | none => exact lands_units htw hy _ _
  | withinAny rs =>
    refine lands_toEarliest htw fun a ha => ?_
    obtain ⟨r, -, h⟩ := List.mem_filterMap.mp ha
    exact Range.lands_check htw hy h

end Condition

namespace Plan

open Condition

/-- What the conditions of a plan are: those of the rules, the cadence counted from a seed, and pins
of units that have a cycle. -/
inductive OfRules (rules : List Rule) : Condition → Prop
  | equals {u : TimeUnit} {text : String} (h : .equals u text ∈ rules) :
    OfRules rules (.equals u text)
  | oneOf {columns : Columns} (h : .oneOf columns ∈ rules) : OfRules rules (.oneOf columns)
  | within {range : Range} (h : .within range ∈ rules) : OfRules rules (.within range)
  | withinAny {ranges : List Range} (h : .withinAny ranges ∈ rules) : OfRules rules
    (.withinAny ranges)
  | cadence {e : Every} (h : .every e ∈ rules) (seed : LocalTime) :
      OfRules rules (.cadence (.startingAt e seed))
  | pin {u : TimeUnit} (h : u.parent?.isSome) (value : Int) : OfRules rules (.pin u value)

variable {rules : List Rule}

lemma ofRules_addPins {value : TimeUnit → Int} {blocked taken : UnitSet} {us : List TimeUnit}
    (hus : us ⊆ pinnable) : ∀ c ∈ (addPins value blocked taken us).1, OfRules rules c := by
  have hparent : ∀ u ∈ pinnable, u.parent?.isSome := by decide
  induction us generalizing taken with
  | nil => simp [addPins]
  | cons u us ih =>
    obtain ⟨hu, hus⟩ := List.cons_subset.mp hus
    rw [addPins]
    split
    · exact List.forall_mem_cons.mpr ⟨.pin (hparent u hu) _, ih hus⟩
    · exact ih hus

lemma ofRules_minimumPins (rules : List Rule) : ∀ c ∈ (minimumPins rules).1, OfRules rules c := by
  unfold minimumPins
  simp only
  split
  · simp
  · split
    · simp
    · exact ofRules_addPins (List.filter_sublist.subset)

lemma ofRules_everyConditions {e : Every} (he : .every e ∈ rules) (seed : LocalTime)
    (fixed : UnitSet) :
    ∀ c ∈ everyConditions e seed fixed, OfRules rules c := by
  intro c hc
  simp only [everyConditions, List.mem_cons, List.mem_append] at hc
  rcases hc with (rfl | hc) | hc
  · exact .cadence he seed
  · exact ofRules_addPins (List.filter_sublist.subset) c hc
  · split at hc
    · obtain rfl := List.mem_singleton.mp hc
      exact .pin rfl _
    · cases hc

lemma ofRules_fixedValues (rules : List Rule) : ∀ c ∈ fixedValues rules, OfRules rules c := by
  intro c hc
  obtain ⟨r, hr, hrc⟩ := List.mem_filterMap.mp hc
  cases r <;> cases hrc
  · exact .equals hr
  · exact .oneOf hr

lemma ofRules_windows (rules : List Rule) : ∀ c ∈ windows rules, OfRules rules c := by
  intro c hc
  obtain ⟨r, hr, hrc⟩ := List.mem_filterMap.mp hc
  cases r <;> cases hrc
  · exact .within hr
  · exact .withinAny hr

lemma mem_of_every? {e : Every} (he : every? rules = some e) : .every e ∈ rules := by
  obtain ⟨r, hr, hre⟩ := List.mem_filterMap.mp (List.mem_of_getLast? he)
  cases r <;> cases hre
  exact hr

/-- A plan has no other conditions. -/
theorem ofRules_conditions (rules : List Rule) (base : LocalTime) :
    ∀ c ∈ conditions rules base, OfRules rules c := by
  intro c hc
  simp only [conditions, List.mem_append] at hc
  rcases hc with ((hc | hc) | hc) | hc
  · exact ofRules_fixedValues rules c hc
  · exact ofRules_minimumPins rules c hc
  · split at hc
    · exact ofRules_everyConditions (mem_of_every? ‹_›) _ _ c hc
    · cases hc
  · exact ofRules_windows rules c hc

lemma isWindow_windows (hw : ∀ r ∈ rules, ∀ w ∈ r.ranges, w.InARow) :
    ∀ c ∈ windows rules, c.IsWindow := by
  intro c hc
  obtain ⟨r, hr, hrc⟩ := List.mem_filterMap.mp hc
  cases r <;> cases hrc
  · exact hw _ hr _ (by simp [Rule.ranges])
  · exact hw _ hr

/-- **The conditions of a plan are well-formed** when its ranges bound units next to each other. -/
theorem wellFormed_conditions {rules : List Rule} (hw : ∀ r ∈ rules, ∀ w ∈ r.ranges, w.InARow)
    (base : LocalTime) : ∀ c ∈ conditions rules base, c.WellFormed := by
  intro c hc
  cases ofRules_conditions rules base c hc with
  | equals | oneOf | pin => trivial
  | within h => exact hw _ h _ (by simp [Rule.ranges])
  | withinAny h => exact hw _ h
  | cadence => exact le_max_right _ _

end Plan

end Recurrence
