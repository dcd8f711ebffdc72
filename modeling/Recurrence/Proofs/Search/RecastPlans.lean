import Recurrence.Proofs.Rule.RecastChecks
import Recurrence.Proofs.Search.Resumption

/-!
Plans of recast rules. When the characters of rules are changed in a way that what their texts stand
for stays, the conditions of the rules are those of the old ones with the same change, and behave as
they do.

Main statements: `Plan.conditions_recast` and `Search.alike_of_recast`.
-/

namespace Recurrence

def Cadence.recast (f : Char → Char) (c : Cadence) : Cadence :=
  { c with anchor := c.anchor.map (String.map f) }

def Condition.recast (f : Char → Char) : Condition → Condition
  | .equals u text => .equals u (text.map f)
  | .pin u value => .pin u value
  | .cadence c => .cadence (c.recast f)
  | .oneOf c => .oneOf (c.recast f)
  | .within r => .within (r.recast f)
  | .withinAny rs => .withinAny (rs.map (Range.recast f))

variable {f : Char → Char} (hf : Resolution.Kept f)

/-! ### Ranges -/

namespace Range

lemma bounded_recast (f : Char → Char) (r : Range) : (r.recast f).bounded = r.bounded := by
  unfold bounded
  congr 1
  funext u
  rw [get?_recast, Option.isSome_map]

include hf

lemma fillBounds_recast (r : Range) (finest : TimeUnit) (start stop : Fields) (us : List TimeUnit) :
    (r.recast f).fillBounds finest start stop us = r.fillBounds finest start stop us := by
  induction us generalizing start stop with
  | nil => rfl
  | cons u us ih =>
    rw [fillBounds, fillBounds, get?_recast]
    cases r.bounds.get? u with
    | none => simp only [Option.map_none, ih]
    | some b => simp only [Option.map_some, hf u, ih]

lemma clockCheck_recast (r : Range) (t : LocalTime) :
    (r.recast f).clockCheck t = r.clockCheck t := by
  unfold clockCheck
  simp only [bounded_recast, fillBounds_recast hf]

lemma weekdayCheck_recast (r : Range) (t : LocalTime) :
    (r.recast f).weekdayCheck t = r.weekdayCheck t := by
  unfold weekdayCheck
  rw [get?_recast]
  cases r.bounds.get? .week with
  | none => rfl
  | some b => simp only [Option.map_some, hf .week]

lemma check_recast (r : Range) (t : LocalTime) : (r.recast f).check t = r.check t := by
  rw [check, check, clockCheck_recast hf, weekdayCheck_recast hf]

end Range

/-! ### Lists -/

namespace Columns

lemma length_recast (f : Char → Char) (c : Columns) : (c.recast f).length = c.length := by
  unfold length
  rw [recast, UnitMap.toList_map]
  cases c.lists.toList with
  | nil => rfl
  | cons p ps => exact List.length_map _

lemma record_recast (f : Char → Char) (c : Columns) (i : Nat) :
    (c.recast f).record i = (c.record i).recast f := by
  unfold record Values.recast
  rw [List.map_filterMap, units, recast, UnitMap.units_map]
  congr 1
  funext u
  rw [UnitMap.get?_map]
  cases c.lists.get? u with
  | none => rfl
  | some texts =>
    simp only [Option.map_some, Option.bind_some, List.getElem?_map, Option.map_map]
    rfl

lemma resolved_recast (hf : Resolution.Kept f) (c : Columns) (year month : Int) :
    (c.recast f).resolved year month = c.resolved year month := by
  unfold resolved records
  rw [length_recast, List.map_map, List.map_map]
  refine List.map_congr_left fun i _ => ?_
  rw [Function.comp_apply, record_recast, Values.recast, List.map_map]
  exact List.map_congr_left fun v _ => congrArg (Prod.mk v.1) (hf v.1 year month v.2)

end Columns

/-! ### Cadences and other conditions -/

namespace Cadence

include hf

lemma anchorIn_recast (c : Cadence) (t : LocalTime) : (c.recast f).anchorIn t = c.anchorIn t := by
  unfold anchorIn recast
  rw [Option.map_map]
  exact congrArg (Option.map · c.anchor) (funext fun text => hf c.unit _ _ text)

lemma accepts_recast (c : Cadence) (t : LocalTime) : (c.recast f).accepts t = c.accepts t := by
  unfold accepts
  rw [anchorIn_recast hf]
  rfl

lemma advance_recast (c : Cadence) (t : LocalTime) : (c.recast f).advance t = c.advance t := by
  unfold advance
  rw [anchorIn_recast hf]
  rfl

lemma startingAt_recast (e : Every) (base : LocalTime) :
    startingAt (e.recast f) base = (startingAt e base).recast f := by
  obtain ⟨u, n, anchor⟩ := e
  cases anchor with
  | none => rfl
  | some text => cases u <;> simp [startingAt, Every.recast, Cadence.recast, hf _]

end Cadence

/-- **A recast condition behaves as it did.** -/
theorem Condition.alike_recast (hf : Resolution.Kept f) (c : Condition) : (c.recast f).Alike c := by
  intro t
  cases c with
  | equals u text =>
    constructor
    · simp only [recast, accepts, acceptsGiven, hf u]
    · simp only [recast, advance, advanceGiven, hf u]
  | pin u value => exact ⟨rfl, rfl⟩
  | cadence c => exact ⟨Cadence.accepts_recast hf c t, Cadence.advance_recast hf c t⟩
  | oneOf c =>
    constructor
    · simp only [recast, accepts, acceptsGiven, recordsIn, Columns.resolved_recast hf]
    · simp only [recast, advance, advanceGiven, recordsIn, Columns.resolved_recast hf]
  | within r =>
    constructor
    · simp only [recast, accepts, acceptsGiven, Range.accepts, Range.check_recast hf]
    · simp only [recast, advance, advanceGiven, Range.check_recast hf]
  | withinAny rs =>
    constructor
    · simp only [recast, accepts, acceptsGiven, Range.accepts, List.any_map, Function.comp_def,
        Range.check_recast hf]
    · simp only [recast, advance, advanceGiven, List.filterMap_map, Function.comp_def,
        Range.check_recast hf]

/-! ### Plans -/

namespace Plan

variable (rules : List Rule)

lemma fixedUnits_recast (f : Char → Char) :
    fixedUnits (rules.map (Rule.recast f)) = fixedUnits rules := by
  rw [fixedUnits, RuleSet.filter_units_recast (Rule.isFixed_recast f), fixedUnits]

lemma windowUnits_recast (f : Char → Char) :
    windowUnits (rules.map (Rule.recast f)) = windowUnits rules := by
  rw [windowUnits, RuleSet.filter_units_recast (Rule.isWindow_recast f), windowUnits]

lemma every?_recast (f : Char → Char) :
    every? (rules.map (Rule.recast f)) = (every? rules).map (Every.recast f) := by
  have heverys := congrArg List.getLast? (RuleSet.everys_recast f rules)
  rwa [List.getLast?_map] at heverys

lemma minimumPins_recast (f : Char → Char) :
    minimumPins (rules.map (Rule.recast f)) = minimumPins rules := by
  unfold minimumPins
  rw [fixedUnits_recast, windowUnits_recast, every?_recast]
  simp only [Option.any_map]
  rfl

lemma addPins_recast (f : Char → Char) (value : TimeUnit → Int) (blocked taken : UnitSet)
    (us : List TimeUnit) :
    (addPins value blocked taken us).1.map (Condition.recast f)
      = (addPins value blocked taken us).1 := by
  induction us generalizing taken with
  | nil => rfl
  | cons u us ih =>
    rw [addPins]
    split
    · rw [List.map_cons, ih]
      rfl
    · exact ih taken

lemma fixedValues_recast (f : Char → Char) : fixedValues (rules.map (Rule.recast f))
    = (fixedValues rules).map (Condition.recast f) := by
  unfold fixedValues
  rw [List.filterMap_map, List.map_filterMap]
  exact congrArg (List.filterMap · rules) (funext fun r => by cases r <;> rfl)

lemma windows_recast (f : Char → Char) : windows (rules.map (Rule.recast f))
    = (windows rules).map (Condition.recast f) := by
  unfold windows
  rw [List.filterMap_map, List.map_filterMap]
  exact congrArg (List.filterMap · rules) (funext fun r => by cases r <;> rfl)

include hf

lemma windowSeed_recast (windows : List Condition) (n : Nat) (t : LocalTime) :
    windowSeed (windows.map (Condition.recast f)) n t = windowSeed windows n t := by
  have hlandings (t : LocalTime) :
      windowLandings (windows.map (Condition.recast f)) t = windowLandings windows t := by
    unfold windowLandings
    rw [List.filterMap_map]
    refine congrArg (List.filterMap · windows) (funext fun w => ?_)
    rw [Function.comp_apply, (Condition.alike_recast hf w t).1, (Condition.alike_recast hf w t).2]
  induction n generalizing t with
  | zero => rfl
  | succ n ih =>
    rw [windowSeed, windowSeed, hlandings]
    split
    · exact ih _
    · rfl

lemma everyConditions_recast (e : Every) (seed : LocalTime) (fixed : UnitSet) :
    everyConditions (e.recast f) seed fixed = (everyConditions e seed fixed).map
      (Condition.recast f) := by
  have hanchor : (e.recast f).anchor = none ↔ e.anchor = none := Option.map_eq_none_iff
  unfold everyConditions
  dsimp only
  rw [Cadence.startingAt_recast hf, List.map_append, List.map_cons, addPins_recast,
    apply_ite (List.map _)]
  exact congrArg (_ ++ ·)
    (if_congr (and_congr_right fun _ => and_congr_left fun _ => hanchor) rfl rfl)

/-- **The plan of recast rules is their plan recast.** -/
theorem conditions_recast (base : LocalTime) : conditions (rules.map (Rule.recast f)) base
    = (conditions rules base).map (Condition.recast f) := by
  have hpins : (minimumPins rules).1.map (Condition.recast f) = (minimumPins rules).1 := by
    unfold minimumPins
    dsimp only
    split
    · rfl
    · split
      · rfl
      · exact addPins_recast f _ _ _ _
  unfold conditions
  dsimp only
  rw [minimumPins_recast, every?_recast, fixedValues_recast, windows_recast, windowSeed_recast hf,
    List.map_append, List.map_append, List.map_append, hpins]
  congr 2
  cases every? rules with
  | none => rfl
  | some e => exact everyConditions_recast hf e _ _

end Plan

/-! ### Searches -/

lemma Step.ofConditions_recast (hf : Resolution.Kept f) (rules : List Rule) (base t : LocalTime) :
    ofConditions (Plan.conditions (rules.map (Rule.recast f)) base) t
      = ofConditions (Plan.conditions rules base) t := by
  rw [Plan.conditions_recast hf]
  exact ofConditions_congr
    (List.forall₂_map_left_iff.2 (List.forall₂_same.2 fun c _ => Condition.alike_recast hf c)) t

/-- **Rules that are the same once recast are searched alike.** -/
theorem Search.alike_of_recast (hf : Resolution.Kept f) {rules rules' : List Rule}
    (h : rules'.map (Rule.recast f) = rules.map (Rule.recast f)) (base : LocalTime) :
    (fresh (Plan.conditions rules' base)).Alike (fresh (Plan.conditions rules base)) :=
  .fresh fun t => by rw [← Step.ofConditions_recast hf rules', h, Step.ofConditions_recast hf]

end Recurrence
