import Recurrence.Proofs.Rule.Checks
import Recurrence.Proofs.Rule.Recasting

/-!
Checks of recast rules. When the characters of rules are changed in a way that what their texts
stand for stays, the rules stand together if they did before.

Main statement: `stands_recast`.
-/

namespace Recurrence

/-- A change of characters after which every text stands for what it stood for. -/
def Resolution.Kept (f : Char → Char) : Prop :=
  ∀ (u : TimeUnit) (year month : Int) (text : String), ofText u year month (text.map f)
    = ofText u year month text

/-- A rule for a cadence with the characters of its anchor changed. -/
def Every.recast (f : Char → Char) (e : Every) : Every :=
  { e with anchor := e.anchor.map (String.map f) }

lemma UnitMap.toList_map {α β : Type} (g : α → β) (m : UnitMap α) :
    (m.map g).toList = m.toList.map fun p => (p.1, g p.2) := by
  rw [toList, toList, List.map_filterMap]
  refine congrArg (List.filterMap · TimeUnit.all) (funext fun u => ?_)
  rw [get?_map, Option.map_map, Option.map_map]
  rfl

lemma Range.get?_recast (f : Char → Char) (r : Range) (u : TimeUnit) : (r.recast f).bounds.get? u
    = (r.bounds.get? u).map fun b => (b.1.map f, b.2.map f) := rfl

namespace Rule

variable (f : Char → Char) (r : Rule)

lemma units_recast : (r.recast f).units = r.units := by
  cases r with
  | oneOf c => exact UnitMap.units_map _ _
  | within w => exact UnitMap.units_map _ _
  | withinAny ws =>
    rw [recast, units, units, List.map_map]
    exact congrArg UnitSet.unions (List.map_congr_left fun w _ => UnitMap.units_map _ _)
  | _ => rfl

lemma isFixed_recast : (r.recast f).isFixed = r.isFixed := by cases r <;> rfl

lemma isWindow_recast : (r.recast f).isWindow = r.isWindow := by cases r <;> rfl

lemma every?_recast : (r.recast f).every? = r.every?.map (Every.recast f) := by cases r <;> rfl

lemma zone?_recast : (r.recast f).zone? = r.zone? := by cases r <;> rfl

lemma isPrimary_recast : (r.recast f).isPrimary = r.isPrimary := by cases r <;> rfl

lemma ranges_recast : (r.recast f).ranges = r.ranges.map (Range.recast f) := by cases r <;> rfl

lemma fixedValues_recast : (r.recast f).fixedValues = r.fixedValues.recast f := by
  cases r with
  | oneOf c =>
    rw [recast, fixedValues, Columns.recast, UnitMap.toList_map, fixedValues, Values.recast,
      List.flatMap_map, List.map_flatMap]
    refine congrArg (List.flatMap · c.lists.toList) (funext fun p => ?_)
    rw [List.map_map, List.map_map]
    rfl
  | _ => rfl

end Rule

namespace RuleSet

variable {f : Char → Char} {rules : List Rule}

lemma everys_recast (f : Char → Char) (rules : List Rule) :
    everys (rules.map (Rule.recast f)) = (everys rules).map (Every.recast f) := by
  rw [everys, everys, List.filterMap_map, List.map_filterMap]
  exact congrArg (List.filterMap · rules) (funext (Rule.every?_recast f))

lemma zones_recast (f : Char → Char) (rules : List Rule) :
    zones (rules.map (Rule.recast f)) = zones rules := by
  rw [zones, zones, List.filterMap_map]
  exact congrArg (List.filterMap · rules) (funext (Rule.zone?_recast f))

lemma filter_units_recast {p : Rule → Bool} (hp : ∀ r : Rule, p (r.recast f) = p r)
    (rules : List Rule) :
    ((rules.map (Rule.recast f)).filter p).map Rule.units = (rules.filter p).map Rule.units := by
  rw [List.filter_map, show p ∘ Rule.recast f = p from funext hp, List.map_map]
  exact List.map_congr_left fun r _ => Rule.units_recast f r

lemma fixedUnits_recast (f : Char → Char) (rules : List Rule) :
    fixedUnits (rules.map (Rule.recast f)) = fixedUnits rules :=
  filter_units_recast (Rule.isFixed_recast f) rules

lemma unitConflict_recast (f : Char → Char) (e : Every) (u : TimeUnit) :
    unitConflict (e.recast f) u = unitConflict e u := by
  unfold unitConflict Every.recast
  rw [Option.isSome_map]

variable (hf : Resolution.Kept f)

include hf

lemma probe_recast (u : TimeUnit) (text : String) : probe u (text.map f) = probe u text :=
  hf u 1 1 text

lemma everyConflict_recast (e : Every) :
    everyConflict (e.recast f) = none ↔ everyConflict e = none := by
  obtain ⟨u, n, anchor⟩ := e
  cases anchor with
  | none => exact Iff.rfl
  | some text =>
    simp only [everyConflict, Every.recast, Option.map_some, probe_recast hf]
    split_ifs <;> simp

lemma valueConflict_recast (v : TimeUnit × String) :
    valueConflict (v.1, v.2.map f) = none ↔ valueConflict v = none := by
  simp [valueConflict, probe_recast hf]

lemma boundConflict_recast (r : Range) (u : TimeUnit) :
    boundConflict (r.recast f) u = none ↔ boundConflict r u = none := by
  unfold boundConflict
  rw [Range.get?_recast]
  cases r.bounds.get? u with
  | none => exact Iff.rfl
  | some b =>
    simp only [Option.map_some, probe_recast hf]
    cases probe u b.1 <;> cases probe u b.2 <;> simp

lemma comparedBounds_recast (r : Range) : comparedBounds (r.recast f) = comparedBounds r := by
  unfold comparedBounds
  rw [Rule.range_units_recast]
  refine congrArg (List.filterMap · r.units.units) (funext fun u => ?_)
  rw [Range.get?_recast]
  cases r.bounds.get? u with
  | none => rfl
  | some b => simp only [Option.map_some, probe_recast hf]

lemma rangeConflict_recast (r : Range) :
    rangeConflict (r.recast f) = none ↔ rangeConflict r = none := by
  have hbounds : (r.recast f).units.units.findSome? (boundConflict (r.recast f)) = none
      ↔ r.units.units.findSome? (boundConflict r) = none := by
    rw [Rule.range_units_recast, List.findSome?_eq_none_iff, List.findSome?_eq_none_iff]
    exact forall₂_congr fun u _ => boundConflict_recast hf r u
  unfold rangeConflict
  rw [comparedBounds_recast hf]
  cases h : r.units.units.findSome? (boundConflict r) with
  | none =>
    rw [hbounds.2 h]
    dsimp only
    split_ifs <;> simp
  | some c =>
    cases h' : (r.recast f).units.units.findSome? (boundConflict (r.recast f)) with
    | none => exact absurd ((hbounds.1 h').symm.trans h) (by simp)
    | some c' => simp

lemma windowConflict_recast (hasEvery : Bool) (r : Rule) :
    windowConflict hasEvery (r.recast f) = none ↔ windowConflict hasEvery r = none := by
  unfold windowConflict
  rw [Rule.isWindow_recast, Rule.ranges_recast]
  cases r.isWindow with
  | false => exact Iff.rfl
  | true =>
    cases hasEvery with
    | false => exact Iff.rfl
    | true =>
      simp only [if_true, List.findSome?_eq_none_iff, List.forall_mem_map]
      exact forall₂_congr fun w _ => rangeConflict_recast hf w

/-- **Rules stand together if they do so recast.** -/
theorem stands_recast {D : Zone.Database} :
    Stands D (rules.map (Rule.recast f)) ↔ Stands D rules := by
  -- check by check, nothing that is asked looks at more of a text than what it stands for
  have hprimary : (∃ r ∈ rules.map (Rule.recast f), r.isPrimary = true)
      ↔ ∃ r ∈ rules, r.isPrimary = true := by
    simp [Rule.isPrimary_recast]
  have hcadence : (∀ e ∈ (everys rules).map (Every.recast f), everyConflict e = none)
      ↔ ∀ e ∈ everys rules, everyConflict e = none := by
    rw [List.forall_mem_map]
    exact forall₂_congr fun e _ => everyConflict_recast hf e
  have hunits : (∀ e ∈ (everys rules).map (Every.recast f), ∀ s ∈ fixedUnits rules, ∀ u ∈ s.units,
      unitConflict e u = none) ↔ ∀ e ∈ everys rules, ∀ s ∈ fixedUnits rules, ∀ u ∈ s.units,
      unitConflict e u = none := by
    rw [List.forall_mem_map]
    simp only [unitConflict_recast]
  have hwindows : (∀ r ∈ rules.map (Rule.recast f),
      windowConflict ((everys rules).map (Every.recast f)).head?.isSome r = none)
      ↔ ∀ r ∈ rules, windowConflict (everys rules).head?.isSome r = none := by
    rw [List.forall_mem_map, List.head?_map, Option.isSome_map]
    exact forall₂_congr fun r _ => windowConflict_recast hf _ r
  have hvalues : (∀ r ∈ rules.map (Rule.recast f), ∀ v ∈ r.fixedValues, valueConflict v = none)
      ↔ ∀ r ∈ rules, ∀ v ∈ r.fixedValues, valueConflict v = none := by
    rw [List.forall_mem_map]
    refine forall₂_congr fun r _ => ?_
    rw [Rule.fixedValues_recast, Values.recast, List.forall_mem_map]
    exact forall₂_congr fun v _ => valueConflict_recast hf v
  have heverys := everys_recast f rules
  have hfixed := fixedUnits_recast f rules
  have hzones := zones_recast f rules
  constructor
  · rintro ⟨h₁, h₂, h₃, h₄, h₅, h₆, h₇, h₈, h₉⟩
    -- units, cadences and zones are the same lists as before
    rw [heverys] at h₂ h₃ h₄ h₆
    rw [hfixed] at h₄ h₅
    rw [hzones] at h₈ h₉
    rw [List.length_map] at h₂
    exact ⟨hprimary.1 h₁, h₂, hcadence.1 h₃, hunits.1 h₄, h₅, hwindows.1 h₆, hvalues.1 h₇, h₈, h₉⟩
  · rintro ⟨h₁, h₂, h₃, h₄, h₅, h₆, h₇, h₈, h₉⟩
    refine ⟨hprimary.2 h₁, ?_, ?_, ?_, ?_, ?_, hvalues.2 h₇, ?_, ?_⟩
    · rwa [heverys, List.length_map]
    · rwa [heverys, hcadence]
    · rwa [heverys, hfixed, hunits]
    · rwa [hfixed]
    · rwa [heverys, hwindows]
    · rwa [hzones]
    · rwa [hzones]

end RuleSet

end Recurrence
