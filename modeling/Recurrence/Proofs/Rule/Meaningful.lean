import Recurrence.Proofs.Resolution.Months
import Recurrence.Proofs.Rule.Checks

/-!
Rules that mean something. The checks try the texts of rules in one month; a text that means
something there does so in every month.

Main statements: `RuleSet.meaningful_of_conflict` and `RuleSet.Stands.meaningful_texts`.
-/

namespace Recurrence

variable {u : TimeUnit} {text : String} {vs : Values} {r : Range}

def Values.Meaningful (vs : Values) : Prop := ∀ p ∈ vs, (RuleSet.probe p.1 p.2).isValid = true

def Range.Meaningful (r : Range) : Prop := r.starts.Meaningful ∧ r.stops.Meaningful

def Rule.Meaningful : Rule → Prop
  | .every e => ∀ text, e.anchor = some text → (RuleSet.probe e.unit text).isValid = true
  | .equals u text => Values.Meaningful [(u, text)]
  | .oneOf c => ∀ r ∈ c.records, r.Meaningful
  | .within r => r.Meaningful
  | .withinAny rs => ∀ r ∈ rs, r.Meaningful
  | .zone id => Zone.isName id = true ∧ Keyword.isRuleWord id = false

/-- The texts of a rule, each with the unit that it is a value of: the anchor of a cadence, the
fixed values and the bounds of windows. -/
def Rule.texts (r : Rule) : Values :=
  (r.every?.bind fun e => e.anchor.map fun anchor => (e.unit, anchor)).toList ++ r.fixedValues
    ++ r.ranges.flatMap fun w => w.starts ++ w.stops

namespace RuleSet

variable {rules : List Rule} {r : Rule}

/-! ### One month for all -/

lemma isValid_iff_ne_invalid {res : Resolution} : res.isValid = true ↔ res ≠ .invalid := by
  cases res <;> simp [Resolution.isValid]

lemma isValid_probe_iff : (probe u text).isValid = true ↔ Resolution.Meaningful u text := by
  rw [isValid_iff_ne_invalid]
  exact ⟨fun h y m hm hi => h ((Resolution.ofText_invalid_iff hm rfl u text).mp hi),
    fun h => h 1 1 rfl⟩

/-! ### What passes the checks -/

lemma isValid_of_everyConflict {e : Every} (h : everyConflict e = none)
    (htext : e.anchor = some text) : (probe e.unit text).isValid = true := by
  simp only [everyConflict, htext] at h
  split_ifs at h with _ hsome
  cases hp : probe e.unit text with
  | invalid => rw [hp] at hsome; cases hsome
  | _ => rfl

lemma isValid_of_valueConflict {v : TimeUnit × String} (h : valueConflict v = none) :
    (probe v.1 v.2).isValid = true := by
  unfold valueConflict at h
  split_ifs at h
  assumption

lemma meaningful_of_rangeConflict {r : Range} (h : rangeConflict r = none) : r.Meaningful := by
  have hnone : r.units.units.findSome? (boundConflict r) = none := by
    unfold rangeConflict at h
    split at h
    · cases h
    · assumption
  rw [List.findSome?_eq_none_iff] at hnone
  have hvalid : ∀ u ∈ r.units.units, ∀ b, r.bounds.get? u = some b →
      (probe u b.1).isValid = true ∧ (probe u b.2).isValid = true := by
    intro u hu b hb
    have hbound := hnone u hu
    unfold boundConflict at hbound
    rw [hb] at hbound
    dsimp only at hbound
    cases hs : probe u b.1 <;> cases ht : probe u b.2 <;> rw [hs, ht] at hbound <;>
      first | exact ⟨rfl, rfl⟩ | cases hbound
  constructor
  · intro p hp
    obtain ⟨u, hu, hp⟩ := List.mem_filterMap.1 hp
    obtain ⟨b, hb, rfl⟩ := Option.map_eq_some_iff.1 hp
    exact (hvalid u hu b hb).1
  · intro p hp
    obtain ⟨u, hu, hp⟩ := List.mem_filterMap.1 hp
    obtain ⟨b, hb, rfl⟩ := Option.map_eq_some_iff.1 hp
    exact (hvalid u hu b hb).2

lemma meaningful_of_windowConflict {hasEvery : Bool} (h : windowConflict hasEvery r = none) :
    ∀ w ∈ r.ranges, w.Meaningful := by
  intro w hw
  have hr : r.isWindow = true := by
    cases r with
    | within | withinAny => rfl
    | _ => cases hw
  rw [windowConflict, if_pos hr] at h
  split_ifs at h
  exact meaningful_of_rangeConflict (List.findSome?_eq_none_iff.1 h w hw)

lemma mem_fixedValues {c : Columns} {v : Values} (hv : v ∈ c.records) {p : TimeUnit × String}
    (hp : p ∈ v) : p ∈ (Rule.oneOf c).fixedValues := by
  obtain ⟨i, -, rfl⟩ := List.mem_map.1 hv
  obtain ⟨u, -, hp⟩ := List.mem_filterMap.1 hp
  obtain ⟨texts, htexts, hp⟩ := Option.bind_eq_some_iff.1 hp
  obtain ⟨text, ht, rfl⟩ := Option.map_eq_some_iff.1 hp
  exact List.mem_flatMap.2 ⟨(u, texts), UnitMap.mem_toList.2 htexts,
    List.mem_map.2 ⟨text, List.mem_of_getElem? ht, rfl⟩⟩

namespace Stands

variable {D : Zone.Database} (h : Stands D rules) (hr : r ∈ rules)

include h hr

lemma meaningful_fixedValues : r.fixedValues.Meaningful :=
  fun p hp => isValid_of_valueConflict (h.values r hr p hp)

lemma meaningful_ranges : ∀ w ∈ r.ranges, w.Meaningful :=
  meaningful_of_windowConflict (h.windows r hr)

lemma isValid_anchor {e : Every} (he : r.every? = some e) (htext : e.anchor = some text) :
    (probe e.unit text).isValid = true :=
  isValid_of_everyConflict (h.cadence e (List.mem_filterMap.2 ⟨r, hr, he⟩)) htext

/-- **The texts of rules that stand together mean something in every month.** -/
theorem meaningful_texts : ∀ v ∈ r.texts, Resolution.Meaningful v.1 v.2 := by
  intro v hv
  rw [← isValid_probe_iff]
  simp only [Rule.texts, List.mem_append, Option.mem_toList, Option.bind_eq_some_iff,
    Option.map_eq_some_iff, List.mem_flatMap] at hv
  rcases hv with (⟨e, he, text, htext, rfl⟩ | hv) | ⟨w, hw, hv | hv⟩
  · exact h.isValid_anchor hr he htext
  · exact h.meaningful_fixedValues hr v hv
  · exact (h.meaningful_ranges hr w hw).1 v hv
  · exact (h.meaningful_ranges hr w hw).2 v hv

end Stands

/-- The texts of rules that stand together mean something. -/
theorem meaningful_of_conflict {D : Zone.Database} (h : conflict? D rules = none) :
    ∀ r ∈ rules, r.Meaningful := by
  have hstands := conflict?_eq_none_iff.1 h
  intro r hr
  cases r with
  | every e => exact fun text htext => hstands.isValid_anchor hr rfl htext
  | equals u text => exact hstands.meaningful_fixedValues hr
  | oneOf c => exact fun v hv p hp => hstands.meaningful_fixedValues hr p (mem_fixedValues hv hp)
  | within s => exact hstands.meaningful_ranges hr s (List.mem_singleton_self s)
  | withinAny rs => exact hstands.meaningful_ranges hr
  | zone id =>
    have hknown := hstands.known id (List.mem_filterMap.2 ⟨_, hr, rfl⟩)
    exact ⟨D.named id hknown, D.notKeyword id hknown⟩

end RuleSet

end Recurrence
