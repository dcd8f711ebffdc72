import Mathlib.Data.List.Pairwise
import Mathlib.Tactic.Tauto
import Recurrence.RuleSet

/-!
What it takes for rules to stand together. Each check is about all rules at once, about each of them
or about each two, so that none depends on the order of the rules.

Main statements: `conflict?_eq_none_iff` and `Stands.perm`.
-/

namespace Recurrence

namespace UnitSet

variable {s t u : UnitSet}

lemma intersects_eq_false : s.intersects t = false ↔ ∀ u, (s.has u && t.has u) = false := by
  have hempty : s.intersects t = false ↔ s ∩ t = ∅ := by
    simp [intersects, isEmpty]
  rw [hempty]
  constructor
  · intro h u
    rw [← has_inter, h, has_empty]
  · intro h
    refine ext_has fun u => ?_
    rw [has_inter, h u, has_empty]

lemma intersects_comm (s t : UnitSet) : s.intersects t = t.intersects s := by
  rw [Bool.eq_iff_iff, ← not_iff_not, Bool.not_eq_true, Bool.not_eq_true, intersects_eq_false,
    intersects_eq_false]
  simp only [Bool.and_comm]

lemma union_intersects :
    (s ∪ t).intersects u = false ↔ s.intersects u = false ∧ t.intersects u = false := by
  simp only [intersects_eq_false, has_union, Bool.and_or_distrib_right, Bool.or_eq_false_iff,
    forall_and]

lemma empty_intersects (s : UnitSet) : (∅ : UnitSet).intersects s = false := by
  rw [intersects_eq_false]
  simp

end UnitSet

namespace RuleSet

variable {D : Zone.Database} {rules rules' : List Rule}

/-- What the checks of rules ask for. -/
structure Stands (D : Zone.Database) (rules : List Rule) : Prop where
  primary : ∃ r ∈ rules, r.isPrimary = true
  cadences : (everys rules).length ≤ 1
  cadence : ∀ e ∈ everys rules, everyConflict e = none
  units : ∀ e ∈ everys rules, ∀ s ∈ fixedUnits rules, ∀ u ∈ s.units, unitConflict e u = none
  apart : (fixedUnits rules).Pairwise fun s t => s.intersects t = false
  windows : ∀ r ∈ rules, windowConflict (everys rules).head?.isSome r = none
  values : ∀ r ∈ rules, ∀ v ∈ r.fixedValues, valueConflict v = none
  known : ∀ id ∈ zones rules, D.isKnown id = true
  zone : (zones rules).length ≤ 1

lemma overlaps_eq_false {seen : UnitSet} {sets : List UnitSet} : overlaps seen sets = false
    ↔ (∀ s ∈ sets, seen.intersects s = false)
      ∧ sets.Pairwise fun s t => s.intersects t = false := by
  induction sets generalizing seen with
  | nil => simp [overlaps]
  | cons s sets ih =>
    rw [overlaps, Bool.or_eq_false_iff, ih, List.forall_mem_cons, List.pairwise_cons]
    simp only [UnitSet.union_intersects, forall_and]
    tauto

lemma bind_head?_eq_none {α β : Type} {as : List α} (h : as.length ≤ 1) {f : α → Option β} :
    as.head?.bind f = none ↔ ∀ a ∈ as, f a = none := by
  rcases as with _ | ⟨a, _ | ⟨b, as⟩⟩
  · simp
  · simp
  · simp at h

/-- There is no conflict exactly if every check passes. -/
theorem conflict?_eq_none_iff : conflict? D rules = none ↔ Stands D rules := by
  unfold conflict?
  extract_lets every? fixed
  by_cases hprimary : rules.any Rule.isPrimary = true
  -- the later checks look at the one cadence only once it is known to be alone
  · by_cases hone : (everys rules).length ≤ 1
    · have hapart : overlaps ∅ fixed = false
          ↔ fixed.Pairwise fun s t => s.intersects t = false := by
        rw [overlaps_eq_false]
        exact and_iff_right fun s _ => UnitSet.empty_intersects s
      have hknown : ((zones rules).find? fun id => !D.isKnown id) = none
          ↔ ∀ id ∈ zones rules, D.isKnown id = true := by
        simp [List.find?_eq_none]
      rw [if_neg (by simpa using hprimary), if_neg (Nat.not_lt.2 hone)]
      simp only [Option.orElse_eq_orElse, Option.orElse_eq_or, Option.or_eq_none_iff,
        Option.map_eq_none_iff, List.findSome?_eq_none_iff, hknown, every?,
        bind_head?_eq_none hone, List.forall_mem_flatMap, ite_eq_right_iff, reduceCtorEq, imp_false,
        Bool.not_eq_true, hapart, Nat.not_lt]
      constructor
      · rintro ⟨hunits, hapart, hwindows, hvalues, hknown, hzone, hcadence⟩
        exact ⟨List.any_eq_true.1 hprimary, hone, hcadence, hunits, hapart, hwindows, hvalues,
          hknown, hzone⟩
      · rintro ⟨-, -, hcadence, hunits, hapart, hwindows, hvalues, hknown, hzone⟩
        exact ⟨hunits, hapart, hwindows, hvalues, hknown, hzone, hcadence⟩
    · rw [if_neg (by simpa using hprimary), if_pos (Nat.lt_of_not_le hone)]
      exact ⟨fun h => (by cases h), fun h => absurd h.cadences hone⟩
  · rw [if_pos (by simpa using hprimary)]
    exact ⟨fun h => (by cases h), fun h => absurd (List.any_eq_true.2 h.primary) hprimary⟩

lemma eq_of_perm {α : Type} {as bs : List α} (h : as.Perm bs) (hone : as.length ≤ 1) : as = bs := by
  rcases as with _ | ⟨a, _ | ⟨b, as⟩⟩
  · exact (List.nil_perm.1 h).symm
  · exact List.singleton_perm.1 h
  · simp at hone

variable (h : rules.Perm rules')

include h

lemma everys_perm : (everys rules).Perm (everys rules') := h.filterMap _

lemma zones_perm : (zones rules).Perm (zones rules') := h.filterMap _

lemma fixedUnits_perm : (fixedUnits rules).Perm (fixedUnits rules') := (h.filter _).map _

/-- Rules that stand together do so in any order. -/
theorem Stands.perm (hr : Stands D rules) : Stands D rules' where
  primary := by
    obtain ⟨r, hr, hp⟩ := hr.primary
    exact ⟨r, h.mem_iff.1 hr, hp⟩
  cadences := (everys_perm h).length_eq ▸ hr.cadences
  cadence e he := hr.cadence e ((everys_perm h).mem_iff.2 he)
  units e he s hs := hr.units e ((everys_perm h).mem_iff.2 he) s ((fixedUnits_perm h).mem_iff.2 hs)
  apart := ((fixedUnits_perm h).pairwise_iff fun hst => by
    rwa [UnitSet.intersects_comm]).1 hr.apart
  windows r hr' := by
    rw [← eq_of_perm (everys_perm h) hr.cadences]
    exact hr.windows r (h.mem_iff.2 hr')
  values r hr' := hr.values r (h.mem_iff.2 hr')
  known id hid := hr.known id ((zones_perm h).mem_iff.2 hid)
  zone := (zones_perm h).length_eq ▸ hr.zone

end RuleSet

end Recurrence
