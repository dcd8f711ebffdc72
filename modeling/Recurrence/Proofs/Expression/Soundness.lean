import Recurrence.Proofs.Expression.RoundTrips
import Recurrence.Proofs.Rule.Checks
import Recurrence.Proofs.Search.Alternatives

/-!
What an accepted text is made of. Readers give each unit of a value once and every record of a list
the same units, so the columns of a list make a table; the checks of rules give the rest.

Main statement: `Expression.sound_of_parse`.
-/

namespace Recurrence

open Token

/-- The columns make a table: there is a record, each column has an entry for each of them, and a
record has one text for each of the units. -/
structure Columns.Tabular (c : Columns) : Prop where
  pos : 0 < c.length
  column : ∀ u texts, c.lists.get? u = some texts → c.units.has u = true ∧ texts.length = c.length
  record : ∀ i < c.length, (c.record i).map Prod.fst = c.units.units

def Range.Populated (r : Range) : Prop := ∃ u, r.units.has u = true

/-- What rules that were accepted together are like. -/
structure Expression.Sound (rules : List Rule) : Prop where
  cadences : (rules.filter fun r => r.every?.isSome).length ≤ 1
  interval : ∀ e, .every e ∈ rules → 1 ≤ e.interval
  /-- Rules that fix values have no unit in common. -/
  apart : (rules.filter Rule.isFixed).Pairwise fun r s => ∀ u,
    ¬(r.units.has u = true ∧ s.units.has u = true)
  /-- The unit of the cadence is not fixed, unless it is the week without an anchor. -/
  free : ∀ e, .every e ∈ rules → ∀ r ∈ rules, r.isFixed = true → r.units.has e.unit = true →
    e.unit = .week ∧ e.anchor = none
  columns : ∀ c, .oneOf c ∈ rules → c.Tabular
  populated : ∀ r ∈ rules, r.isWindow = true → r.ranges ≠ [] ∧ ∀ range ∈ r.ranges, range.Populated
  /-- The ranges of a list bound the same units. -/
  shape : ∀ r ∈ rules, ∀ range ∈ r.ranges, ∀ other ∈ r.ranges, range.units = other.units
  /-- A range goes with a cadence. -/
  windows : ∀ r ∈ rules, r.isWindow = true → ∃ e, .every e ∈ rules
  zone : (rules.filter fun r => r.zone?.isSome).length ≤ 1

namespace Columns

variable {c : Columns}

lemma units_record {i : Nat} (h : ∀ u texts, c.lists.get? u = some texts → i < texts.length) :
    (c.record i).map Prod.fst = c.units.units := by
  have hall : ∀ us : List TimeUnit, (∀ u ∈ us, (c.lists.get? u).isSome = true) →
      (us.filterMap fun u => (c.lists.get? u).bind fun texts => texts[i]?.map
        fun text => (u, text)).map
        Prod.fst = us := by
    intro us hus
    induction us with
    | nil => rfl
    | cons u us ih =>
      obtain ⟨hu, hus⟩ := List.forall_mem_cons.1 hus
      obtain ⟨texts, ht⟩ := Option.isSome_iff_exists.1 hu
      have hentry : texts[i]? = some (texts.get ⟨i, h u texts ht⟩) :=
        List.getElem?_eq_getElem (h u texts ht)
      rw [List.filterMap_cons_some (b := (u, texts.get ⟨i, h u texts ht⟩))
        (by rw [ht, Option.bind_some, hentry]; rfl), List.map_cons, ih hus]
  refine hall _ fun u hu => ?_
  rw [UnitSet.mem_units, units, UnitMap.has_units, Bool.and_eq_true] at hu
  exact hu.1

lemma Tabular.aligned (h : c.Tabular) : c.Aligned :=
  fun p hp => (h.column p.1 p.2 (UnitMap.mem_toList.1 hp)).2

/-- Records with the same units make a table. -/
theorem Alike.tabular {records : List Values} {shape : UnitSet} (h : Alike records shape)
    (hne : records ≠ []) : (ofRecords records).Tabular := by
  have hcolumn : ∀ u texts, (ofRecords records).lists.get? u = some texts →
      shape.has u = true ∧ texts.length = records.length := by
    intro u texts ht
    rw [h.get? hne] at ht
    split at ht
    · rename_i hu
      cases ht
      exact ⟨hu, h.length_column hu⟩
    · cases ht
  have hlength := h.length_eq hne
  refine ⟨?_, fun u texts ht => ?_, fun i hi => ?_⟩
  · rw [hlength]
    exact List.length_pos_iff.2 hne
  · have hzone : u ≠ .timeZone := by
      rintro rfl
      simpa using (hcolumn _ _ ht).1
    rw [Columns.units, UnitMap.has_units, ht, hlength]
    exact ⟨by simp [hzone], (hcolumn u texts ht).2⟩
  · exact units_record fun u texts ht => by rw [(hcolumn u texts ht).2, ← hlength]; exact hi

end Columns

lemma Range.Formed.populated {r : Range} (h : r.Formed) : r.Populated := by
  obtain ⟨starts, stops, hs, ht, hunits, rfl⟩ := h
  have hnonempty := hs.isEmpty_units
  rw [Bool.eq_false_iff, Ne, UnitSet.isEmpty_iff, not_forall] at hnonempty
  obtain ⟨u, hu⟩ := hnonempty
  rw [Bool.not_eq_false, Values.has_units, Bool.and_eq_true] at hu
  refine ⟨u, ?_⟩
  rw [units, UnitMap.has_units, isSome_get?_ofSides hs.nodup hunits hs.zone ht.zone, hu.1]
  simpa using hu.2

namespace RuleSet

variable {D : Zone.Database} {rules : List Rule} {e : Every}

lemma mem_everys : e ∈ everys rules ↔ .every e ∈ rules := by
  rw [everys, List.mem_filterMap]
  constructor
  · rintro ⟨r, hr, he⟩
    cases r <;> cases he
    exact hr
  · exact fun h => ⟨_, h, rfl⟩

lemma Stands.interval_pos (h : Stands D rules) (he : .every e ∈ rules) : 1 ≤ e.interval := by
  have hcadence := h.cadence e (mem_everys.2 he)
  unfold everyConflict at hcadence
  split at hcadence
  · cases hcadence
  · omega

lemma Stands.apart_units (h : Stands D rules) :
    (rules.filter Rule.isFixed).Pairwise fun r s => ∀ u,
      ¬(r.units.has u = true ∧ s.units.has u = true) := by
  have hapart := h.apart
  rw [fixedUnits, List.pairwise_map] at hapart
  refine hapart.imp fun hrs u hu => ?_
  rw [UnitSet.intersects_eq_false] at hrs
  simpa [hu.1, hu.2] using hrs u

lemma Stands.free (h : Stands D rules) (he : .every e ∈ rules) {r : Rule} (hr : r ∈ rules)
    (hfixed : r.isFixed = true) (hu : r.units.has e.unit = true) :
    e.unit = .week ∧ e.anchor = none := by
  have hmem : r.units ∈ fixedUnits rules := List.mem_map_of_mem (List.mem_filter.2 ⟨hr, hfixed⟩)
  have hnone := h.units e (mem_everys.2 he) _ hmem _ (UnitSet.mem_units.2 hu)
  by_cases hw : e.unit = .week
  · cases ha : e.anchor with
    | none => exact ⟨hw, rfl⟩
    | some a => simp [unitConflict, hw, ha] at hnone
  · simp [unitConflict, hw] at hnone

lemma Stands.exists_every (h : Stands D rules) {r : Rule} (hr : r ∈ rules)
    (hwindow : r.isWindow = true) :
    ∃ e, .every e ∈ rules := by
  have hnone := h.windows r hr
  rw [windowConflict, if_pos hwindow] at hnone
  split at hnone
  · rename_i hevery
    obtain ⟨e, he⟩ := Option.isSome_iff_exists.1 hevery
    exact ⟨e, mem_everys.1 (List.mem_of_head? he)⟩
  · cases hnone

end RuleSet

namespace Expression

variable {D : Zone.Database} {text : String} {ceiling : Nat} {e : Expression}

/-- The lists of an accepted text have a text for each record. -/
theorem aligned_of_parse {c : Columns} (h : parse D text ceiling = .ok e)
    (hc : .oneOf c ∈ e.rules) :
    c.Aligned := by
  cases formed_of_parse h _ hc with
  | oneOf halike hne => exact (halike.tabular hne).aligned

/-- **What is accepted is sound.** -/
theorem sound_of_parse (h : parse D text ceiling = .ok e) : Sound e.rules := by
  have hstands := RuleSet.conflict?_eq_none_iff.1 (parse_eq_ok h).2.1
  have hformed := formed_of_parse h
  have hcount {α : Type} (f : Rule → Option α) (hone : (e.rules.filterMap f).length ≤ 1) :
      (e.rules.filter fun r => (f r).isSome).length ≤ 1 := by
    rwa [List.length_filterMap_eq_countP, List.countP_eq_length_filter] at hone
  refine ⟨hcount _ hstands.cadences, fun c hc => hstands.interval_pos hc, hstands.apart_units,
    fun c hc r hr => hstands.free hc hr, fun c hc => ?_, fun r hr hwindow => ?_, fun r hr => ?_,
    fun r hr => hstands.exists_every hr, hcount _ hstands.zone⟩
  · cases hformed _ hc with
    | oneOf halike hne => exact halike.tabular hne
  · cases hformed r hr with
    | within hrange => exact ⟨by simp [Rule.ranges], List.forall_mem_singleton.2 hrange.populated⟩
    | withinAny hne hranges => exact ⟨hne, fun range hrange => (hranges range hrange).populated⟩
    | every | equals | oneOf | zone => cases hwindow
  · cases hformed r hr with
    | within => simp [Rule.ranges]
    | withinAny _ _ hshape => exact fun a ha b hb => (hshape a ha).trans (hshape b hb).symm
    | every | equals | oneOf | zone => simp [Rule.ranges]

/-- A cadence with a list of weekdays, a clock time and a list of ranges. -/
theorem sound_of_parse_weekdays :
    ∃ e, parse .empty
      "@every 2 weeks @on [monday, friday] @at 9:30 @between [march and may, october and november]"
      standardCeiling = .ok e ∧ Sound e.rules := by
  obtain ⟨e, he, -⟩ := exists_of_any .empty
    "@every 2 weeks @on [monday, friday] @at 9:30 @between [march and may, october and november]"
    standardCeiling (fun _ => true) (by decide +kernel)
  exact ⟨e, he, sound_of_parse he⟩

end Expression

end Recurrence
