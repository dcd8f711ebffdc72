import Mathlib.Data.List.Nodup
import Recurrence.Proofs.Value.Composites
import Recurrence.Rule.Reading

/-!
What rules file under units, and what they list. The bounds of a range are filed from two values
with the same units, and its starts and ends list them again, in another order; so do the columns of
a list and its records. Values that are the same up to their order are filed alike.

Main statements: `Range.same_starts`, `Range.same_stops` and `Columns.same_records`.
-/

namespace Recurrence

variable {α : Type} {u : TimeUnit} {us : List TimeUnit} {vs ws : Values}

/-! ### Maps and their lists -/

lemma lookup_filterMap (f : TimeUnit → Option α) (us : List TimeUnit) (u : TimeUnit) :
    (us.filterMap fun v => (f v).map fun a => (v, a)).lookup u = if u ∈ us then f u else none := by
  induction us with
  | nil => rfl
  | cons v us ih =>
    cases hv : f v with
    | none =>
      rw [List.filterMap_cons_none (by rw [hv]; rfl), ih]
      by_cases huv : u = v
      · subst huv
        simp [hv]
      · simp [huv]
    | some a =>
      rw [List.filterMap_cons_some (b := (v, a)) (by rw [hv]; rfl), List.lookup_cons]
      by_cases huv : u = v
      · subst huv
        simp [hv]
      · rw [beq_eq_false_iff_ne.2 huv, ih]
        simp [huv]

lemma nodup_filterMap (f : TimeUnit → Option α) (hus : us.Nodup) :
    ((us.filterMap fun v => (f v).map fun a => (v, a)).map Prod.fst).Nodup := by
  have hsub : ((us.filterMap fun v => (f v).map fun a => (v, a)).map Prod.fst).Sublist us := by
    clear hus
    induction us with
    | nil => exact List.Sublist.refl _
    | cons v us ih =>
      cases hv : f v with
      | none =>
        rw [List.filterMap_cons_none (by rw [hv]; rfl)]
        exact ih.cons _
      | some a =>
        rw [List.filterMap_cons_some (b := (v, a)) (by rw [hv]; rfl)]
        exact ih.cons_cons _
  exact hsub.nodup hus

lemma UnitSet.nodup_units (s : UnitSet) : s.units.Nodup :=
  List.Nodup.filter _ (by decide)

namespace UnitMap

lemma get?_foldl_insert {pairs : List (TimeUnit × α)} (h : (pairs.map Prod.fst).Nodup)
    (m : UnitMap α) (u : TimeUnit) :
    (pairs.foldl (fun m p => m.insert p.1 p.2) m).get? u = (pairs.lookup u).or (m.get? u) := by
  induction pairs generalizing m with
  | nil => rfl
  | cons p pairs ih =>
    rw [List.map_cons, List.nodup_cons] at h
    rw [List.foldl_cons, ih h.2, List.lookup_cons, get?_insert]
    by_cases hu : u = p.1
    · have hnone : pairs.lookup u = none := by
        rw [List.lookup_eq_none_iff]
        intro q hq
        refine bne_iff_ne.2 fun heq => h.1 ?_
        exact List.mem_map.2 ⟨q, hq, heq.symm.trans hu⟩
      rw [hnone, if_pos hu, hu, beq_self_eq_true]
      rfl
    · rw [beq_eq_false_iff_ne.2 hu, if_neg hu]

lemma get?_ofList {pairs : List (TimeUnit × α)} (h : (pairs.map Prod.fst).Nodup) (u : TimeUnit) :
    (ofList pairs).get? u = pairs.lookup u := by
  rw [ofList, get?_foldl_insert h, get?_empty, Option.or_none]

end UnitMap

namespace Values

lemma Same.units_eq (h : vs.Same ws) : vs.units = ws.units :=
  UnitSet.ext_has fun u => by rw [has_units, has_units, h.2]

end Values

/-! ### Ranges -/

namespace Range

variable {r : Range}

lemma lookup_side (pick : String × String → String) (hz : r.bounds.get? .timeZone = none)
    (u : TimeUnit) :
    (r.units.units.filterMap fun v => (r.bounds.get? v).map fun b => (v, pick b)).lookup u
      = (r.bounds.get? u).map pick := by
  have hside := lookup_filterMap (fun v => (r.bounds.get? v).map pick) r.units.units u
  simp only [Option.map_map, Function.comp_def] at hside
  rw [hside]
  cases hu : r.bounds.get? u with
  | none => exact ite_self _
  | some b =>
    refine if_pos ?_
    have hne : u ≠ .timeZone := by
      rintro rfl
      rw [hz] at hu
      cases hu
    rw [UnitSet.mem_units, units, UnitMap.has_units, hu]
    simp [hne]

lemma nodup_side (pick : String × String → String) (r : Range) :
    ((r.units.units.filterMap fun v =>
      (r.bounds.get? v).map fun b => (v, pick b)).map Prod.fst).Nodup := by
  have hside := nodup_filterMap (fun v => (r.bounds.get? v).map pick) r.units.nodup_units
  simpa only [Option.map_map, Function.comp_def] using hside

def ofSides (starts stops : Values) : Range :=
  ⟨UnitMap.ofList
    (starts.filterMap fun p => (stops.lookup p.1).map fun other => (p.1, (p.2, other)))⟩

variable {starts stops : Values}

lemma lookup_bounds (starts stops : Values) (u : TimeUnit) :
    (starts.filterMap fun p => (stops.lookup p.1).map fun other => (p.1, (p.2, other))).lookup u
      = (starts.lookup u).bind fun text => (stops.lookup u).map fun other => (text, other) := by
  induction starts with
  | nil => rfl
  | cons p starts ih =>
    rw [List.lookup_cons]
    by_cases hu : u = p.1
    · subst hu
      rw [beq_self_eq_true]
      cases hp : stops.lookup p.1 with
      | none =>
        rw [List.filterMap_cons_none (by rw [hp]; rfl), ih, hp]
        cases starts.lookup p.1 <;> rfl
      | some other =>
        rw [List.filterMap_cons_some (b := (p.1, (p.2, other))) (by rw [hp]; rfl),
          List.lookup_cons, beq_self_eq_true]
        rfl
    · rw [beq_eq_false_iff_ne.2 hu, ← ih]
      cases hp : stops.lookup p.1 with
      | none => rw [List.filterMap_cons_none (by rw [hp]; rfl)]
      | some other =>
        rw [List.filterMap_cons_some (b := (p.1, (p.2, other))) (by rw [hp]; rfl),
          List.lookup_cons, beq_eq_false_iff_ne.2 hu]

lemma nodup_bounds (h : (starts.map Prod.fst).Nodup) (stops : Values) :
    ((starts.filterMap fun p =>
      (stops.lookup p.1).map fun other => (p.1, (p.2, other))).map Prod.fst).Nodup := by
  have hsub : ((starts.filterMap fun p =>
      (stops.lookup p.1).map fun other => (p.1, (p.2, other))).map Prod.fst).Sublist
      (starts.map Prod.fst) := by
    clear h
    induction starts with
    | nil => exact List.Sublist.refl _
    | cons p starts ih =>
      cases hp : stops.lookup p.1 with
      | none =>
        rw [List.filterMap_cons_none (by rw [hp]; rfl)]
        exact ih.cons _
      | some other =>
        rw [List.filterMap_cons_some (b := (p.1, (p.2, other))) (by rw [hp]; rfl)]
        exact ih.cons_cons _
  exact hsub.nodup h

lemma get?_ofSides (h : (starts.map Prod.fst).Nodup) (u : TimeUnit) :
    (ofSides starts stops).bounds.get? u
      = (starts.lookup u).bind fun text => (stops.lookup u).map fun other => (text, other) := by
  rw [ofSides, UnitMap.get?_ofList (nodup_bounds h stops), lookup_bounds]

lemma ofSides_congr {starts' stops' : Values} (h : starts'.Same starts) (h' : stops'.Same stops)
    (hs : (starts.map Prod.fst).Nodup) : ofSides starts' stops' = ofSides starts stops := by
  have hbounds : (ofSides starts' stops').bounds = (ofSides starts stops).bounds :=
    UnitMap.ext_get? fun u => by rw [get?_ofSides h.1, get?_ofSides hs, h.2, h'.2]
  exact Range.mk.injEq _ _ ▸ hbounds

variable (hs : (starts.map Prod.fst).Nodup) (hunits : starts.units = stops.units)
  (hz : starts.lookup .timeZone = none) (hz' : stops.lookup .timeZone = none)

include hunits hz hz' in
lemma isSome_lookup (u : TimeUnit) : (starts.lookup u).isSome = (stops.lookup u).isSome := by
  by_cases hu : u = .timeZone
  · rw [hu, hz, hz']
  · have h := congrArg (UnitSet.has · u) hunits
    simpa [Values.has_units, hu] using h

include hs hunits hz hz' in
lemma isSome_get?_ofSides (u : TimeUnit) :
    ((ofSides starts stops).bounds.get? u).isSome = (starts.lookup u).isSome := by
  have hsome := isSome_lookup hunits hz hz' u
  rw [get?_ofSides hs]
  cases h : starts.lookup u with
  | none => rfl
  | some text =>
    rw [h] at hsome
    obtain ⟨other, ho⟩ := Option.isSome_iff_exists.1 hsome.symm
    rw [ho]
    rfl

include hs hunits hz hz' in
lemma same_starts : (ofSides starts stops).starts.Same starts := by
  refine ⟨nodup_side Prod.fst _, fun u => ?_⟩
  have hnone : (ofSides starts stops).bounds.get? .timeZone = none := by
    rw [get?_ofSides hs, hz]
    rfl
  have hside := lookup_side (r := ofSides starts stops) Prod.fst hnone u
  rw [get?_ofSides hs] at hside
  refine hside.trans ?_
  have hsome := isSome_lookup hunits hz hz' u
  cases h : starts.lookup u with
  | none => rfl
  | some text =>
    rw [h] at hsome
    obtain ⟨other, ho⟩ := Option.isSome_iff_exists.1 hsome.symm
    rw [ho]
    rfl

include hs hunits hz hz' in
lemma same_stops : (ofSides starts stops).stops.Same stops := by
  refine ⟨nodup_side Prod.snd _, fun u => ?_⟩
  have hnone : (ofSides starts stops).bounds.get? .timeZone = none := by
    rw [get?_ofSides hs, hz]
    rfl
  have hside := lookup_side (r := ofSides starts stops) Prod.snd hnone u
  rw [get?_ofSides hs] at hside
  refine hside.trans ?_
  have hsome := isSome_lookup hunits hz hz' u
  cases h : stops.lookup u with
  | none =>
    cases starts.lookup u <;> rfl
  | some other =>
    rw [h] at hsome
    obtain ⟨text, ht⟩ := Option.isSome_iff_exists.1 hsome
    rw [ht]
    rfl

end Range

/-! ### Columns -/

namespace Rule

variable {record : Values} {records : List Values} {m : UnitMap (List String)}

lemma get?_addRecord (h : (record.map Prod.fst).Nodup) (m : UnitMap (List String)) (u : TimeUnit) :
    (addRecord m record).get? u
      = ((record.lookup u).map fun text => (m.get? u).getD [] ++ [text]).or (m.get? u) := by
  unfold addRecord
  induction record generalizing m with
  | nil => rfl
  | cons p record ih =>
    rw [List.map_cons, List.nodup_cons] at h
    rw [List.foldl_cons, ih h.2, List.lookup_cons, UnitMap.get?_insert]
    by_cases hu : u = p.1
    · have hnone : record.lookup u = none := by
        rw [List.lookup_eq_none_iff]
        intro q hq
        exact bne_iff_ne.2 fun heq => h.1 (List.mem_map.2 ⟨q, hq, heq.symm.trans hu⟩)
      rw [hnone, if_pos hu, hu, beq_self_eq_true]
      rfl
    · rw [beq_eq_false_iff_ne.2 hu, if_neg hu]

lemma foldl_addRecord_congr {records' : List Values} (h : List.Forall₂ Values.Same records' records)
    (hs : ∀ r ∈ records, (r.map Prod.fst).Nodup) (m : UnitMap (List String)) :
    records'.foldl addRecord m = records.foldl addRecord m := by
  induction h generalizing m with
  | nil => rfl
  | cons hr _ ih =>
    obtain ⟨hr', hrest⟩ := List.forall_mem_cons.1 hs
    rw [List.foldl_cons, List.foldl_cons, ih hrest]
    congr 1
    refine UnitMap.ext_get? fun u => ?_
    rw [get?_addRecord hr.1, get?_addRecord hr', hr.2]

lemma getD_foldl_addRecord (hs : ∀ r ∈ records, (r.map Prod.fst).Nodup) (m : UnitMap (List String))
    (u : TimeUnit) : ((records.foldl addRecord m).get? u).getD []
      = (m.get? u).getD [] ++ records.filterMap fun r => r.lookup u := by
  induction records generalizing m with
  | nil => simp
  | cons r records ih =>
    obtain ⟨hr, hrest⟩ := List.forall_mem_cons.1 hs
    rw [List.foldl_cons, ih hrest, get?_addRecord hr]
    cases hu : r.lookup u <;> simp [hu]

lemma isSome_foldl_addRecord (hs : ∀ r ∈ records, (r.map Prod.fst).Nodup)
    (m : UnitMap (List String)) (u : TimeUnit) : ((records.foldl addRecord m).get? u).isSome
      = ((m.get? u).isSome || records.any fun r => (r.lookup u).isSome) := by
  induction records generalizing m with
  | nil => simp
  | cons r records ih =>
    obtain ⟨hr, hrest⟩ := List.forall_mem_cons.1 hs
    rw [List.foldl_cons, ih hrest, get?_addRecord hr]
    cases hu : r.lookup u <;> simp [hu]

end Rule

lemma getElem?_filterMap {β : Type} {f : α → Option β} {as : List α}
    (h : ∀ a ∈ as, (f a).isSome = true) (i : Nat) : (as.filterMap f)[i]? = as[i]?.bind f := by
  induction as generalizing i with
  | nil => rfl
  | cons a as ih =>
    obtain ⟨ha, has⟩ := List.forall_mem_cons.1 h
    obtain ⟨b, hb⟩ := Option.isSome_iff_exists.1 ha
    rw [List.filterMap_cons_some hb]
    cases i with
    | zero => simp [hb]
    | succ i => simpa using ih has i

namespace Columns

def ofRecords (records : List Values) : Columns := ⟨records.foldl Rule.addRecord UnitMap.empty⟩

/-- Records that can be columns: each has a text for the same units, and none twice. -/
structure Alike (records : List Values) (shape : UnitSet) : Prop where
  nodup : ∀ r ∈ records, (r.map Prod.fst).Nodup
  zone : ∀ r ∈ records, r.lookup .timeZone = none
  units : ∀ r ∈ records, r.units = shape
  nonempty : shape.isEmpty = false

variable {records : List Values} {shape : UnitSet}

lemma Alike.isSome_lookup (h : Alike records shape) {r : Values} (hr : r ∈ records) (u : TimeUnit) :
    (r.lookup u).isSome = shape.has u := by
  rw [← h.units r hr, Values.has_units]
  by_cases hu : u = .timeZone
  · rw [hu, h.zone r hr]
    rfl
  · simp [hu]

lemma Alike.get? (h : Alike records shape) (hne : records ≠ []) (u : TimeUnit) :
    (ofRecords records).lists.get? u
      = if shape.has u = true then some (records.filterMap fun r => r.lookup u) else none := by
  have hsome := Rule.isSome_foldl_addRecord h.nodup UnitMap.empty u
  have hget := Rule.getD_foldl_addRecord h.nodup UnitMap.empty u
  -- one record tells which units have a column, since they are alike
  have hany : (records.any fun r => (r.lookup u).isSome) = shape.has u := by
    obtain ⟨r, rs, rfl⟩ := List.exists_cons_of_ne_nil hne
    cases hu : shape.has u with
    | true =>
      refine List.any_eq_true.2 ⟨r, List.mem_cons_self, ?_⟩
      rw [h.isSome_lookup List.mem_cons_self, hu]
    | false =>
      rw [List.any_eq_false]
      intro r hr
      rw [h.isSome_lookup hr, hu]
      decide
  rw [hany, UnitMap.get?_empty, Option.isSome_none, Bool.false_or] at hsome
  rw [UnitMap.get?_empty, Option.getD_none, List.nil_append] at hget
  show (records.foldl Rule.addRecord UnitMap.empty).get? u = _
  split
  · rename_i hu
    rw [hu] at hsome
    obtain ⟨texts, ht⟩ := Option.isSome_iff_exists.1 hsome
    rw [ht, Option.getD_some] at hget
    rw [ht, hget]
  · rename_i hu
    rw [Bool.eq_false_iff.2 hu] at hsome
    exact Option.isNone_iff_eq_none.1 (Option.isSome_eq_false_iff.1 hsome)

lemma Alike.length_column (h : Alike records shape) {u : TimeUnit} (hu : shape.has u = true) :
    (records.filterMap fun r => r.lookup u).length = records.length := by
  rw [List.length_filterMap_eq_countP, List.countP_eq_length]
  intro r hr
  rw [h.isSome_lookup hr, hu]

lemma Alike.length_eq (h : Alike records shape) (hne : records ≠ []) :
    (ofRecords records).length = records.length := by
  have hlist : (ofRecords records).lists.toList ≠ [] := by
    have hshape := h.nonempty
    rw [Bool.eq_false_iff, Ne, UnitSet.isEmpty_iff, not_forall] at hshape
    obtain ⟨u, hu⟩ := hshape
    rw [Bool.not_eq_false] at hu
    exact List.ne_nil_of_mem (UnitMap.mem_toList.2 ((h.get? hne u).trans (if_pos hu)))
  obtain ⟨⟨u, texts⟩, rest, hl⟩ := List.exists_cons_of_ne_nil hlist
  have hmem : (u, texts) ∈ (ofRecords records).lists.toList := by
    rw [hl]
    exact List.mem_cons_self
  rw [UnitMap.mem_toList, h.get? hne] at hmem
  unfold length
  rw [hl]
  split at hmem
  · obtain rfl := Option.some.inj hmem
    exact h.length_column ‹_›
  · cases hmem

lemma Alike.same_record (h : Alike records shape) {i : Nat} (hi : i < records.length) :
    ((ofRecords records).record i).Same records[i] := by
  have hne : records ≠ [] := List.ne_nil_of_length_pos (by omega)
  have hmem := List.getElem_mem hi
  let f (u : TimeUnit) : Option String :=
    ((ofRecords records).lists.get? u).bind fun texts => texts[i]?
  have hrecord : (ofRecords records).record i
      = (ofRecords records).units.units.filterMap fun u => (f u).map fun text => (u, text) := by
    simp only [record, f, Option.map_bind, Function.comp_def]
  rw [hrecord]
  refine ⟨nodup_filterMap f (UnitSet.nodup_units _), fun u => ?_⟩
  have hsome := h.isSome_lookup hmem u
  rw [lookup_filterMap]
  -- a unit that the records have is in the column at the place of the record; others have no column
  by_cases hu : shape.has u = true
  · have hget :
        (ofRecords records).lists.get? u = some (records.filterMap fun r => r.lookup u) := by
      rw [h.get? hne, if_pos hu]
    have hzone : u ≠ .timeZone := by
      rintro rfl
      simp at hu
    rw [if_pos (by rw [UnitSet.mem_units, Columns.units, UnitMap.has_units, hget]; simp [hzone])]
    show ((ofRecords records).lists.get? u).bind _ = _
    rw [hget, Option.bind_some, getElem?_filterMap fun r hr => by rw [h.isSome_lookup hr, hu],
      List.getElem?_eq_getElem hi]
    rfl
  · have hnone : records[i].lookup u = none := by
      rw [Bool.eq_false_iff.2 hu] at hsome
      exact Option.isNone_iff_eq_none.1 (Option.isSome_eq_false_iff.1 hsome)
    have hget : (ofRecords records).lists.get? u = none := by rw [h.get? hne, if_neg hu]
    rw [hnone]
    split
    · show ((ofRecords records).lists.get? u).bind _ = _
      rw [hget]
      rfl
    · rfl

/-- The records of columns are those that the columns are made of. -/
theorem Alike.same_records (h : Alike records shape) :
    List.Forall₂ Values.Same (ofRecords records).records records := by
  rcases eq_or_ne records [] with rfl | hne
  · exact .nil
  · have hl := h.length_eq hne
    rw [List.forall₂_iff_get]
    refine ⟨by simp [Columns.records, hl], fun i h₁ h₂ => ?_⟩
    have hrecord : (ofRecords records).records.get ⟨i, h₁⟩ = (ofRecords records).record i := by
      simp [Columns.records]
    rw [hrecord]
    exact h.same_record h₂

lemma Alike.ofRecords_records (h : Alike records shape) :
    ofRecords (ofRecords records).records = ofRecords records :=
  congrArg Columns.mk (Rule.foldl_addRecord_congr h.same_records h.nodup _)

end Columns

end Recurrence
