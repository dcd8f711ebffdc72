import Recurrence.Proofs.Rule.ValueRuns

/-!
What the rules of a clause look like. A rule that has been read keeps values that have been read: a
cadence with the spelling of an anchor, single texts, columns of records with the same units, and
ranges between values with the same units.

Main statement: `formed_of_ofClause`.
-/

namespace Recurrence

open Token

/-- A token that the body of a clause can have. -/
structure Token.Usable (t : Token) : Prop where
  genuine : t.Genuine
  valid : t.fault = none
  free : t.keyword? = none

/-! ### Values -/

lemma Sole.ne_timeZone {u : TimeUnit} {text : String} (h : Sole u text) : u ≠ .timeZone := by
  cases h with
  | number hu => exact hu
  | month => decide
  | weekday => decide
  | special hu => exact hu

lemma dayText_iff {text : String} : DayText text ↔ Sole .day text := by
  constructor
  · intro h
    cases h with
    | number n => exact .number (by decide) n
    | special h => exact .special (by decide) h (Or.inl rfl)
  · intro h
    cases h with
    | number _ n => exact .number n
    | special _ h => exact .special h

lemma MonthText.sole {text : String} (h : MonthText text) : Sole .month text := by
  cases h with
  | number n => exact .number (by decide) n
  | name h => exact .month h
  | edge h => exact .special (by decide) h (Or.inr ⟨_, rfl⟩)

namespace Values

variable {vs ws : Values} {u : TimeUnit} {text : String}

def Formed (vs : Values) : Prop := (∃ u text, vs = [(u, text)] ∧ Sole u text) ∨ vs.Composite

lemma mem_iff_lookup (h : (vs.map Prod.fst).Nodup) : (u, text) ∈ vs ↔ vs.lookup u = some text := by
  refine ⟨fun hmem => ?_, mem_of_lookup⟩
  induction vs with
  | nil => cases hmem
  | cons p vs ih =>
    rw [List.map_cons, List.nodup_cons] at h
    rw [List.lookup_cons]
    rcases List.mem_cons.1 hmem with rfl | hmem
    · rw [beq_self_eq_true]
    · have hne : u ≠ p.1 := by
        rintro rfl
        exact h.1 (List.mem_map.2 ⟨_, hmem, rfl⟩)
      rw [beq_eq_false_iff_ne.2 hne]
      exact ih h.2 hmem

lemma Same.perm (h : ws.Same vs) (hv : (vs.map Prod.fst).Nodup) : ws.Perm vs := by
  rw [List.perm_ext_iff_of_nodup h.1.of_map hv.of_map]
  rintro ⟨u, text⟩
  rw [mem_iff_lookup h.1, mem_iff_lookup hv, h.2]

lemma Formed.nodup (h : vs.Formed) : (vs.map Prod.fst).Nodup := by
  rcases h with ⟨u, text, rfl, -⟩ | h
  · simp
  · exact h.nodup

lemma Formed.zone (h : vs.Formed) : vs.lookup .timeZone = none := by
  rcases h with ⟨u, text, rfl, h⟩ | h
  · rw [List.lookup_cons, beq_eq_false_iff_ne.2 h.ne_timeZone.symm]
    rfl
  · exact h.zone

lemma Formed.ne_nil (h : vs.Formed) : vs ≠ [] := by
  rcases h with ⟨u, text, rfl, -⟩ | h
  · simp
  · exact List.ne_nil_of_length_pos (by have := h.several; omega)

lemma Formed.isEmpty_units (h : vs.Formed) : vs.units.isEmpty = false := by
  obtain ⟨⟨u, text⟩, hmem⟩ := List.exists_mem_of_ne_nil _ h.ne_nil
  have hlookup := (mem_iff_lookup h.nodup).1 hmem
  have hu : u ≠ .timeZone := by
    rintro rfl
    rw [h.zone] at hlookup
    cases hlookup
  rw [Bool.eq_false_iff, Ne, UnitSet.isEmpty_iff, not_forall]
  exact ⟨u, by rw [has_units, hlookup]; simp [hu]⟩

lemma Formed.of_same (h : vs.Formed) (hs : ws.Same vs) : ws.Formed := by
  have hperm := hs.perm h.nodup
  rcases h with ⟨u, text, rfl, h⟩ | h
  · rw [List.perm_singleton] at hperm
    exact Or.inl ⟨u, text, hperm, h⟩
  · have hl := hs.2
    exact Or.inr
      { several := hperm.length_eq ▸ h.several
        nodup := hs.1
        week := hl _ ▸ h.week
        zone := hl _ ▸ h.zone
        number := fun u hu text ht => h.number u hu text (hl u ▸ ht)
        minute := by rw [hl, hl]; exact h.minute
        hour := by rw [hl, hl]; exact h.hour
        day := by rw [hl]; exact h.day
        month := by rw [hl]; exact h.month
        year := by rw [hl]; exact h.year
        monthPartner := by rw [hl, hl, hl]; exact h.monthPartner
        yearPartner := by rw [hl, hl, hl]; exact h.yearPartner
        dated := by rw [hl, hl]; exact h.dated }

/-- Each text is one that can stand by itself, but for a year with zeros in front. -/
lemma Formed.sole (h : vs.Formed) (hmem : (u, text) ∈ vs) :
    Sole u text ∨ u = .year ∧ YearText text := by
  have hlookup := (mem_iff_lookup h.nodup).1 hmem
  rcases h with ⟨u', text', rfl, h⟩ | h
  · obtain ⟨rfl, rfl⟩ := Prod.mk.inj (List.mem_singleton.1 hmem)
    exact Or.inl h
  · cases u
    case year => exact Or.inr ⟨rfl, h.year _ hlookup⟩
    case month => exact Or.inl (h.month _ hlookup).sole
    case day => exact Or.inl (dayText_iff.1 (h.day _ hlookup))
    case week =>
      rw [h.week] at hlookup
      cases hlookup
    case timeZone =>
      rw [h.zone] at hlookup
      cases hlookup
    all_goals
      obtain ⟨n, rfl⟩ := h.number _ (by decide) _ hlookup
      exact Or.inl (.number (by decide) n)

lemma Formed.of_singleton (h : Formed [(u, text)]) : Sole u text := by
  rcases h with ⟨u', text', heq, h⟩ | h
  · obtain ⟨rfl, rfl⟩ : u = u' ∧ text = text' := by simpa using heq
    exact h
  · exact absurd h.several (by simp)

lemma lookup_map {α : Type} (f : TimeUnit → String → α) (vs : Values) (u : TimeUnit) :
    (vs.map fun p => (p.1, f p.1 p.2)).lookup u = (vs.lookup u).map (f u) := by
  induction vs with
  | nil => rfl
  | cons p vs ih =>
    rw [List.map_cons, List.lookup_cons, List.lookup_cons]
    by_cases hu : u = p.1
    · subst hu
      rw [beq_self_eq_true]
      rfl
    · rw [beq_eq_false_iff_ne.2 hu]
      exact ih

section Replace

variable {f : TimeUnit → String}

lemma isSome_lookup_replace (f : TimeUnit → String) (vs : Values) (u : TimeUnit) :
    ((vs.map fun p => (p.1, f p.1)).lookup u).isSome = (vs.lookup u).isSome := by
  rw [lookup_map (fun u _ => f u), Option.isSome_map]

lemma eq_of_lookup_replace (h : (vs.map fun p => (p.1, f p.1)).lookup u = some text) :
    text = f u := by
  rw [lookup_map (fun u _ => f u)] at h
  obtain ⟨-, -, rfl⟩ := Option.map_eq_some_iff.1 h
  rfl

lemma lookup_replace_eq_none :
    (vs.map fun p => (p.1, f p.1)).lookup u = none ↔ vs.lookup u = none := by
  rw [lookup_map (fun u _ => f u), Option.map_eq_none_iff]

lemma Composite.replace (h : vs.Composite)
    (hf : ∀ u, u ≠ .timeZone → (∃ n : Nat, f u = toString n) ∨ u = .day ∧ DayText (f u)) :
    Composite (vs.map fun p => (p.1, f p.1)) := by
  have hsome := isSome_lookup_replace f vs
  -- but for the day every text is a number now
  have hnumber {u : TimeUnit} {text : String}
      (ht : (vs.map fun p => (p.1, f p.1)).lookup u = some text) (hu : u ≠ .timeZone)
      (hd : u ≠ .day) : ∃ n : Nat, text = toString n := by
    rw [eq_of_lookup_replace ht]
    exact (hf u hu).resolve_right fun h => hd h.1
  exact
    { several := by rw [List.length_map]; exact h.several
      nodup := by
        rw [List.map_map]
        exact h.nodup
      week := lookup_replace_eq_none.2 h.week
      zone := lookup_replace_eq_none.2 h.zone
      number := by
        intro u hu text ht
        refine hnumber ht ?_ ?_
        all_goals
          rintro rfl
          revert hu
          decide
      minute := by rw [hsome, hsome]; exact h.minute
      hour := by rw [hsome, hsome]; exact h.hour
      -- the day may have become one of its own words
      day := by
        intro text ht
        rw [eq_of_lookup_replace ht]
        rcases hf .day (by decide) with ⟨n, hn⟩ | ⟨-, hday⟩
        · rw [hn]
          exact .number n
        · exact hday
      month := by
        intro text ht
        obtain ⟨n, rfl⟩ := hnumber ht (by decide) (by decide)
        exact .number n
      year := fun text ht => Or.inl (hnumber ht (by decide) (by decide))
      monthPartner := by rw [hsome, hsome, hsome]; exact h.monthPartner
      yearPartner := by rw [hsome, hsome, hsome]; exact h.yearPartner
      dated := by
        rw [lookup_replace_eq_none, hsome]
        exact h.dated }

lemma Formed.replace (h : vs.Formed)
    (hf : ∀ u, u ≠ .timeZone → (∃ n : Nat, f u = toString n) ∨ u = .day ∧ DayText (f u)) :
    Formed (vs.map fun p => (p.1, f p.1)) := by
  rcases h with ⟨u, text, rfl, h⟩ | h
  · refine Or.inl ⟨u, f u, rfl, ?_⟩
    rcases hf u h.ne_timeZone with ⟨n, hn⟩ | ⟨rfl, hd⟩
    · rw [hn]
      exact .number h.ne_timeZone n
    · exact dayText_iff.1 hd
  · exact Or.inr (h.replace hf)

end Replace

end Values

/-! ### Rules -/

/-- The spelling of an anchor: tokens of a body joined, with no anchor among them. -/
def AnchorText (text : String) : Prop :=
  ∃ ts : List Token, ts ≠ [] ∧ (∀ t ∈ ts, t.Usable ∧ t.isTrivia = false ∧ t.kind ≠ .anchor)
    ∧ text = join ts

def Range.Formed (r : Range) : Prop :=
  ∃ starts stops : Values, starts.Formed ∧ stops.Formed ∧ starts.units = stops.units
    ∧ r = ofSides starts stops

/-- What the rules of a clause look like. -/
inductive Rule.Formed : Rule → Prop
  | every {e : Every} (hunit : e.unit ≠ .timeZone) (hinterval : e.interval ≤ Text.wordMax)
      (hanchor : ∀ text, e.anchor = some text → AnchorText text) : Formed (.every e)
  | equals {u : TimeUnit} {text : String} (h : Sole u text ∨ u = .year ∧ YearText text) :
      Formed (.equals u text)
  | oneOf {records : List Values} {shape : UnitSet} (h : Columns.Alike records shape)
      (hne : records ≠ []) (hf : ∀ r ∈ records, r.Formed) : Formed (.oneOf (.ofRecords records))
  | within {r : Range} (h : r.Formed) : Formed (.within r)
  | withinAny {rs : List Range} (hne : rs ≠ []) (h : ∀ r ∈ rs, r.Formed)
      (hshape : ∀ r ∈ rs, r.units = ((rs.head?.map Range.units).getD ∅)) : Formed (.withinAny rs)
  | zone (id : String) : Formed (.zone id)

namespace Rule

variable {body ts : List Token} {vs : Values} {default : Option TimeUnit}

lemma genuine_of_usable (h : ∀ t ∈ body, t.Usable) : ∀ t ∈ body, t.Genuine :=
  fun t ht => (h t ht).genuine

lemma formed_of_value (h : ∀ t ∈ ts, t.Genuine) (hd : default ≠ some .timeZone)
    (hread : Value.read ts default = .ok vs) : vs.Formed := Value.form_of_read h hd hread

/-! #### Cadences -/

lemma anchor_of_splitAnchor {main : List Token} {anchor : Option String}
    (hbody : ∀ t ∈ body, t.Usable) (h : splitAnchor body = .ok (main, anchor)) :
    (∀ t ∈ main, t ∈ body) ∧ ∀ text, anchor = some text → AnchorText text := by
  unfold splitAnchor at h
  split at h
  · cases h
    exact ⟨fun _ ht => ht, by rintro _ ⟨⟩⟩
  -- what follows the anchor has no second one in it and is not empty
  · rename_i word value hvalue
    split at h
    · cases h
    rename_i hfind
    split at h
    · cases h
    rename_i hempty
    cases h
    refine ⟨fun t ht => (List.takeWhile_sublist _).subset ht, ?_⟩
    rintro _ ⟨⟩
    have hmem : ∀ t ∈ value, t ∈ body := fun t ht =>
      (List.dropWhile_sublist _).subset (hvalue ▸ List.mem_cons_of_mem _ ht)
    refine ⟨significant value, ?_, ?_, rfl⟩
    · intro hnil
      rw [spelling, hnil] at hempty
      exact hempty rfl
    · intro t ht
      obtain ⟨ht, htrivia⟩ := List.mem_filter.1 ht
      refine ⟨hbody t (hmem t ht), by simpa using htrivia, fun hk => ?_⟩
      have := List.find?_eq_none.1 hfind t ht
      simp [hk] at this

theorem formed_of_readEach {unit : TimeUnit} {rules : List Rule} (hunit : unit ≠ .timeZone)
    (hbody : ∀ t ∈ body, t.Usable) (h : readEach unit body = .ok rules) :
    ∀ r ∈ rules, r.Formed := by
  obtain ⟨⟨main, anchor⟩, hanchor, h⟩ := Value.bind_eq_ok.1 h
  obtain ⟨-, ha⟩ := anchor_of_splitAnchor hbody hanchor
  dsimp only at h
  split at h
  · cases h
  · cases h
    exact List.forall_mem_singleton.2 (.every hunit (show 1 ≤ Text.wordMax by decide) ha)

lemma interval_le {word : Token} {n : Nat} (h : interval word = .ok n) : n ≤ Text.wordMax := by
  unfold interval at h
  split at h
  · rename_i m hm
    cases h
    exact (Text.word?_eq_some hm).2.2.2
  · cases h

theorem formed_of_readEvery {rules : List Rule} (hbody : ∀ t ∈ body, t.Usable)
    (h : readEvery body = .ok rules) : ∀ r ∈ rules, r.Formed := by
  obtain ⟨⟨main, anchor⟩, hanchor, h₁⟩ := Value.bind_eq_ok.1 h
  clear h
  obtain ⟨hmain, ha⟩ := anchor_of_splitAnchor hbody hanchor
  dsimp only at h₁
  generalize Option.filter _ (significant main).head? = count at h₁
  generalize hrest : (if count.isSome = true then (significant main).tail else significant main)
    = rest at h₁
  -- what is left of the words are tokens of the body with meaning
  have hwords : ∀ t ∈ rest, t.Usable ∧ t.isTrivia = false := by
    intro t ht
    have ht : t ∈ significant main := by
      rw [← hrest] at ht
      split at ht
      · exact List.mem_of_mem_tail ht
      · exact ht
    obtain ⟨ht, htrivia⟩ := List.mem_filter.1 ht
    exact ⟨hbody t (hmain t ht), by simpa using htrivia⟩
  -- with an interval or without, one word says the unit
  rcases count with _ | count
  all_goals
    obtain ⟨n, hn, h⟩ := Value.bind_eq_ok.1 h₁
    have hle : n ≤ Text.wordMax := by
      first
        | exact interval_le hn
        | cases hn
          decide
    split at h
    · cases h
    · cases h
    rename_i word
    obtain ⟨hword, htrivia⟩ := hwords word List.mem_cons_self
    split at h
    -- a unit, which is never that of zones
    · rename_i unit hk
      cases h
      refine List.forall_mem_singleton.2 (.every ?_ hle ha)
      rintro rfl
      exact Value.unit?_ne_timeZone hword.genuine (by rw [Token.unit?, hk])
    -- a weekday, which is the anchor of a week
    · rename_i hk
      split at h
      · cases h
      split at h
      · cases h
      cases h
      refine List.forall_mem_singleton.2 (.every (by simp) (show 1 ≤ Text.wordMax by decide) ?_)
      rintro _ ⟨⟩
      refine ⟨[word], by simp, List.forall_mem_singleton.2 ⟨hword, htrivia, by simp [hk]⟩, ?_⟩
      show _ = word.text ++ ""
      rw [String.append_empty]
    · cases h

/-! #### Lists -/

lemma formed_of_run {run : ValueRun} (hbody : ∀ t ∈ body, t.Genuine) (hr : run.In body)
    (h : run.read = .ok vs) : vs.Formed := by
  refine formed_of_value (fun t ht => hbody t (hr.tokens t ht)) (fun hd => ?_) h
  obtain ⟨t, ht, hu⟩ := hr.default _ hd
  exact Value.unit?_ne_timeZone (hbody t ht) hu

lemma exists_of_forall₂ {α β : Type} {R : α → β → Prop} {as : List α} {bs : List β}
    (h : List.Forall₂ R as bs) {b : β} (hb : b ∈ bs) : ∃ a ∈ as, R a b := by
  induction h with
  | nil => cases hb
  | cons hab _ ih =>
    rcases List.mem_cons.1 hb with rfl | hb
    · exact ⟨_, List.mem_cons_self, hab⟩
    · obtain ⟨a, ha, hr⟩ := ih hb
      exact ⟨a, List.mem_cons_of_mem _ ha, hr⟩

lemma alike_of_formed {records : List Values} (hne : records ≠ []) (h : ∀ r ∈ records, r.Formed)
    (hunits : ∀ r ∈ records, ∀ r' ∈ records, r.units = r'.units) :
    ∃ shape, Columns.Alike records shape := by
  obtain ⟨r, rs, rfl⟩ := List.exists_cons_of_ne_nil hne
  have hmem : r ∈ r :: rs := List.mem_cons_self
  exact ⟨r.units, fun r' hr' => (h r' hr').nodup, fun r' hr' => (h r' hr').zone,
    fun r' hr' => hunits r' hr' r hmem, (h r hmem).isEmpty_units⟩

theorem formed_of_readPick {rules : List Rule} (hbody : ∀ t ∈ body, t.Genuine)
    (h : readPick body = .ok rules) : ∀ r ∈ rules, r.Formed := by
  rcases readPick_eq_ok h with ⟨vs, -, hvs, rfl⟩ | ⟨records, hread, hne, hunits, rfl⟩
  · have hformed := formed_of_value hbody (by simp) hvs
    intro r hr
    obtain ⟨⟨u, text⟩, hmem, rfl⟩ := List.mem_map.1 hr
    exact .equals (hformed.sole hmem)
  · have hformed : ∀ r ∈ records, r.Formed := by
      intro r hr
      obtain ⟨run, hrun, hr⟩ := exists_of_forall₂ hread hr
      exact formed_of_run hbody (in_of_mem_ofBody hrun) hr
    obtain ⟨shape, halike⟩ := alike_of_formed hne hformed hunits
    exact List.forall_mem_singleton.2 (.oneOf halike hne hformed)

/-! #### Ranges -/

lemma formed_of_readRange {run : ValueRun} {r : Range} (hbody : ∀ t ∈ body, t.Genuine)
    (hr : run.In body) (h : readRange run.default run.tokens = .ok r) : r.Formed := by
  obtain ⟨starts, stops, hread, hunits, rfl⟩ := readRange_eq_ok h
  have hformed : ∀ vs ∈ [starts, stops], vs.Formed := by
    intro vs hvs
    obtain ⟨side, hside, hvs⟩ := exists_of_forall₂ hread hvs
    exact formed_of_run hbody (in_of_mem_sides hr hside) hvs
  exact ⟨starts, stops, hformed _ (by simp), hformed _ (by simp), hunits, rfl⟩

theorem formed_of_readBetween {rules : List Rule} (hbody : ∀ t ∈ body, t.Genuine)
    (h : readBetween body = .ok rules) : ∀ r ∈ rules, r.Formed := by
  obtain ⟨ranges, hread, hne, hshape, hrules⟩ := readBetween_eq_ok h
  have hformed : ∀ r ∈ ranges, r.Formed := by
    intro r hr
    obtain ⟨run, hrun, hr⟩ := exists_of_forall₂ hread hr
    exact formed_of_readRange hbody (in_of_mem_ofBody hrun) hr
  rcases hrules with ⟨r, rfl, rfl⟩ | rfl
  · exact List.forall_mem_singleton.2 (.within (hformed r (by simp)))
  · exact List.forall_mem_singleton.2 (.withinAny hne hformed hshape)

lemma ofList_eq_ofSides (h : (vs.map Prod.fst).Nodup) (f g : TimeUnit → String → String) :
    (⟨UnitMap.ofList (vs.map fun p => (p.1, (f p.1 p.2, g p.1 p.2)))⟩ : Range)
      = .ofSides (vs.map fun p => (p.1, f p.1 p.2)) (vs.map fun p => (p.1, g p.1 p.2)) := by
  have hkeys {β : Type} (k : TimeUnit → String → β) :
      (vs.map fun p => (p.1, k p.1 p.2)).map Prod.fst = vs.map Prod.fst := by
    rw [List.map_map]
    rfl
  refine congrArg Range.mk (UnitMap.ext_get? fun u => ?_)
  refine Eq.trans ?_ (Range.get?_ofSides (hkeys f ▸ h) u).symm
  rw [UnitMap.get?_ofList (hkeys (fun u text => (f u text, g u text)) ▸ h), Values.lookup_map f,
    Values.lookup_map g, Values.lookup_map fun u text => (f u text, g u text)]
  cases vs.lookup u <;> rfl

lemma units_map (vs : Values) (f : TimeUnit → String → String) :
    Values.units (vs.map fun p => (p.1, f p.1 p.2)) = vs.units := by
  refine UnitSet.ext_has fun u => ?_
  rw [Values.has_units, Values.has_units, Values.lookup_map f, Option.isSome_map]

lemma map_texts (vs : Values) : (vs.map fun p => (p.1, p.2)) = vs := List.map_id vs

lemma upto_eq_ofSides (h : (vs.map Prod.fst).Nodup) :
    (⟨UnitMap.ofList (vs.map fun p => (p.1, (openStart p.1, p.2)))⟩ : Range)
      = .ofSides (vs.map fun p => (p.1, openStart p.1)) vs := by
  have hsides := ofList_eq_ofSides h (fun u _ => openStart u) fun _ text => text
  rwa [map_texts] at hsides

lemma onward_eq_ofSides (h : (vs.map Prod.fst).Nodup) :
    (⟨UnitMap.ofList (vs.map fun p => (p.1, (p.2, openEnd p.1)))⟩ : Range)
      = .ofSides vs (vs.map fun p => (p.1, openEnd p.1)) := by
  have hsides := ofList_eq_ofSides h (fun _ text => text) fun u _ => openEnd u
  rwa [map_texts] at hsides

lemma formed_openStart (h : vs.Formed) : Values.Formed (vs.map fun p => (p.1, openStart p.1)) :=
  h.replace fun u _ => Or.inl ⟨u.minValue.toNat, by cases u <;> rfl⟩

lemma formed_openEnd (h : vs.Formed) : Values.Formed (vs.map fun p => (p.1, openEnd p.1)) := by
  have hword : wordKind "Last" = .ok (.special (.edge .last)) :=
    wordKind_canonicalWords ("Last", _) (by simp [canonicalWords])
  have hspelling : Value.DaySpelling (.edge .last) "Last" _ := .word hword rfl
  have hlast : DayText "Last" := .special hspelling
  refine h.replace fun u hu => ?_
  by_cases hd : u = .day
  · subst hd
    exact Or.inr ⟨rfl, hlast⟩
  · exact Or.inl ⟨u.maxValue.toNat, by cases u <;> first | rfl | exact absurd rfl hd⟩

lemma formed_of_upto (h : vs.Formed) :
    Range.Formed ⟨UnitMap.ofList (vs.map fun p => (p.1, (openStart p.1, p.2)))⟩ :=
  ⟨_, vs, formed_openStart h, h, units_map vs fun u _ => openStart u, upto_eq_ofSides h.nodup⟩

lemma formed_of_onward (h : vs.Formed) :
    Range.Formed ⟨UnitMap.ofList (vs.map fun p => (p.1, (p.2, openEnd p.1)))⟩ :=
  ⟨vs, _, h, formed_openEnd h, (units_map vs fun u _ => openEnd u).symm, onward_eq_ofSides h.nodup⟩

/-! #### Clauses -/

lemma each_timeZone_ne {w : String} : wordKind w ≠ .ok (.keyword (.each .timeZone)) := by
  intro h
  have hwords : ∀ p ∈ Keyword.words, p.2 ≠ .each .timeZone := by decide
  cases means_of_wordKind h with
  | keyword hw =>
    exact hwords ((Keyword.bare w).toLower, .each .timeZone) (mem_of_lookup hw) rfl

/-- The rules of a clause are what its tokens can be read as. -/
theorem formed_of_ofClause {c : Clause} {rules : List Rule}
    (hhead : c.head.Genuine ∧ c.head.kind = .keyword c.keyword)
    (hbody : c.keyword ≠ .zone → ∀ t ∈ c.body, t.Usable) (h : ofClause c = .ok rules) :
    ∀ r ∈ rules, r.Formed := by
  have hvalue {vs : Values} (hne : c.keyword ≠ .zone) (hread : Value.read c.body none = .ok vs) :
      vs.Formed := formed_of_value (genuine_of_usable (hbody hne)) (by simp) hread
  -- by the keyword of the clause
  unfold ofClause at h
  split at h
  · rename_i hk
    exact formed_of_readEvery (hbody (by simp [hk])) h
  · rename_i unit hk
    -- no keyword is of a cadence of zones
    refine formed_of_readEach ?_ (hbody (by simp [hk])) h
    rintro rfl
    obtain ⟨hgenuine, hkind⟩ := hhead
    rw [hk] at hkind
    exact each_timeZone_ne (hgenuine.wordKind_of_kind hkind rfl nofun)
  · rename_i hk
    exact formed_of_readPick (genuine_of_usable (hbody (by simp [hk]))) h
  · rename_i hk
    exact formed_of_readBetween (genuine_of_usable (hbody (by simp [hk]))) h
  · rename_i hk
    obtain ⟨vs, hvs, h₁⟩ := Value.bind_eq_ok.1 h
    cases h₁
    exact List.forall_mem_singleton.2 (.within (formed_of_upto (hvalue (by simp [hk]) hvs)))
  · rename_i hk
    obtain ⟨vs, hvs, h₁⟩ := Value.bind_eq_ok.1 h
    cases h₁
    exact List.forall_mem_singleton.2 (.within (formed_of_onward (hvalue (by simp [hk]) hvs)))
  · unfold readZone at h
    dsimp only at h
    split at h
    · cases h
    · cases h
      exact List.forall_mem_singleton.2 (.zone _)

/-! #### Single values -/

lemma sole_of_same {v : Values} {u : TimeUnit} {text : String} (h : v.Same [(u, text)])
    (hf : Values.Formed [(u, text)]) : ∃ u text, v = [(u, text)] ∧ Sole u text := by
  obtain rfl : v = [(u, text)] := List.perm_singleton.1 (h.perm (by simp))
  exact ⟨u, text, rfl, hf.of_singleton⟩

lemma sole_of_sides {starts stops : Values} {r : Range} (hunits : starts.units = stops.units)
    (hr : r = .ofSides starts stops) (hs : ∃ u text, starts = [(u, text)]) (hsf : starts.Formed)
    (ht : ∃ u text, stops = [(u, text)]) (htf : stops.Formed) :
    ∀ v ∈ [r.starts, r.stops], ∃ u text, v = [(u, text)] ∧ Sole u text := by
  obtain ⟨u, text, rfl⟩ := hs
  obtain ⟨u', text', rfl⟩ := ht
  subst hr
  refine List.forall_mem_cons.2 ⟨?_, List.forall_mem_singleton.2 ?_⟩
  · exact sole_of_same (Range.same_starts hsf.nodup hunits hsf.zone htf.zone) hsf
  · exact sole_of_same (Range.same_stops hsf.nodup hunits hsf.zone htf.zone) htf

lemma single_of_runs {runs : List ValueRun} {records : List Values}
    (hsingle : ∀ run ∈ runs, ∃ u text, run.read = .ok [(u, text)])
    (hread : List.Forall₂ (fun run vs => run.read = .ok vs) runs records) :
    ∀ r ∈ records, ∃ u text, r = [(u, text)] := by
  intro r hr
  obtain ⟨run, hrun, hr⟩ := exists_of_forall₂ hread hr
  obtain ⟨u, text, htext⟩ := hsingle run hrun
  exact ⟨u, text, Except.ok.inj (hr.symm.trans htext)⟩

lemma sole_of_readPick {rules : List Rule} (hbody : ∀ t ∈ body, t.Genuine)
    (hsingle : ∀ run ∈ ValueRun.ofBody body, ∃ u text, run.read = .ok [(u, text)])
    (h : readPick body = .ok rules) :
    ∀ r ∈ rules, ∀ v ∈ r.values, ∃ u text, v = [(u, text)] ∧ Sole u text := by
  rcases readPick_eq_ok h with ⟨vs, hbare, hvs, rfl⟩ | ⟨records, hread, hne, hunits, rfl⟩
  · rw [hbare] at hsingle
    obtain ⟨u, text, rfl⟩ := single_of_runs hsingle
      (.cons (show ValueRun.read _ = .ok vs from hvs) .nil) vs (by simp)
    have hformed := formed_of_value hbody (by simp) hvs
    simpa [values] using hformed.of_singleton
  · have hformed : ∀ r ∈ records, r.Formed := by
      intro r hr
      obtain ⟨run, hrun, hr⟩ := exists_of_forall₂ hread hr
      exact formed_of_run hbody (in_of_mem_ofBody hrun) hr
    obtain ⟨shape, halike⟩ := alike_of_formed hne hformed hunits
    refine List.forall_mem_singleton.2 fun v hv => ?_
    obtain ⟨r, hr, hsame⟩ := exists_of_forall₂ halike.same_records.flip hv
    obtain ⟨u, text, rfl⟩ := single_of_runs hsingle hread r hr
    exact sole_of_same hsame (hformed _ hr)

lemma sole_of_readBetween {rules : List Rule} (hbody : ∀ t ∈ body, t.Genuine)
    (hsingle : ∀ run ∈ (ValueRun.ofBody body).flatMap ValueRun.sides,
      ∃ u text, run.read = .ok [(u, text)])
    (h : readBetween body = .ok rules) :
    ∀ r ∈ rules, ∀ v ∈ r.values, ∃ u text, v = [(u, text)] ∧ Sole u text := by
  obtain ⟨ranges, hread, -, -, hrules⟩ := readBetween_eq_ok h
  have hsides : ∀ r ∈ ranges, ∀ v ∈ [r.starts, r.stops],
      ∃ u text, v = [(u, text)] ∧ Sole u text := by
    intro r hr
    obtain ⟨run, hrun, hr⟩ := exists_of_forall₂ hread hr
    obtain ⟨starts, stops, hvs, hunits, heq⟩ := readRange_eq_ok hr
    have hone := single_of_runs
      (fun side hside => hsingle side (List.mem_flatMap.2 ⟨run, hrun, hside⟩)) hvs
    have hformed : ∀ vs ∈ [starts, stops], vs.Formed := by
      intro vs hmem
      obtain ⟨side, hside, hmem⟩ := exists_of_forall₂ hvs hmem
      exact formed_of_run hbody (in_of_mem_sides (in_of_mem_ofBody hrun) hside) hmem
    exact sole_of_sides hunits heq (hone _ (by simp)) (hformed _ (by simp)) (hone _ (by simp))
      (hformed _ (by simp))
  rcases hrules with ⟨r, rfl, rfl⟩ | rfl
  · exact List.forall_mem_singleton.2 (hsides r (by simp))
  · refine List.forall_mem_singleton.2 fun v hv => ?_
    obtain ⟨r, hr, hv⟩ := List.mem_flatMap.1 hv
    exact hsides r hr v hv

lemma sole_of_readUpto {rules : List Rule} (hbody : ∀ t ∈ body, t.Genuine)
    (hsingle : ∃ u text, Value.read body none = .ok [(u, text)]) (h : readUpto body = .ok rules) :
    ∀ r ∈ rules, ∀ v ∈ r.values, ∃ u text, v = [(u, text)] ∧ Sole u text := by
  obtain ⟨u, text, hread⟩ := hsingle
  have hf := formed_of_value hbody (by simp) hread
  rw [readUpto, hread] at h
  obtain rfl := Except.ok.inj h
  have hunits : Values.units [(u, openStart u)] = Values.units [(u, text)] := rfl
  exact List.forall_mem_singleton.2 (sole_of_sides hunits (upto_eq_ofSides hf.nodup)
    ⟨_, _, rfl⟩ (formed_openStart hf) ⟨_, _, rfl⟩ hf)

lemma sole_of_readOnward {rules : List Rule} (hbody : ∀ t ∈ body, t.Genuine)
    (hsingle : ∃ u text, Value.read body none = .ok [(u, text)]) (h : readOnward body = .ok rules) :
    ∀ r ∈ rules, ∀ v ∈ r.values, ∃ u text, v = [(u, text)] ∧ Sole u text := by
  obtain ⟨u, text, hread⟩ := hsingle
  have hf := formed_of_value hbody (by simp) hread
  rw [readOnward, hread] at h
  obtain rfl := Except.ok.inj h
  have hunits : Values.units [(u, text)] = Values.units [(u, openEnd u)] := rfl
  exact List.forall_mem_singleton.2 (sole_of_sides hunits (onward_eq_ofSides hf.nodup)
    ⟨_, _, rfl⟩ hf ⟨_, _, rfl⟩ (formed_openEnd hf))

/-- Where each run of a clause has one value, the rules are made of single values. -/
theorem sole_of_ofClause {c : Clause} {rules : List Rule}
    (hbody : c.keyword ≠ .zone → ∀ t ∈ c.body, t.Genuine)
    (hsingle : ∀ run ∈ c.valueRuns, ∃ u text, run.read = .ok [(u, text)])
    (h : ofClause c = .ok rules) :
    ∀ r ∈ rules, ∀ v ∈ r.values, ∃ u text, v = [(u, text)] ∧ Sole u text := by
  unfold ofClause at h
  unfold Clause.valueRuns at hsingle
  split at h
  · obtain ⟨e, rfl⟩ := readEvery_eq_ok h
    simp [values]
  · obtain ⟨e, rfl⟩ := readEach_eq_ok h
    simp [values]
  · rename_i hk
    rw [hk] at hbody hsingle
    exact sole_of_readPick (hbody (by simp)) hsingle h
  · rename_i hk
    rw [hk] at hbody hsingle
    exact sole_of_readBetween (hbody (by simp)) hsingle h
  · rename_i hk
    rw [hk] at hbody hsingle
    exact sole_of_readUpto (hbody (by simp)) (hsingle ⟨c.body, none⟩ (by simp)) h
  · rename_i hk
    rw [hk] at hbody hsingle
    exact sole_of_readOnward (hbody (by simp)) (hsingle ⟨c.body, none⟩ (by simp)) h
  · obtain ⟨id, rfl⟩ := readZone_eq_ok h
    simp [values]

end Rule

end Recurrence
