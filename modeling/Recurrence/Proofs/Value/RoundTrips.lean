import Recurrence.Proofs.Value.Phrases

/-!
Values of one unit, read back from their canonical text. A unit word in front, or the unit of a
list, says what the text is of, unless the text is a name that says so itself.

Main statements: `Sole.readsBack` and `Sole.readsBack_item`.
-/

namespace Recurrence

open Token

namespace Values

/-- The same texts under the same units, whatever their order, with no unit twice in the first. -/
def Same (vs ws : Values) : Prop := (vs.map Prod.fst).Nodup ∧ ∀ u, vs.lookup u = ws.lookup u

end Values

/-- The text is a phrase that is read as the values, with any default unit out of some. -/
def ReadsBack (defaults : Option TimeUnit → Prop) (text : String) (vs : Values) : Prop :=
  ∃ ls, Phrase text ls ∧ ∀ ts, Spell ts ls → ∀ default, defaults default →
    ∃ ws, Value.read ts default = .ok ws ∧ ws.Same vs

namespace Value

variable {ts : List Token} {u : TimeUnit} {text : String} {default : Option TimeUnit}

/-- What the tokens of one text under one unit are like, without a unit word. -/
structure SoleTokens (u : TimeUnit) (text : String) (ts : List Token) : Prop where
  unitless : ∀ t ∈ ts, t.unit?.isSome = false
  untimed : isTimed ts = false
  undivided : Undivided ts
  nonempty : ts ≠ []
  value : (∃ t ∈ ts, isSpecial t = true) ∧ (∃ day, special? ts = some (day, text)
      ∧ (u = .day ∨ ∃ e, day = .edge e))
    ∨ ∃ t, ts = [t] ∧ (t.kind = .number ∧ Text.dropZeros t.text = text
      ∨ t.kind = .month ∧ u = .month ∧ t.text = text
      ∨ t.kind = .weekday ∧ u = .week ∧ t.text = text)

lemma filter_unit?_isSome (h : ∀ t ∈ ts, t.unit?.isSome = false) :
    ts.filter (fun t => t.unit?.isSome) = [] :=
  List.filter_eq_nil_iff.2 fun t ht => by simp [h t ht]

lemma filter_unit?_isNone (h : ∀ t ∈ ts, t.unit?.isSome = false) :
    ts.filter (fun t => t.unit?.isNone) = ts :=
  List.filter_eq_self.2 fun t ht => Option.isNone_iff_eq_none.2 (by simpa using h t ht)

lemma explicitUnit_none (h : ∀ t ∈ ts, t.unit?.isSome = false) :
    explicitUnit ts = .ok (none, ts) := by
  rw [explicitUnit, filter_unit?_isSome h, filter_unit?_isNone h]

lemma explicitUnit_cons {t : Token} (ht : t.unit? = some u)
    (h : ∀ t ∈ ts, t.unit?.isSome = false) : explicitUnit (t :: ts) = .ok (some u, ts) := by
  rw [explicitUnit, List.filter_cons, List.filter_cons, if_pos (by simp [ht]),
    if_neg (by simp [ht]), filter_unit?_isSome h, filter_unit?_isNone h]
  simp only [ht]

lemma read_eq_of_untimed (hne : significant ts ≠ []) (htimed : isTimed (significant ts) = false)
    (hdash : hasDateDash (significant ts) = false) :
    Value.read ts default = if (significant ts).any isSpecial
      then specialDay (significant ts) default
      else single (significant ts) default := by
  unfold Value.read
  simp only [significant_trimTrivia, htimed, hdash]
  rw [if_neg (by simpa using hne)]
  rfl

lemma specialDay_eq_ok {explicit : Option TimeUnit} {us : List Token} {day : SpecialDay}
    (hexplicit : explicitUnit us = .ok (explicit, ts)) (h : special? ts = some (day, text))
    (hday : u = .day ∨ ∃ e, day = .edge e) (hunit : explicit.or default = some u) :
    specialDay us default = .ok [(u, text)] := by
  unfold specialDay
  simp only [hexplicit, bind, Except.bind, h, hunit]
  rcases hday with rfl | ⟨e, rfl⟩
  · cases day <;> rfl
  · rfl

lemma single_eq_ok {explicit : Option TimeUnit} {us : List Token} {t : Token}
    (hexplicit : explicitUnit us = .ok (explicit, [t]))
    (h : t.kind = .number ∧ Text.dropZeros t.text = text ∧ explicit.or default = some u
      ∨ t.kind = .month ∧ u = .month ∧ t.text = text ∧ (explicit = none ∨ explicit = some u)
      ∨ t.kind = .weekday ∧ u = .week ∧ t.text = text ∧ (explicit = none ∨ explicit = some u)) :
    single us default = .ok [(u, text)] := by
  unfold single
  simp only [hexplicit, bind, Except.bind]
  rcases h with ⟨hk, rfl, hu⟩ | ⟨hk, rfl, rfl, rfl | rfl⟩ | ⟨hk, rfl, rfl, rfl | rfl⟩
  · simp only [hk, hu]
    rfl
  all_goals
    simp only [hk]
    rfl

/-- One text is read under its unit, when the tokens beside it say no more than the unit. -/
lemma SoleTokens.read_eq {us : List Token} (h : SoleTokens u text ts) (explicit : Option TimeUnit)
    (htimed : isTimed (significant us) = false) (hdash : hasDateDash (significant us) = false)
    (hspecial : (significant us).any isSpecial = ts.any isSpecial) (hne : significant us ≠ [])
    (hexplicit : explicitUnit (significant us) = .ok (explicit, ts))
    (hunit : explicit.or default = some u
      ∨ explicit = none ∧ ∃ t, ts = [t] ∧ (t.kind = .month ∨ t.kind = .weekday)) :
    Value.read us default = .ok [(u, text)] := by
  rw [read_eq_of_untimed hne htimed hdash, hspecial]
  -- where a unit is named, it is this one
  have hnamed (hu : explicit.or default = some u) : explicit = none ∨ explicit = some u := by
    cases explicit with
    | none => exact Or.inl rfl
    | some e => exact Or.inr hu
  -- the reader of special days, or that of single tokens
  rcases h.value with ⟨hany, day, hday, hu⟩ | ⟨t, rfl, hvalue⟩
  · rw [if_pos (List.any_eq_true.2 hany)]
    refine specialDay_eq_ok hexplicit hday hu ?_
    rcases hunit with hunit | ⟨-, t, rfl, hk⟩
    · exact hunit
    · obtain ⟨t', ht', hs⟩ := hany
      rw [List.mem_singleton.1 ht', isSpecial] at hs
      rcases hk with hk | hk <;> rw [hk] at hs <;> cases hs
  · have hnone : ([t].any isSpecial) = false := by
      rw [List.any_cons, List.any_nil, Bool.or_false, isSpecial]
      rcases hvalue with ⟨hk, -⟩ | ⟨hk, -⟩ | ⟨hk, -⟩ <;> rw [hk]
    rw [hnone, if_neg (by decide)]
    refine single_eq_ok hexplicit ?_
    -- a month and a weekday need no unit to be named
    rcases hunit with hunit | ⟨rfl, t', ht', hk'⟩
    · rcases hvalue with ⟨hk, ht⟩ | ⟨hk, hu, ht⟩ | ⟨hk, hu, ht⟩
      · exact Or.inl ⟨hk, ht, hunit⟩
      · exact Or.inr (Or.inl ⟨hk, hu, ht, hnamed hunit⟩)
      · exact Or.inr (Or.inr ⟨hk, hu, ht, hnamed hunit⟩)
    · obtain rfl : t = t' := by simpa using ht'
      rcases hvalue with ⟨hk, ht⟩ | ⟨hk, hu, ht⟩ | ⟨hk, hu, ht⟩
      · rcases hk' with hk' | hk' <;> rw [hk] at hk' <;> cases hk'
      · exact Or.inr (Or.inl ⟨hk, hu, ht, Or.inl rfl⟩)
      · exact Or.inr (Or.inr ⟨hk, hu, ht, Or.inl rfl⟩)

lemma hasDateDash_eq_false (h : Undivided ts) : hasDateDash ts = false := by
  rw [hasDateDash, h.dateFields_end]
  rfl

lemma SoleTokens.read_alone {us : List Token} (h : SoleTokens u text ts)
    (hus : significant us = ts)
    (hunit : default = some u ∨ ∃ t, ts = [t] ∧ (t.kind = .month ∨ t.kind = .weekday)) :
    Value.read us default = .ok [(u, text)] := by
  refine h.read_eq none ?_ ?_ ?_ ?_ ?_ ?_
  · rw [hus, h.untimed]
  · rw [hus, hasDateDash_eq_false h.undivided]
  · rw [hus]
  · rw [hus]
    exact h.nonempty
  · rw [hus, explicitUnit_none h.unitless]
  · exact hunit.imp (fun hd => by rw [hd]; rfl) fun hn => ⟨rfl, hn⟩

lemma SoleTokens.read_unit {us : List Token} {t : Token} (h : SoleTokens u text ts)
    (hus : significant us = t :: ts) (ht : t.kind = .unit u) :
    Value.read us default = .ok [(u, text)] := by
  have hunit : t.unit? = some u := by rw [Token.unit?, ht]
  refine h.read_eq (some u) ?_ ?_ ?_ ?_ ?_ (Or.inl rfl)
  · rw [hus, isTimed, List.any_cons, ht]
    exact h.untimed
  · rw [hus]
    exact hasDateDash_eq_false ((undivided_singleton (by simp [ht])).append h.undivided h.nonempty)
  · rw [hus, List.any_cons, isSpecial, ht, Bool.false_or]
  · rw [hus]
    simp
  · rw [hus, explicitUnit_cons hunit h.unitless]

/-! ### One text -/

lemma soleTokens_of_day {day : SpecialDay} {ls : List Lexeme} (h : DaySpelling day text ls)
    (hu : u = .day ∨ ∃ e, day = .edge e) (hts : Spell ts ls) :
    SoleTokens u text (significant ts) := by
  have hd := h.dayTokens hts
  have hspecial := h.special? hts
  -- no token of a special day is a unit word, a colon or half of a day
  have hkind : ∀ t ∈ significant ts, (∃ d, t.kind = .special d) ∨ t.kind = .plus ∨ t.kind = .dash
      ∨ t.kind = .number := by
    refine hts.significant.forall_kind
      (P := fun k => (∃ d, k = .special d) ∨ k = .plus ∨ k = .dash ∨ k = .number) fun l hl => ?_
    have hl := List.mem_filter.1 hl
    cases h with
    | word => simp_all
    | offset n _ _ hsign =>
      rcases hsign with rfl | rfl <;>
        simp only [List.mem_cons, List.not_mem_nil, or_false] at hl <;>
        rcases hl.1 with rfl | rfl | rfl <;> simp [Lexeme.plus, Lexeme.dash, Lexeme.number]
    | closest n =>
      simp only [List.mem_cons, List.not_mem_nil, or_false] at hl
      obtain ⟨rfl | rfl | rfl, htrivia⟩ := hl
      · simp
      · cases htrivia
      · simp [Lexeme.number]
  refine ⟨?_, ?_, hd.undivided, ?_, Or.inl ⟨hd.special, day, hspecial, hu⟩⟩
  · intro t ht
    rcases hkind t ht with ⟨d, hk⟩ | hk | hk | hk <;> simp [Token.unit?, hk]
  · rw [isTimed, List.any_eq_false]
    intro t ht
    rcases hkind t ht with ⟨d, hk⟩ | hk | hk | hk <;> simp [hk]
  · intro hnil
    rw [hnil] at hspecial
    cases hspecial

lemma soleTokens_name {t : Token} {k : Kind}
    (hk : k = .month ∧ u = .month ∨ k = .weekday ∧ u = .week)
    (ht : t.kind = k) (htext : t.text = text) : SoleTokens u text [t] := by
  obtain ⟨rfl, rfl⟩ | ⟨rfl, rfl⟩ := hk
  · exact ⟨by simp [Token.unit?, ht], by simp [isTimed, ht], undivided_singleton (by simp [ht]),
      by simp, Or.inr ⟨t, rfl, Or.inr (Or.inl ⟨ht, rfl, htext⟩)⟩⟩
  · exact ⟨by simp [Token.unit?, ht], by simp [isTimed, ht], undivided_singleton (by simp [ht]),
      by simp, Or.inr ⟨t, rfl, Or.inr (Or.inr ⟨ht, rfl, htext⟩)⟩⟩

end Value

open Value

lemma phrase_name {w : String} {k : Kind} (h : wordKind w = .ok k)
    (hk : k = .month ∨ k = .weekday) : Phrase w [⟨k, w⟩] := by
  have hw : w ≠ "" := by
    rintro rfl
    cases h
    simp at hk
  rcases hk with rfl | rfl
  · exact .word hw h rfl
  · exact .word hw h rfl

lemma Sole.spelling {u : TimeUnit} {text : String} (h : Sole u text) : ∃ ls, Phrase text ls
    ∧ ∀ ts, Spell ts ls → SoleTokens u text (significant ts) := by
  cases h with
  | number hu n =>
    refine ⟨_, .number n, fun ts hts => ?_⟩
    obtain ⟨_, _, _, rfl⟩ := spell_singleton hts
    exact ⟨List.forall_mem_singleton.2 rfl, rfl, undivided_singleton (by rintro ⟨⟩), by rintro ⟨⟩,
      Or.inr ⟨_, rfl, Or.inl ⟨rfl, Text.dropZeros_toString n⟩⟩⟩
  | month h =>
    refine ⟨_, phrase_name h (Or.inl rfl), fun ts hts => ?_⟩
    obtain ⟨_, _, _, rfl⟩ := spell_singleton hts
    exact soleTokens_name (Or.inl ⟨rfl, rfl⟩) rfl rfl
  | weekday h =>
    refine ⟨_, phrase_name h (Or.inr rfl), fun ts hts => ?_⟩
    obtain ⟨_, _, _, rfl⟩ := spell_singleton hts
    exact soleTokens_name (Or.inr ⟨rfl, rfl⟩) rfl rfl
  | special hu h hday => exact ⟨_, .day h, fun ts hts => soleTokens_of_day h hday hts⟩

/-- One text as the item of a list of its unit. -/
theorem Sole.readsBack_item {u : TimeUnit} {text : String} (h : Sole u text) :
    ReadsBack (· = some u) text [(u, text)] := by
  obtain ⟨ls, hphrase, htokens⟩ := h.spelling
  refine ⟨ls, hphrase,
    fun ts hts default hd => ⟨_, (htokens ts hts).read_alone rfl (Or.inl hd), ?_⟩⟩
  exact ⟨by simp, fun _ => rfl⟩

lemma wordKind_name {u : TimeUnit} (hu : u ≠ .timeZone) : wordKind u.name = .ok (.unit u) :=
  (wordKind_units u ((TimeUnit.mem_descending_iff u).2 hu)).1

lemma phrase_unit {u : TimeUnit} (hu : u ≠ .timeZone) : Phrase u.name [⟨.unit u, u.name⟩] :=
  .word (by cases u <;> decide) (wordKind_name hu) rfl

lemma single_eq (u : TimeUnit) (text : String) :
    Canonical.single u text = u.name ++ " " ++ text ∨ Canonical.single u text = text
      ∧ (u = .week ∧ (Weekday.ofName? text).isSome = true
        ∨ u = .month ∧ (MonthName.number? text).isSome = true) := by
  cases u with
  | week =>
    cases h : (Weekday.ofName? text).isSome with
    | false => exact Or.inl (by simp [Canonical.single, h])
    | true => exact Or.inr ⟨by simp [Canonical.single, h], Or.inl ⟨rfl, rfl⟩⟩
  | month =>
    cases h : (MonthName.number? text).isSome with
    | false => exact Or.inl (by simp [Canonical.single, h])
    | true => exact Or.inr ⟨by simp [Canonical.single, h], Or.inr ⟨rfl, rfl⟩⟩
  | _ => exact Or.inl rfl

lemma Sole.named {u : TimeUnit} {text : String} (h : Sole u text)
    (hname : u = .week ∧ (Weekday.ofName? text).isSome = true
      ∨ u = .month ∧ (MonthName.number? text).isSome = true) :
    ∃ k, wordKind text = .ok k ∧ (k = .month ∧ u = .month ∨ k = .weekday ∧ u = .week) := by
  have hletters : ∀ c ∈ text.toList, SpecialDay.IsLetter c := by
    rcases hname with ⟨-, h⟩ | ⟨-, h⟩
    · obtain ⟨d, hd⟩ := Option.isSome_iff_exists.1 h
      exact SpecialDay.isLetter_of_weekdayName hd
    · obtain ⟨n, hn⟩ := Option.isSome_iff_exists.1 h
      exact SpecialDay.isLetter_of_monthName hn
  cases h with
  | number _ n => exact absurd hletters (not_letters_toString n)
  | month h => exact ⟨_, h, Or.inl ⟨rfl, rfl⟩⟩
  | weekday h => exact ⟨_, h, Or.inr ⟨rfl, rfl⟩⟩
  | special _ h =>
    cases means_of_wordKind (h.wordKind_of_letters hletters) with
    | special _ hm hwd =>
      rcases hname with ⟨-, h⟩ | ⟨-, h⟩
      · rw [hwd] at h
        cases h
      · rw [hm] at h
        cases h

/-- One text with what canonical text puts in front of it. -/
theorem Sole.readsBack {u : TimeUnit} {text : String} (h : Sole u text) (hu : u ≠ .timeZone) :
    ReadsBack (fun _ => True) (Canonical.single u text) [(u, text)] := by
  obtain ⟨ls, hphrase, htokens⟩ := h.spelling
  have hsame : Values.Same [(u, text)] [(u, text)] := ⟨by simp, fun _ => rfl⟩
  rcases single_eq u text with heq | ⟨heq, hname⟩
  · rw [heq]
    refine ⟨_, (phrase_unit hu).spaced hphrase, fun ts hts default _ => ⟨_, ?_, hsame⟩⟩
    obtain ⟨_, _, _, _, rfl, h₁⟩ := spell_cons hts
    obtain ⟨_, _, _, _, rfl, h₂⟩ := spell_cons h₁
    exact (htokens _ h₂).read_unit rfl rfl
  · rw [heq]
    obtain ⟨k, hk, hku⟩ := h.named hname
    refine ⟨_, phrase_name hk (hku.imp And.left And.left), fun ts hts default _ => ⟨_, ?_, hsame⟩⟩
    obtain ⟨line, column, endColumn, rfl⟩ := spell_singleton hts
    have htokens := soleTokens_name (t := Lexeme.placed ⟨k, text⟩ line column endColumn) hku rfl rfl
    have hkind : k = .month ∨ k = .weekday := hku.imp And.left And.left
    refine htokens.read_alone (significant_eq (List.forall_mem_singleton.2 ?_))
      (Or.inr ⟨_, rfl, hkind⟩)
    rcases hkind with rfl | rfl <;> rfl

end Recurrence
