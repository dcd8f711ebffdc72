import Recurrence.Proofs.Rule.RoundTrips

/-!
Rules that canonical text cannot say. Several values that make no phrase are written one after the
other, and an edge in front of the number of a day takes it as an offset: read again, such a text
has other units, if it is read at all. A year with zeros in front loses them.

Main statement: `Rule.Formed.recognized`.
-/

namespace Recurrence

open Token Scan

variable {text : String} {ls : List Lexeme} {u : TimeUnit} {vs ws : Values} {ts : List Token}

/-! ### Values -/

/-- Whatever the text is read as, it is other units. -/
def Misread (text : String) (vs : Values) : Prop :=
  ∃ ls, Phrase text ls ∧ ∀ ts, Spell ts ls → ∀ default ws, Value.read ts default = .ok ws →
    (ws.map Prod.fst).Nodup ∧ ws.units ≠ vs.units

namespace Values

lemma units_ne_of_lookup (hu : u ≠ .timeZone) (hws : ws.lookup u = none)
    (hvs : (vs.lookup u).isSome = true) : ws.units ≠ vs.units := by
  intro h
  have hhas : ws.units.has u = vs.units.has u := by rw [h]
  rw [has_units, has_units, hws, hvs, decide_eq_true hu] at hhas
  cases hhas

lemma Composite.units_ne_singleton (h : vs.Composite) (u : TimeUnit) (text : String) :
    Values.units [(u, text)] ≠ vs.units := by
  obtain ⟨p, q, rest, rfl⟩ : ∃ p q rest, vs = p :: q :: rest := by
    rcases vs with _ | ⟨p, _ | ⟨q, rest⟩⟩
    · exact absurd h.several (by simp)
    · exact absurd h.several (by simp)
    · exact ⟨p, q, rest, rfl⟩
  have hne : p.1 ≠ q.1 := by
    have := h.nodup
    simp only [List.map_cons, List.nodup_cons, List.mem_cons, not_or] at this
    exact this.1.1
  have hother {r : TimeUnit × String} (hr : r ∈ p :: q :: rest) (hru : r.1 ≠ u) :
      Values.units [(u, text)] ≠ Values.units (p :: q :: rest) := by
    have hlookup := (mem_iff_lookup h.nodup).1 (show (r.1, r.2) ∈ p :: q :: rest from hr)
    refine units_ne_of_lookup (u := r.1) ?_ ?_ (by rw [hlookup]; rfl)
    · intro hz
      rw [hz, h.zone] at hlookup
      cases hlookup
    · rw [List.lookup_cons, beq_eq_false_iff_ne.2 hru]
      rfl
  by_cases hp : p.1 = u
  · exact hother (r := q) (by simp) fun hq => hne (hp.trans hq.symm)
  · exact hother (r := p) (by simp) hp

end Values

lemma YearText.ne_empty (h : YearText text) : text ≠ "" := by
  rcases h with ⟨n, rfl⟩ | ⟨-, hl⟩
  · exact Text.toString_ne_empty n
  · rintro rfl
    cases hl

lemma YearText.isNumeral (h : YearText text) : Text.isNumeral text = true := by
  rcases h with ⟨n, rfl⟩ | ⟨h, -⟩
  · exact Text.isNumeral_toString n
  · exact h

namespace Value

lemma sole_of_read {default : Option TimeUnit} (htimed : isTimed (significant ts) = false)
    (hdash : hasDateDash (significant ts) = false) (h : Value.read ts default = .ok ws) :
    ∃ u text, ws = [(u, text)] := by
  have hne : significant ts ≠ [] := by
    intro hnil
    unfold Value.read at h
    simp only [significant_trimTrivia, hnil] at h
    cases h
  -- a special day, or one word of a unit
  rw [read_eq_of_untimed hne htimed hdash] at h
  split at h
  · obtain ⟨⟨explicit, rest⟩, -, h⟩ := bind_eq_ok.1 h
    dsimp only at h
    split at h
    · cases h
    split at h <;> cases h <;> exact ⟨_, _, rfl⟩
  · obtain ⟨⟨explicit, rest⟩, -, h⟩ := bind_eq_ok.1 h
    dsimp only at h
    -- one word is left, and its kind decides what it is the value of
    rcases rest with _ | ⟨value, _ | ⟨extra, rest⟩⟩
    · cases h
    · dsimp only at h
      split at h
      · split at h <;> cases h
        exact ⟨_, _, rfl⟩
      · split at h
        · cases h
          exact ⟨_, _, rfl⟩
        · split at h <;> cases h
          exact ⟨_, _, rfl⟩
      · split at h
        · cases h
          exact ⟨_, _, rfl⟩
        · split at h <;> cases h
          exact ⟨_, _, rfl⟩
      · cases h
    · cases h

def Unsigned (text : String) : Prop :=
  ∃ ls, Phrase text ls ∧ ∀ ts, Spell ts ls → isTimed (significant ts) = false
    ∧ Undivided (significant ts) ∧ significant ts ≠ []

lemma Unsigned.append {text' : String} (h : Unsigned text) (h' : Unsigned text') :
    Unsigned (text ++ " " ++ text') := by
  obtain ⟨ls, hls, htokens⟩ := h
  obtain ⟨ls', hls', htokens'⟩ := h'
  refine ⟨_, hls.spaced hls', fun ts hts => ?_⟩
  obtain ⟨as, _, rfl, has, h₁⟩ := spell_append hts
  obtain ⟨_, _, _, bs, rfl, hbs⟩ := spell_cons h₁
  obtain ⟨htimed, hundivided, hne⟩ := htokens as has
  obtain ⟨htimed', hundivided', hne'⟩ := htokens' bs hbs
  rw [significant_append_blank rfl, isTimed_append, htimed, htimed']
  exact ⟨rfl, hundivided.append hundivided' hne', by simp [hne]⟩

lemma unsigned_intercalate {texts : List String} (h : ∀ text ∈ texts, Unsigned text)
    (hne : texts ≠ []) : Unsigned (" ".intercalate texts) := by
  induction texts with
  | nil => exact absurd rfl hne
  | cons text texts ih =>
    obtain ⟨htext, hrest⟩ := List.forall_mem_cons.1 h
    cases texts with
    | nil => simpa using htext
    | cons text' texts =>
      rw [String.intercalate_cons_cons]
      exact htext.append (ih hrest (by simp))

lemma unsigned_unit (hu : u ≠ .timeZone) : Unsigned u.name := by
  refine ⟨_, phrase_unit hu, fun ts hts => ?_⟩
  obtain ⟨_, _, _, rfl⟩ := spell_singleton hts
  exact ⟨rfl, undivided_singleton (by rintro ⟨⟩), by rintro ⟨⟩⟩

lemma misread_of_unsigned (h : Unsigned text) (hvs : vs.Composite) : Misread text vs := by
  obtain ⟨ls, hls, htokens⟩ := h
  refine ⟨ls, hls, fun ts hts default ws hread => ?_⟩
  obtain ⟨htimed, hundivided, -⟩ := htokens ts hts
  obtain ⟨u, text, rfl⟩ := sole_of_read htimed (hasDateDash_eq_false hundivided) hread
  exact ⟨by simp, hvs.units_ne_singleton u text⟩

lemma numeral_spelling (h : Text.isNumeral text = true) (hne : text ≠ "") : ∃ ls, Phrase text ls
    ∧ ∀ ts, Spell ts ls → SoleTokens u (Text.dropZeros text) (significant ts) := by
  refine ⟨_, .word hne (wordKind_of_isNumeral h) rfl, fun ts hts => ?_⟩
  obtain ⟨_, _, _, rfl⟩ := spell_singleton hts
  exact ⟨List.forall_mem_singleton.2 rfl, rfl, undivided_singleton (by rintro ⟨⟩), by rintro ⟨⟩,
    Or.inr ⟨_, rfl, Or.inl ⟨rfl, rfl⟩⟩⟩

lemma unsigned_of_spelling {text' : String} (h : ∃ ls, Phrase text ls
    ∧ ∀ ts, Spell ts ls → SoleTokens u text' (significant ts)) : Unsigned text := by
  obtain ⟨ls, hls, htokens⟩ := h
  exact ⟨ls, hls, fun ts hts => ⟨(htokens ts hts).untimed, (htokens ts hts).undivided,
    (htokens ts hts).nonempty⟩⟩

lemma unsigned_single (h : Sole u text ∨ u = .year ∧ YearText text) :
    Unsigned (Canonical.single u text) := by
  have hu : u ≠ .timeZone := by
    rcases h with h | ⟨rfl, -⟩
    · exact h.ne_timeZone
    · decide
  have htext : Unsigned text := by
    rcases h with h | ⟨rfl, h⟩
    · exact unsigned_of_spelling h.spelling
    · exact unsigned_of_spelling (u := .year) (numeral_spelling h.isNumeral h.ne_empty)
  rcases single_eq u text with heq | ⟨heq, -⟩
  · rw [heq]
    exact (unsigned_unit hu).append htext
  · rw [heq]
    exact htext

end Value

namespace Values

open Value

lemma Composite.misread_of_no_phrase (h : vs.Composite) (hp : Canonical.phrase vs = none) :
    Misread (Canonical.values vs) vs := by
  have hne : vs ≠ [] := Formed.ne_nil (Or.inr h)
  have hvalues : Canonical.values vs
      = " ".intercalate (vs.map fun v => Canonical.single v.1 v.2) := by
    unfold Canonical.values
    split
    · exact absurd h.several (by simp)
    · rw [hp, Option.getD_none]
  rw [hvalues]
  refine misread_of_unsigned (unsigned_intercalate ?_ (by simpa using hne)) h
  intro text htext
  obtain ⟨v, hv, rfl⟩ := List.mem_map.1 htext
  exact unsigned_single (Formed.sole (Or.inr h) hv)

lemma wordKind_of_edge {month : String} {e : Edge} (h : MonthText month)
    (he : SpecialDay.ofWord? month = some (.edge e)) :
    wordKind month = .ok (.special (.edge e)) := by
  have hlookup : SpecialDay.words.lookup month.toLower = some (.edge e) := by
    rcases SpecialDay.ofWord?_eq_some he with hd | ⟨n, -, hn⟩ | ⟨n, -, hn⟩
    · exact hd
    · cases hn
    · cases hn
  have hletters := SpecialDay.isLetter_of_word hlookup
  cases h with
  | number n => exact absurd hletters (not_letters_toString n)
  | name hw =>
    have hnames : ∀ p ∈ SpecialDay.words, MonthName.names.lookup p.1 = none := by decide
    cases means_of_wordKind hw with
    | month hname =>
      rw [MonthName.number?, hnames (month.toLower, .edge e) (mem_of_lookup hlookup)] at hname
      cases hname
  | edge h =>
    have hw := h.wordKind_of_letters hletters
    cases means_of_wordKind hw with
    | special hspecial =>
      rw [hspecial] at he
      cases he
      exact hw

lemma not_clock {front : Values} (h : ∀ u ∈ front.map Prod.fst, u ∉ clockUnits) :
    ∀ u ∈ clockUnits, front.lookup u = none := fun _ hu =>
  lookup_eq_none fun p hp heq => h p.1 (List.mem_map_of_mem hp) (heq ▸ hu)

lemma exists_of_edgeBeforeDay (h : vs.edgeBeforeDay = true) : ∃ m d e, vs.lookup .month = some m
    ∧ vs.lookup .day = some d ∧ SpecialDay.ofWord? m = some (.edge e)
    ∧ Text.isNumeral d = true := by
  unfold edgeBeforeDay at h
  split at h
  · rename_i m d hm hd
    split at h
    · exact ⟨m, d, _, hm, hd, ‹_›, h⟩
    · cases h
  · cases h

/-- A bare edge and the number of a day behind it, with a dash, are an edge with an offset. -/
lemma Composite.offset_of_edge (h : vs.Composite) (hedge : vs.edgeBeforeDay = true) :
    ∃ m n e, vs.lookup .month = some m ∧ vs.lookup .day = some (toString n)
      ∧ DaySpelling (.edge e) (m ++ "-" ++ toString n)
        [⟨.special (.edge e), m⟩, .dash, .number n] := by
  obtain ⟨m, d, e, hm, hd, he, hdn⟩ := exists_of_edgeBeforeDay hedge
  obtain ⟨n, rfl⟩ : ∃ n : Nat, d = toString n := by
    cases h.day d hd with
    | number n => exact ⟨n, rfl⟩
    | special h =>
      rw [h.not_numeral] at hdn
      cases hdn
  exact ⟨m, n, e, hm, hd, .offset n (wordKind_of_edge (h.month m hm) he) rfl (Or.inr rfl)⟩

/-- The date of an edge with an offset has no day of its own: it is the edge, alone or as the month
of a year. -/
lemma Composite.dashedDate_of_offset (h : vs.Composite) {m date : String} {n : Nat} {e : Edge}
    (hm : vs.lookup .month = some m) (hd : vs.lookup .day = some (toString n))
    (hoffset : DaySpelling (.edge e) (m ++ "-" ++ toString n)
      [⟨.special (.edge e), m⟩, .dash, .number n])
    (hdate : Canonical.dashedDate (vs.lookup .year) (vs.lookup .month) (vs.lookup .day)
      = some date) :
    date = m ++ "-" ++ toString n ∨ ∃ ls y, Phrase date ls
      ∧ ∀ ts, Spell ts ls → DateTokens [(.year, y), (.month, m ++ "-" ++ toString n)] ts := by
  rw [hm, hd] at hdate
  obtain ⟨-, hyear, -, rfl⟩ := dashedDate_eq_some h.year hdate
  cases hy : vs.lookup .year with
  | none => exact Or.inl (by simp [String.intercalate_cons_cons])
  | some y =>
    obtain ⟨n', hmin, hmax, rfl⟩ := hyear y hy
    obtain ⟨ls, hls, htokens⟩ := yearMonth_spelled
      (FieldSpelling.special hoffset (by simp) (Or.inr ⟨rfl, e, rfl⟩)) ⟨hmin, hmax⟩
    refine Or.inr ⟨ls, toString n', ?_, htokens⟩
    simpa [String.intercalate_cons_cons, String.append_assoc] using hls

lemma misread_of_timed (front : Values) {phrase : String} (hls : Phrase phrase ls) (h m : Nat)
    (s : Option Nat) (hfront : (front.map Prod.fst).Nodup)
    (hclock : ∀ u ∈ front.map Prod.fst, u ∉ clockUnits)
    (hread : ∀ as bs clock, Spell as ls → ClockTokens clock bs → ∀ b : Token, b.kind = .blank →
      ∀ default, Value.read (as ++ b :: bs) default = .ok (front ++ clock))
    (hu : u ∉ .timeZone :: clockUnits) (hmissing : front.lookup u = none)
    (hvs : (vs.lookup u).isSome = true) : Misread (phrase ++ " " ++ clockText h m s) vs := by
  obtain ⟨hzone, hunit⟩ := List.ne_and_not_mem_of_not_mem_cons hu
  refine ⟨_, hls.spaced (phrase_clock h m s), fun ts hts default ws hws => ?_⟩
  obtain ⟨as, _, rfl, has, h₁⟩ := spell_append hts
  obtain ⟨_, _, _, bs, rfl, hbs⟩ := spell_cons h₁
  rw [hread as bs _ has (clockTokens_of_spell hbs) _ rfl] at hws
  obtain rfl := Except.ok.inj hws
  refine ⟨nodup_append_clockValues front hfront (not_clock hclock) h m s,
    units_ne_of_lookup hzone ?_ hvs⟩
  rw [List.lookup_append, hmissing, Option.none_or, lookup_clockValues]
  cases u <;> simp [clockUnits] at hunit ⊢

lemma Composite.misread_of_edge (h : vs.Composite) (hp : (Canonical.phrase vs).isSome = true)
    (hedge : vs.edgeBeforeDay = true) : Misread (Canonical.values vs) vs := by
  obtain ⟨phrase, hphrase⟩ := Option.isSome_iff_exists.1 hp
  obtain ⟨m, n, e, hm, hd, hoffset⟩ := h.offset_of_edge hedge
  have hmonth : (vs.lookup .month).isSome = true := by rw [hm]; rfl
  have hday : (vs.lookup .day).isSome = true := by rw [hd]; rfl
  rw [canonical_of_phrase h.several hphrase]
  rw [h.phrase_eq] at hphrase
  split at hphrase
  -- with a time
  · obtain ⟨time, htime, hrest⟩ := Option.bind_eq_some_iff.1 hphrase
    obtain ⟨hn, mn, sn, -, -, -, rfl⟩ := clock_eq_some (by
      rintro t (ht | ht | ht)
      · exact h.number .hour (by decide) t ht
      · exact h.number .minute (by decide) t ht
      · exact h.number .second (by decide) t ht) htime
    obtain ⟨date, hdate, rfl⟩ := Option.map_eq_some_iff.1 hrest
    rcases h.dashedDate_of_offset hm hd hoffset hdate with rfl | ⟨ls, y, hls, htokens⟩
    · exact misread_of_timed [(.day, _)] (.day hoffset) hn mn sn (by simp) (by simp [clockUnits])
        (fun as bs clock has hbs b hb default => (hoffset.dayTokens has).read_append hbs hb)
        (u := .month) (by decide) rfl hmonth
    · exact misread_of_timed _ hls hn mn sn (by simp) (by simp [clockUnits])
        (fun as bs clock has hbs b hb default => (htokens as has).read_append hbs hb)
        (u := .day) (by decide) rfl hday
  -- without
  · rcases h.dashedDate_of_offset hm hd hoffset hphrase with rfl | ⟨ls, y, hls, htokens⟩
    · exact misread_of_unsigned (unsigned_of_spelling
        ⟨_, .day hoffset, fun ts hts => soleTokens_of_day hoffset (u := .day) (Or.inl rfl) hts⟩) h
    · refine ⟨ls, hls, fun ts hts default ws hread => ?_⟩
      rw [(htokens ts hts).read_eq] at hread
      obtain rfl := Except.ok.inj hread
      exact ⟨by simp, units_ne_of_lookup (u := .day) (by decide) rfl hday⟩

/-- Texts that go together and cannot be written are read with other units, if at all. -/
theorem Composite.misread (h : vs.Composite) (hw : vs.isWritable = false) :
    Misread (Canonical.values vs) vs := by
  rw [h.isWritable_eq] at hw
  cases hp : Canonical.phrase vs with
  | none => exact h.misread_of_no_phrase hp
  | some phrase =>
    refine h.misread_of_edge (by rw [hp]; rfl) ?_
    simpa [hp] using hw

end Values

/-! ### Rules -/

/-- Whatever the text is read as among blanks, it has the units of the values only if these can be
written. -/
def Traced (text : String) (vs : Values) : Prop :=
  ∃ ls, Phrase text ls ∧ ∀ item, Rule.Padded item ls →
    ∀ bs : List Token, (∀ t ∈ bs, t.kind = .blank) →
    ∀ default ws, Value.read (item ++ bs) default = .ok ws →
      (ws.map Prod.fst).Nodup ∧ (ws.units = vs.units → vs.isWritable = true)

lemma Values.Formed.traced (h : vs.Formed) (hm : vs.Meaningful) :
    Traced (Canonical.values vs) vs := by
  cases hw : vs.isWritable with
  | true =>
    obtain ⟨ls, hls, hread⟩ := (h.readsBack hm hw).padded
    refine ⟨ls, hls, fun item hitem bs hbs default ws hws => ⟨?_, fun _ => hw⟩⟩
    obtain ⟨ws', hws', hsame⟩ := hread item hitem bs hbs default trivial
    obtain rfl := Except.ok.inj (hws'.symm.trans hws)
    exact hsame.1
  | false =>
    have hcomposite : vs.Composite := by
      rcases h with ⟨u, text, rfl, h⟩ | h
      · rw [isWritable, h.not_isPadded] at hw
        cases hw
      · exact h
    obtain ⟨ls, hls, hread⟩ := hcomposite.misread hw
    refine ⟨ls, hls, ?_⟩
    rintro _ ⟨as, us, rfl, has, hus⟩ bs hbs default ws hws
    rw [hls.read_padded hus has hbs] at hws
    obtain ⟨hnodup, hunits⟩ := hread us hus default ws hws
    exact ⟨hnodup, fun heq => absurd heq hunits⟩

namespace Range

variable {starts stops : Values} {r : Range}

lemma units_ofSides (h : (starts.map Prod.fst).Nodup) (hunits : starts.units = stops.units) :
    (ofSides starts stops).units = starts.units := by
  refine UnitSet.ext_has fun u => ?_
  have hhas : starts.units.has u = stops.units.has u := by rw [hunits]
  rw [Values.has_units, Values.has_units] at hhas
  rw [units, UnitMap.has_units, get?_ofSides h, Values.has_units]
  cases hs : starts.lookup u with
  | none => rfl
  | some text =>
    rw [hs] at hhas
    cases ht : stops.lookup u with
    | none =>
      rw [ht] at hhas
      simpa using hhas.symm
    | some other => rfl

lemma Formed.traced (h : r.Formed) (hm : r.Meaningful) : ∃ ls, Item (Canonical.range r) ls
    ∧ ∀ item, Rule.Padded item ls → ∀ bs : List Token, (∀ t ∈ bs, t.kind = .blank) → ∀ default,
      Rule.readRange default (item ++ bs) = .ok r → ∀ v ∈ [r.starts, r.stops],
        v.isWritable = true := by
  obtain ⟨heq, hstarts, hstops, hunits⟩ := h.ofSides_eq
  obtain ⟨ls, hls, hread⟩ := hstarts.traced hm.1
  obtain ⟨ls', hls', hread'⟩ := hstops.traced hm.2
  refine ⟨_, .between hls hls', fun item hitem bs hbs default hr => ?_⟩
  obtain ⟨first, second, as, unit, cause, hfirst, hsecond, has, hrange⟩ :=
    Rule.readRange_between hls hls' hitem hbs default
  rw [hrange] at hr
  obtain ⟨starts, hs, h₁⟩ := Value.bind_eq_ok.1 hr
  obtain ⟨stops, ht, h₂⟩ := Value.bind_eq_ok.1 h₁
  split at h₂
  · cases h₂
  rename_i hsides
  have hsides := not_not.1 hsides
  obtain ⟨hnodup, hw⟩ := hread first hfirst as has unit starts hs
  obtain ⟨-, hw'⟩ := hread' second hsecond bs hbs unit stops ht
  -- both ways of making the range, out of what is read and out of its sides
  have hwhole : starts.units = r.starts.units := by
    rw [← units_ofSides hnodup hsides, ← units_ofSides hstarts.nodup hunits, heq]
    exact congrArg Range.units (Except.ok.inj h₂)
  refine List.forall_mem_cons.2 ⟨hw hwhole, List.forall_mem_singleton.2 (hw' ?_)⟩
  rw [← hsides, hwhole, hunits]

end Range

lemma Columns.units_ofRecords {records : List Values} {shape : UnitSet} (hne : records ≠ [])
    (h : ∀ r ∈ records, (r.map Prod.fst).Nodup ∧ r.units = shape) :
    (ofRecords records).units = shape := by
  refine UnitSet.ext_has fun u => ?_
  rw [units, UnitMap.has_units, ofRecords, Rule.isSome_foldl_addRecord fun r hr => (h r hr).1]
  obtain ⟨r, rs, rfl⟩ := List.exists_cons_of_ne_nil hne
  by_cases hu : u = .timeZone
  · simp [hu]
  have hhas : ∀ r' ∈ r :: rs, (r'.lookup u).isSome = shape.has u := by
    intro r' hr'
    rw [← (h r' hr').2, Values.has_units, decide_eq_true hu, Bool.and_true]
  rw [decide_eq_true hu, Bool.and_true, UnitMap.get?_empty, Option.isSome_none, Bool.false_or,
    Bool.eq_iff_iff, List.any_eq_true]
  constructor
  · rintro ⟨r', hr', hsome⟩
    rwa [← hhas r' hr']
  · intro hsome
    exact ⟨r, List.mem_cons_self, by rw [hhas r List.mem_cons_self, hsome]⟩

namespace Rule

variable {r : Rule}

/-- The canonical text of the rule is one clause, which is read as one rule, if it is read at all,
and as the rule itself only if that can be written. -/
def Recognized (r : Rule) : Prop := r.SaidAs fun x => ∀ rules, x = .ok rules →
  ∃ r', rules = [r'] ∧ (r' = r → r.isWritable = true)

lemma Restored.recognized (h : r.Restored) (hw : r.isWritable = true) : r.Recognized :=
  h.imp fun _ hx _ hrules => ⟨r, Except.ok.inj (hrules.symm.trans hx), fun _ => hw⟩

lemma recognized_equals (h : Sole u text ∨ u = .year ∧ YearText text)
    (hw : (equals u text).isWritable = false) : (equals u text).Recognized := by
  have hpadded : Text.isPadded text = true := by
    simpa [isWritable, values, Values.isWritable] using hw
  rcases h with h | ⟨rfl, h⟩
  · rw [h.not_isPadded] at hpadded
    cases hpadded
  · obtain ⟨ls, hls, htokens⟩ := Value.numeral_spelling (u := .year) h.isNumeral h.ne_empty
    have hback : ReadsBack (fun _ => True) (Canonical.single .year text)
        [(.year, Text.dropZeros text)] := by
      refine ⟨_, (phrase_unit (by decide)).spaced hls,
        fun ts hts default _ => ⟨_, ?_, by simp, fun _ => rfl⟩⟩
      obtain ⟨_, _, _, _, rfl, h₁⟩ := spell_cons hts
      obtain ⟨_, _, _, _, rfl, h₂⟩ := spell_cons h₁
      exact (htokens _ h₂).read_unit rfl rfl
    refine (saidAs_equals hback).imp fun x hx rules hrules =>
      ⟨_, Except.ok.inj (hrules.symm.trans hx), fun heq => ?_⟩
    have heq : Text.dropZeros text = text := by simpa using heq
    rw [Text.isPadded, heq] at hpadded
    simp at hpadded

lemma recognized_records {c : Columns} {records : List Values} {shape : UnitSet}
    (h : Columns.Alike records shape) (hne : records ≠ []) (hf : ∀ v ∈ records, v.Formed)
    (hc : c = .ofRecords records) (hm : ∀ v ∈ c.records, v.Meaningful)
    (hw : (oneOf c).isWritable = false) : (oneOf c).Recognized := by
  obtain ⟨hformed, hof, hrecords⟩ := formed_records h hne hf hc
  -- values without a unit in common: in one unit they could all be written
  have hshared : Canonical.sharedUnit c.records = none := by
    rw [← Option.not_isSome_iff_eq_none, Option.isSome_iff_exists]
    rintro ⟨u, hu⟩
    refine Bool.eq_false_iff.1 hw (List.all_eq_true.2 fun v hv => ?_)
    obtain ⟨text, -, rfl⟩ := exists_of_forall₂ (forall₂_sharedUnit hu).flip hv
    rw [Values.isWritable, (hformed _ hv).1.of_singleton.not_isPadded]
    rfl
  -- each record is an item, and an item that is read with its units can be written
  obtain ⟨lss, hlss, hreads⟩ := exists_lexemes (f := Canonical.values)
    (P := fun v ls => ∀ item, Padded item ls → ∀ default ws, Value.read item default = .ok ws →
      (ws.map Prod.fst).Nodup ∧ (ws.units = v.units → v.isWritable = true))
          fun v (hv : v ∈ c.records) => by
      obtain ⟨ls, hls, hread⟩ := (hformed v hv).1.traced (hm v hv)
      refine ⟨ls, hls.item, fun item hitem default ws hws => ?_⟩
      exact hread item hitem [] (by simp) default ws (by rwa [List.append_nil])
  obtain ⟨hkey, hkne⟩ := wordKind_keyword_of_records c.records
  have hnamed : (none : Option TimeUnit) ≠ some .timeZone := by decide
  refine saidAs_of_list hkey (by decide) hkne hnamed hlss
    (by simpa using hrecords) (congrArg (fun text => _ ++ " " ++ text) (list_of_sharedUnit hshared))
      ?_
  -- so if the list that is read is the one written, all of its records can be
  intro head body list hbracket hread _ hpadded rules hrules
  have hrules : readPick body = .ok rules := hrules
  rw [readPick, if_pos hbracket] at hrules
  obtain ⟨list', hlist, h₁⟩ := Value.bind_eq_ok.1 hrules
  obtain rfl := Except.ok.inj (hread.symm.trans hlist)
  obtain ⟨records', hrecords', h₂⟩ := Value.bind_eq_ok.1 h₁
  obtain rfl := Except.ok.inj h₂
  obtain ⟨hitems, -, hunits⟩ := readItems_eq_ok hrecords'
  have hpairs : List.Forall₂ (fun v ws : Values => (ws.map Prod.fst).Nodup
      ∧ (ws.units = v.units → v.isWritable = true)) c.records records' :=
    forall₂_of_common (fun v item ws hv hws => hv list.default ws hws)
      (forall₂_of_common (fun v ls item hv hitem => hv item hitem) hreads hpadded) hitems.flip
  refine ⟨_, rfl, fun heq => List.all_eq_true.2 fun v hv => ?_⟩
  have heq : Columns.ofRecords records' = c := oneOf.inj heq
  obtain ⟨ws, hws, -, hwritable⟩ := exists_of_forall₂ hpairs.flip hv
  refine hwritable ?_
  have hshape' := Columns.units_ofRecords (List.ne_nil_of_mem hws) fun r hr => by
    obtain ⟨v', -, hnodup, -⟩ := exists_of_forall₂ hpairs hr
    exact ⟨hnodup, hunits r hr ws hws⟩
  have hshape := Columns.units_ofRecords hrecords fun r hr =>
    ⟨(hformed r hr).1.nodup, (hformed r hr).2⟩
  rw [← hshape', heq, ← hof, hshape, (hformed v hv).2]

lemma recognized_within {s : Range} (h : s.Formed) (hm : s.Meaningful) : (within s).Recognized := by
  obtain ⟨ls, hls, htraced⟩ := h.traced hm
  refine saidAs_of_word wordKind_between (by decide) (by decide) rfl hls.reads hls.closed hls.inBody
    ?_
  intro head item hitem bs hbs rules hrules
  have hrules : readBetween (item ++ bs) = .ok rules := hrules
  rw [readBetween, if_neg (by
    rw [hasBracket_eq_false hitem (fun l hl => (Lexeme.isInner_kind (hls.inner l hl)).2.2.1) hbs]
    decide)] at hrules
  obtain ⟨s', hs', h₁⟩ := Value.bind_eq_ok.1 hrules
  obtain rfl := Except.ok.inj h₁
  refine ⟨_, rfl, fun heq => List.all_eq_true.2 ?_⟩
  obtain rfl := within.inj heq
  exact htraced item hitem bs hbs none hs'

lemma recognized_withinAny {rs : List Range} (hne : rs ≠ []) (h : ∀ s ∈ rs, s.Formed)
    (hm : ∀ s ∈ rs, s.Meaningful) : (withinAny rs).Recognized := by
  -- each range is an item, and an item that is read as the range has sides that can be written
  obtain ⟨lss, hitems, hreads⟩ := exists_lexemes (f := Canonical.range) (P := fun s ls =>
    ∀ item, Padded item ls → ∀ default, readRange default item = .ok s →
      ∀ v ∈ [s.starts, s.stops], v.isWritable = true) fun s (hs : s ∈ rs) => by
      obtain ⟨ls, hls, htraced⟩ := (h s hs).traced (hm s hs)
      refine ⟨ls, hls, fun item hitem default hr => ?_⟩
      exact htraced item hitem [] (by simp) default (by rwa [List.append_nil])
  have hnamed : (none : Option TimeUnit) ≠ some .timeZone := by decide
  refine saidAs_of_list wordKind_between (by decide) (by decide) hnamed hitems (by simpa using hne)
    ?_ ?_
  · simp only [canonical, leadText]
    rfl
  intro head body list hbracket hread _ hpadded rules hrules
  have hrules : readBetween body = .ok rules := hrules
  rw [readBetween, if_pos hbracket] at hrules
  obtain ⟨list', hlist, h₁⟩ := Value.bind_eq_ok.1 hrules
  obtain rfl := Except.ok.inj (hread.symm.trans hlist)
  obtain ⟨ranges, hranges, h₂⟩ := Value.bind_eq_ok.1 h₁
  clear hrules h₁
  dsimp only at h₂
  split at h₂
  · cases h₂
  obtain rfl := Except.ok.inj h₂
  refine ⟨_, rfl, fun heq => List.all_eq_true.2 fun v hv => ?_⟩
  obtain rfl := withinAny.inj heq
  -- item by item, what is read stands for what was written
  have hpairs := forall₂_of_common (T := fun s s' => s' = s →
      ∀ v ∈ [s.starts, s.stops], v.isWritable = true)
    (fun s item s' hs hs' heq => hs list.default (heq ▸ hs'))
    (forall₂_of_common (fun s ls item hs hitem => hs item hitem) hreads hpadded)
    (Value.forall₂_of_mapM hranges).flip
  obtain ⟨s, hs, hv⟩ := List.mem_flatMap.1 hv
  exact List.forall₂_same.1 hpairs s hs rfl v hv

/-- A rule that means something is read from its canonical text as one rule, if it is read at all,
and as itself only if the text can say it. -/
theorem Formed.recognized (h : r.Formed) (hm : r.Meaningful) : r.Recognized := by
  cases hw : r.isWritable with
  | true => exact (h.restored hm hw).recognized hw
  | false =>
    cases h with
    | every | zone => cases hw
    | equals h => exact recognized_equals h hw
    | oneOf h hne hf => exact recognized_records h hne hf rfl hm hw
    | within h => exact recognized_within h hm
    | withinAny hne h => exact recognized_withinAny hne h hm

end Rule

end Recurrence
