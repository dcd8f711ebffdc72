import Recurrence.Proofs.Value.RoundTrips
import Recurrence.RuleSet

/-!
Texts under several units, read back from their canonical text. They are when it is a phrase, and
the phrase does not run a bare edge as the month into the number of a day, which would be read as an
offset from the edge.

Main statement: `Values.Composite.readsBack`.
-/

namespace Recurrence

open Token

/-! ### What the phrase is made of -/

namespace UnitSet

lemma has_sdiff (s t : UnitSet) (u : TimeUnit) : (s \ t).has u = (s.has u && !t.has u) := by
  by_cases hu : u = .timeZone
  · subst hu
    simp
  · have hlt : u.position < 7 := by cases u <;> first | decide | exact absurd rfl hu
    show (s.bits &&& ~~~t.bits).getLsbD u.position = _
    rw [BitVec.getLsbD_and, BitVec.getLsbD_not, decide_eq_true hlt, Bool.true_and]
    rfl

lemma isEmpty_iff {s : UnitSet} : s.isEmpty = true ↔ ∀ u, s.has u = false := by
  rw [isEmpty, beq_iff_eq]
  exact ⟨fun h u => by rw [h, has_empty], fun h => ext_has fun u => by rw [h, has_empty]⟩

lemma intersects_iff {s t : UnitSet} :
    s.intersects t = true ↔ ∃ u, s.has u = true ∧ t.has u = true := by
  rw [intersects, Bool.not_eq_true', ← Bool.not_eq_true, isEmpty_iff, not_forall]
  simp

end UnitSet

namespace Values

variable {vs : Values}

lemma has_units (u : TimeUnit) :
    vs.units.has u = ((vs.lookup u).isSome && decide (u ≠ .timeZone)) := by
  have hmem : (vs.map Prod.fst).contains u = (vs.lookup u).isSome := by
    rw [Bool.eq_iff_iff, List.contains_iff_mem]
    constructor
    · intro h
      by_contra hnone
      rw [Bool.not_eq_true, Option.isSome_eq_false_iff, Option.isNone_iff_eq_none,
        List.lookup_eq_none_iff] at hnone
      obtain ⟨p, hp, rfl⟩ := List.mem_map.1 h
      exact bne_iff_ne.1 (hnone p hp) rfl
    · intro h
      obtain ⟨text, ht⟩ := Option.isSome_iff_exists.1 h
      exact List.mem_map.2 ⟨_, mem_of_lookup ht, rfl⟩
  rw [units, UnitSet.has_ofList, hmem]

/-- Whether the month is a bare edge and the day a number. With a dash between them the two are read
as an edge with an offset. -/
def edgeBeforeDay (vs : Values) : Bool :=
  match vs.lookup .month, vs.lookup .day with
  | some m, some d =>
    match SpecialDay.ofWord? m with
    | some (.edge _) => Text.isNumeral d
    | _ => false
  | _, _ => false

lemma Composite.intersects_clock (h : vs.Composite) :
    vs.units.intersects UnitSet.clock = (vs.lookup .hour).isSome := by
  rw [Bool.eq_iff_iff, UnitSet.intersects_iff]
  constructor
  · rintro ⟨u, hu, hc⟩
    rw [has_units, Bool.and_eq_true] at hu
    cases u
    case second => exact h.hour (h.minute hu.1)
    case minute => exact h.hour hu.1
    case hour => exact hu.1
    all_goals exact absurd hc (by decide)
  · intro hh
    exact ⟨.hour, by rw [has_units, hh]; rfl, rfl⟩

lemma Composite.isEmpty_sdiff_clock (h : vs.Composite) : (vs.units \ UnitSet.clock).isEmpty = true
    ↔ (vs.lookup .month).isSome = false ∧ (vs.lookup .day).isSome = false := by
  rw [UnitSet.isEmpty_iff]
  constructor
  · intro hnone
    -- what is outside the clock is not there
    have hof {u : TimeUnit} (hu : u ≠ .timeZone) (hc : UnitSet.clock.has u = false) :
        (vs.lookup u).isSome = false := by
      have := hnone u
      rwa [UnitSet.has_sdiff, has_units, hc, decide_eq_true hu, Bool.and_true, Bool.not_false,
        Bool.and_true] at this
    exact ⟨hof (by decide) rfl, hof (by decide) rfl⟩
  · rintro ⟨hm, hd⟩ u
    -- a year goes with a day or a month, so there is none without them
    have hy : (vs.lookup .year).isSome = false := by
      rw [Bool.eq_false_iff]
      intro hy
      rcases h.yearPartner hy with hd' | hm'
      · rw [hd] at hd'
        cases hd'
      · rw [hm] at hm'
        cases hm'
    rw [UnitSet.has_sdiff, has_units]
    cases u
    case second => exact Bool.and_false _
    case minute => exact Bool.and_false _
    case hour => exact Bool.and_false _
    case day => rw [hd]; rfl
    case week => rw [h.week]; rfl
    case month => rw [hm]; rfl
    case year => rw [hy]; rfl
    case timeZone => rw [h.zone]; rfl

lemma Composite.phrase_eq (h : vs.Composite) : Canonical.phrase vs
    = if (vs.lookup .hour).isSome = true then do
        let time ← Canonical.clock (vs.lookup .hour) (vs.lookup .minute) (vs.lookup .second)
        if (vs.lookup .month).isSome = true then
          (Canonical.dashedDate (vs.lookup .year) (vs.lookup .month) (vs.lookup .day)).map
            (· ++ " " ++ time)
        else if (vs.lookup .day).isSome = true then
          (Canonical.dayPhrase (vs.lookup .year) (vs.lookup .day)).map (· ++ " " ++ time)
        else some time
      else Canonical.dashedDate (vs.lookup .year) (vs.lookup .month) (vs.lookup .day) := by
  have hweek : vs.units.has .week = false := by rw [has_units, h.week]; rfl
  unfold Canonical.phrase
  simp only [h.intersects_clock, hweek, h.isEmpty_sdiff_clock, Bool.false_eq_true, if_false]
  split
  · cases Canonical.clock (vs.lookup .hour) (vs.lookup .minute) (vs.lookup .second) with
    | none => rfl
    | some time =>
      simp only [Option.bind_eq_bind, Option.bind_some]
      rw [Option.map_eq_bind, Option.map_eq_bind]
      cases (vs.lookup .month).isSome <;> cases (vs.lookup .day).isSome <;> rfl
  · rfl

end Values

/-! ### The parts of a phrase -/

namespace Text

lemma not_isBlank_of_isDigit {c : Char} (h : c.isDigit = true) : isBlank c = false := by
  obtain ⟨h0, h9⟩ := Char.isDigit_iff_toNat.1 h
  have h48 : '0'.toNat = 48 := rfl
  have h57 : '9'.toNat = 57 := rfl
  rw [isBlank, decide_eq_true (by omega), decide_eq_true (by omega)]
  rfl

lemma trimChars_of_ends {cs : List Char} (hhead : ∀ c ∈ cs.head?, isBlank c = false)
    (hlast : ∀ c ∈ cs.getLast?, isBlank c = false) : trimChars cs = cs := by
  have hdrop {ds : List Char} (hd : ∀ c ∈ ds.head?, isBlank c = false) :
      ds.dropWhile isBlank = ds := by
    cases ds with
    | nil => rfl
    | cons d ds => rw [List.dropWhile_cons, if_neg (by simp [hd d rfl])]
  rw [trimChars, hdrop hhead, hdrop (by rwa [List.head?_reverse]), List.reverse_reverse]

lemma trimChars_eq {cs : List Char} (h : ∀ c ∈ cs, isBlank c = false) : trimChars cs = cs :=
  trimChars_of_ends (fun c hc => h c (List.mem_of_mem_head? hc)) fun c hc =>
    h c (List.mem_of_mem_getLast? hc)

end Text

lemma Resolution.ofText_toString {u : TimeUnit} (hu : u ≠ .timeZone) (n : Nat) (year month : Int) :
    ofText u year month (toString n) = ofNumber u n := by
  have hdigit : ∀ c ∈ (toString n).toList, c.isDigit = true :=
    fun _ => Text.isDigit_of_mem_toString
  have htrim := Text.trimChars_eq fun c hc => Text.not_isBlank_of_isDigit (hdigit c hc)
  have hne : (toString n).toList ≠ [] := fun h =>
    Text.toString_ne_empty n (String.toList_eq_nil_iff.1 h)
  unfold ofText
  simp only [htrim]
  rw [if_neg (not_or.2 ⟨hu, hne⟩), if_pos (List.all_eq_true.2 hdigit)]
  exact congrArg _ (Text.numeralValue_toString n)

lemma number_bounds_of_valid {u : TimeUnit} (hu : u ≠ .timeZone) {n : Nat}
    (h : (RuleSet.probe u (toString n)).isValid = true) :
    u.minValue ≤ n ∧ (n : Int) ≤ u.maxValue := by
  rw [RuleSet.probe, Resolution.ofText_toString hu, Resolution.ofNumber] at h
  split at h
  · assumption
  · cases h

namespace Value

variable {ts : List Token} {text : String} {ls : List Lexeme}

lemma clock_eq_some {hour minute second : Option String} {time : String}
    (hnumber : ∀ text, hour = some text ∨ minute = some text ∨ second = some text →
      ∃ n : Nat, text = toString n)
    (h : Canonical.clock hour minute second = some time) :
    ∃ (h m : Nat) (s : Option Nat), hour = some (toString h) ∧ minute = some (toString m)
      ∧ second = s.map toString ∧ time = clockText h m s := by
  have word {text : String} {n : Nat} (ht : ∃ n : Nat, text = toString n)
      (hw : Text.word? text = some n) : text = toString n := by
    obtain ⟨m, rfl⟩ := ht
    obtain ⟨-, -, hm, -⟩ := Text.word?_eq_some hw
    rw [← hm, Text.numeralValue_toString]
  unfold Canonical.clock at h
  obtain ⟨ht, hhour, h₁⟩ := Option.bind_eq_some_iff.1 h
  obtain ⟨hn, hh, h₂⟩ := Option.bind_eq_some_iff.1 h₁
  obtain ⟨mt, hminute, h₃⟩ := Option.bind_eq_some_iff.1 h₂
  obtain ⟨mn, hm, h₄⟩ := Option.bind_eq_some_iff.1 h₃
  clear h h₁ h₂ h₃
  subst hhour hminute
  obtain rfl := word (hnumber ht (Or.inl rfl)) hh
  obtain rfl := word (hnumber mt (Or.inr (Or.inl rfl))) hm
  cases second with
  | none =>
    cases h₄
    exact ⟨hn, mn, none, rfl, rfl, rfl, rfl⟩
  | some st =>
    obtain ⟨sn, hs, h₅⟩ := Option.bind_eq_some_iff.1 h₄
    obtain rfl := word (hnumber st (Or.inr (Or.inr rfl))) hs
    cases h₅
    exact ⟨hn, mn, some sn, rfl, rfl, rfl, rfl⟩

lemma year_eq_some {y : String} (ht : YearText text) (h : Canonical.year text = some y) :
    ∃ n : Nat, 1000 ≤ n ∧ n ≤ 9999 ∧ text = toString n ∧ y = toString n := by
  obtain ⟨n, hn, h⟩ := Option.bind_eq_some_iff.1 h
  split at h
  · rename_i hbounds
    cases h
    obtain ⟨hnumeral, hne, rfl, -⟩ := Text.word?_eq_some hn
    refine ⟨_, hbounds.1, hbounds.2, ?_, rfl⟩
    rcases ht with ⟨m, rfl⟩ | ⟨-, hl⟩
    · rw [Text.numeralValue_toString]
    · refine Text.eq_toString_of_length hnumeral hne ?_
      have := mt (Nat.length_repr_le_iff (n := Text.numeralValue text) (k := 3) (by decide)).1
        (by omega)
      rw [hl, Nat.toString_eq_repr]
      omega
  · cases h

lemma unspaced_eq_some {text' : String} (h : Canonical.unspaced text = some text') :
    text' = text ∧ ' ' ∉ text.toList := by
  unfold Canonical.unspaced at h
  split at h
  · cases h
  · rename_i hblank
    cases h
    refine ⟨rfl, fun hmem => hblank (List.any_eq_true.2 ⟨_, hmem, by decide⟩)⟩

lemma DaySpelling.ne_closest {day : SpecialDay} (h : DaySpelling day text ls)
    (ht : ' ' ∉ text.toList) : day ≠ .closestWeekday := by
  rintro rfl
  cases h with
  | word _ hday => cases hday
  | offset _ _ hday => cases hday
  | closest n hw => exact ht (by simp)

lemma fieldSpelling_of_monthText (h : MonthText text) : ∃ ls, FieldSpelling .month text ls := by
  cases h with
  | number n => exact ⟨_, .number _ n⟩
  | name h => exact ⟨_, .name h⟩
  | edge h => exact ⟨_, .special h (by simp) (Or.inr ⟨rfl, _, rfl⟩)⟩

lemma fieldSpelling_of_dayText (h : DayText text) (ht : ' ' ∉ text.toList) :
    ∃ ls, FieldSpelling .day text ls := by
  cases h with
  | number n => exact ⟨_, .number _ n⟩
  | special h => exact ⟨_, .special h (h.ne_closest ht) (Or.inl rfl)⟩

lemma FieldSpelling.phrase {u : TimeUnit} (h : FieldSpelling u text ls) : Phrase text ls := by
  cases h with
  | number _ n => exact .number n
  | name h => exact phrase_name h (Or.inl rfl)
  | special h => exact .day h

lemma FieldSpelling.isDateDash {m d : String} {ls' : List Lexeme} {ms ds : List Token} {a : Token}
    (hm : FieldSpelling .month m ls) (hd : FieldSpelling .day d ls') (hms : Spell ms ls)
    (hds : Spell ds ls') (ha : a.kind = .dash)
    (hedge : ∀ e, SpecialDay.ofWord? m = some (.edge e) → Text.isNumeral d = false) :
    isDateDash ms.getLast? a ds = true := by
  -- a dash parts two fields unless an offset of a special day follows it
  have hseparates (h : (∀ p day, ms.getLast? = some p → p.kind = .special day →
      day.takesOffset = false) ∨ (ds.head?.any fun n => n.kind = .number) = false) :
      Value.isDateDash ms.getLast? a ds = true := by
    show (_ && !(_ && _)) = true
    rw [Bool.and_eq_true, Bool.not_eq_true', Bool.and_eq_false_iff]
    refine ⟨decide_eq_true ha, h.imp_left fun hlast => ?_⟩
    cases hl : ms.getLast? with
    | none => rfl
    | some p =>
      rw [Option.any_some]
      split
      · exact hlast p _ hl ‹_›
      · rfl
  -- `last` could take a number as its offset, but not a special day
  have hnumeral (hmore : ∃ e, SpecialDay.ofWord? m = some (.edge e)) :
      (ds.head?.any fun n => n.kind = .number) = false := by
    obtain ⟨e, he⟩ := hmore
    have hd' := hedge e he
    cases hd with
    | number _ n =>
      rw [Text.isNumeral_toString] at hd'
      cases hd'
    | special h =>
      cases h <;> obtain ⟨_, _, _, _, rfl, -⟩ := spell_cons hds <;> rfl
  cases hm with
  | number _ n =>
    obtain ⟨_, _, _, rfl⟩ := spell_singleton hms
    exact hseparates (Or.inl (by rintro _ _ ⟨⟩ ⟨⟩))
  | name h =>
    obtain ⟨_, _, _, rfl⟩ := spell_singleton hms
    exact hseparates (Or.inl (by rintro _ _ ⟨⟩ ⟨⟩))
  | special h hclosest hu =>
    rcases hu with hu | ⟨-, e, rfl⟩
    -- the month is a lone edge: what follows it is no number
    · cases hu
    cases h with
    | word hw =>
      cases means_of_wordKind hw with
      | special hspecial => exact hseparates (Or.inr (hnumeral ⟨e, hspecial⟩))
    -- an edge with its offset ends in a number, which takes no other offset
    | offset n hw hday hsign =>
      obtain ⟨_, _, _, _, rfl, h₁⟩ := spell_cons hms
      obtain ⟨_, _, _, _, rfl, h₂⟩ := spell_cons h₁
      obtain ⟨_, _, _, rfl⟩ := spell_singleton h₂
      exact hseparates (Or.inl (by rintro _ _ ⟨⟩ ⟨⟩))

def dateValues (year : Option String) (month : String) (day : Option String) : Values :=
  year.toList.map (fun y => (TimeUnit.year, y)) ++ (.month, month) ::
    day.toList.map fun d => (TimeUnit.day, d)

end Value

namespace Value

variable {year day : Option String} {month text : String}

lemma dashedDate_eq (year : Option String) (month : String) (day : Option String) :
    Canonical.dashedDate year (some month) day = (Canonical.unspaced month).bind fun m =>
      (year.elim (some []) fun y => (Canonical.year y).map ([·])).bind fun ys =>
      (day.elim (some []) fun d => (Canonical.unspaced d).map ([·])).bind fun ds =>
      some ("-".intercalate (ys ++ m :: ds)) := by
  cases year <;> cases day <;> rfl

lemma dashedDate_eq_some (hyear : ∀ y, year = some y → YearText y)
    (h : Canonical.dashedDate year (some month) day = some text) :
    ' ' ∉ month.toList
      ∧ (∀ y, year = some y → ∃ n : Nat, 1000 ≤ n ∧ n ≤ 9999 ∧ y = toString n)
      ∧ (∀ d, day = some d → ' ' ∉ d.toList)
      ∧ text = "-".intercalate (year.toList ++ month :: day.toList) := by
  rw [dashedDate_eq] at h
  -- each part was written, and none of them has a blank
  obtain ⟨m, hm, h₁⟩ := Option.bind_eq_some_iff.1 h
  obtain ⟨rfl, hmonth⟩ := unspaced_eq_some hm
  obtain ⟨ys, hys, h₂⟩ := Option.bind_eq_some_iff.1 h₁
  obtain ⟨ds, hds, h₃⟩ := Option.bind_eq_some_iff.1 h₂
  obtain rfl := Option.some.inj h₃
  refine ⟨hmonth, ?_, ?_, ?_⟩
  · rintro y rfl
    obtain ⟨y', hy', -⟩ := Option.map_eq_some_iff.1 hys
    obtain ⟨n, h₁, h₂, hy, -⟩ := year_eq_some (hyear y rfl) hy'
    exact ⟨n, h₁, h₂, hy⟩
  · rintro d rfl
    obtain ⟨d', hd', -⟩ := Option.map_eq_some_iff.1 hds
    exact (unspaced_eq_some hd').2
  -- a part is written as it stands, and the year in four digits
  · have hy : ys = year.toList := by
      cases year with
      | none => exact (Option.some.inj hys).symm
      | some y =>
        obtain ⟨y', hy', rfl⟩ := Option.map_eq_some_iff.1 hys
        obtain ⟨n, -, -, rfl, rfl⟩ := year_eq_some (hyear y rfl) hy'
        rfl
    have hd : ds = day.toList := by
      cases day with
      | none => exact (Option.some.inj hds).symm
      | some d =>
        obtain ⟨d', hd', rfl⟩ := Option.map_eq_some_iff.1 hds
        obtain ⟨rfl, -⟩ := unspaced_eq_some hd'
        rfl
    rw [hy, hd]

lemma FieldSpelling.not_isYear {ls : List Lexeme} {ts : List Token}
    (h : FieldSpelling .month month ls) (hts : Spell ts ls)
    (hmonth : ∀ n : Nat, month = toString n → n ≤ 12) : isYear ts = false := by
  cases h with
  | number _ n =>
    obtain ⟨_, _, _, rfl⟩ := spell_singleton hts
    have := hmonth n rfl
    have hl := (Nat.length_repr_le_iff (n := n) (k := 2) (by decide)).2 (by omega)
    rw [← Bool.not_eq_true]
    intro hy
    simp only [isYear, Bool.and_eq_true, decide_eq_true_eq] at hy
    have hfour : n.repr.length = 4 := hy.2
    omega
  | name h =>
    obtain ⟨_, _, _, rfl⟩ := spell_singleton hts
    rfl
  | special h =>
    cases h <;> obtain ⟨_, _, _, _, rfl, h₁⟩ := spell_cons hts
    · obtain rfl := spell_nil h₁
      rfl
    all_goals
      obtain ⟨_, _, _, _, rfl, -⟩ := spell_cons h₁
      rfl

lemma yearMonth_spelled {ls : List Lexeme} {n : Nat} (hm : FieldSpelling .month month ls)
    (hn : 1000 ≤ n ∧ n ≤ 9999) : ∃ ls, Phrase (toString n ++ "-" ++ month) ls
      ∧ ∀ ts, Spell ts ls → DateTokens [(.year, toString n), (.month, month)] ts := by
  have hyear := FieldSpelling.number .year n
  refine ⟨_, hyear.phrase.dashed hm.phrase, ?_⟩
  intro ts hts
  obtain ⟨ys, _, rfl, hys, h₁⟩ := spell_append hts
  obtain ⟨_, _, _, ms, rfl, hms⟩ := spell_cons h₁
  have hyears := hyear.tokens hys
  obtain ⟨_, _, _, rfl⟩ := spell_singleton hys
  exact dateTokens_yearMonth hyears (hm.tokens hms) (isYear_number hn) rfl rfl

/-- A date in canonical text is read as its fields. -/
theorem date_spelled (hyear : ∀ y, year = some y → YearText y) (hmonth : MonthText month)
    (hday : ∀ d, day = some d → DayText d) (hpartner : day.isSome = true ∨ year.isSome = true)
    (hnumber : ∀ n : Nat, month = toString n → n ≤ 12)
    (hedge : ∀ d, day = some d → ∀ e, SpecialDay.ofWord? month = some (.edge e) →
      Text.isNumeral d = false)
    (h : Canonical.dashedDate year (some month) day = some text) :
    ∃ ls, Phrase text ls ∧ ∀ ts, Spell ts ls → DateTokens (dateValues year month day) ts := by
  obtain ⟨-, hy, hd, rfl⟩ := dashedDate_eq_some hyear h
  obtain ⟨ls, hm⟩ := fieldSpelling_of_monthText hmonth
  -- a month and a day, a year and a month, or all three
  cases year with
  | none =>
    cases day with
    | none => rcases hpartner with h | h <;> cases h
    | some d =>
      obtain ⟨ls', hd'⟩ := fieldSpelling_of_dayText (hday d rfl) (hd d rfl)
      -- the month is no year, so a day comes second
      refine ⟨_, hm.phrase.dashed hd'.phrase, ?_⟩
      intro ts hts
      obtain ⟨ms, _, rfl, hms, h₁⟩ := spell_append hts
      obtain ⟨_, _, _, ds, rfl, hds⟩ := spell_cons h₁
      exact dateTokens_monthDay (hm.tokens hms) (hd'.tokens hds) (hm.not_isYear hms hnumber) rfl
        (hm.isDateDash hd' hms hds rfl (hedge d rfl))
  | some y =>
    obtain ⟨n, h1000, h9999, rfl⟩ := hy y rfl
    have hyear' := FieldSpelling.number .year n
    cases day with
    | none =>
      -- with a year the month comes second and no day has to follow
      exact yearMonth_spelled hm ⟨h1000, h9999⟩
    | some d =>
      obtain ⟨ls', hd'⟩ := fieldSpelling_of_dayText (hday d rfl) (hd d rfl)
      -- and after both of them comes the day
      refine ⟨_, (hyear'.phrase.dashed hm.phrase).dashed hd'.phrase, ?_⟩
      intro ts hts
      obtain ⟨yms, _, rfl, hyms, h₁⟩ := spell_append hts
      obtain ⟨ys, _, rfl, hys, h₂⟩ := spell_append hyms
      obtain ⟨_, _, _, ds, rfl, hds⟩ := spell_cons h₁
      obtain ⟨_, _, _, ms, rfl, hms⟩ := spell_cons h₂
      have hyears := hyear'.tokens hys
      obtain ⟨_, _, _, rfl⟩ := spell_singleton hys
      rw [List.append_assoc, List.cons_append]
      exact dateTokens_yearMonthDay hyears (hm.tokens hms) (hd'.tokens hds)
        (isYear_number ⟨h1000, h9999⟩) rfl rfl rfl (hm.isDateDash hd' hms hds rfl (hedge d rfl))

/-! ### Days before a time -/

lemma DaySpelling.not_numeral {d : SpecialDay} {ls : List Lexeme} (h : DaySpelling d text ls) :
    Text.isNumeral text = false := by
  have hword {w : String} (hw : wordKind w = .ok (.special d)) : Text.isNumeral w = false := by
    rw [Bool.eq_false_iff, Ne, isNumeral_iff_of_wordKind hw]
    rintro ⟨⟩
  cases h with
  | word hw => exact hword hw
  | offset n hw | closest n hw =>
    rw [Text.isNumeral_append, Text.isNumeral_append, hword hw]
    rfl

lemma wordKind_ordinal {n : Nat} (h1 : 1 ≤ n) (h31 : n ≤ 31) :
    wordKind (Canonical.ordinal n) = .ok (.special (.ordinal n)) := by
  have hall : (List.range 32).all (fun n => n = 0 ||
      decide (SpecialDay.ordinalDay? (Canonical.ordinal n) = some n
        ∧ SpecialDay.nthWeekday? (Canonical.ordinal n) = none)) = true := by
    decide +kernel
  have hn := List.all_eq_true.1 hall n (List.mem_range.2 (by omega))
  obtain ⟨hday, hnth⟩ : SpecialDay.ordinalDay? (Canonical.ordinal n) = some n
      ∧ SpecialDay.nthWeekday? (Canonical.ordinal n) = none := by
    simpa [show n ≠ 0 by omega] using hn
  exact wordKind_of_ordinalDay? hday hnth

lemma day_spelled {d : String} (h : DayText d) (hvalid : (RuleSet.probe .day d).isValid = true) :
    ∃ ls, Phrase (((Text.word? d).map Canonical.ordinal).getD d) ls
      ∧ ∀ ts, Spell ts ls → DayTokens d ts := by
  cases h with
  | number n =>
    obtain ⟨hmin, hmax⟩ := number_bounds_of_valid (by decide) hvalid
    have h1 : 1 ≤ n := Int.ofNat_le.1 hmin
    have h31 : n ≤ 31 := Int.ofNat_le.1 hmax
    have hmax : n ≤ Text.wordMax := h31.trans (by decide)
    rw [Text.word?_toString, if_pos hmax]
    have hw := wordKind_ordinal h1 h31
    refine ⟨_, .word ?_ hw rfl, fun ts hts => dayTokens_ordinal hts⟩
    intro hempty
    rw [show Canonical.ordinal n = "" from hempty] at hw
    cases hw
  | special h =>
    have hword : Text.word? d = none := by
      unfold Text.word?
      rw [if_neg]
      rintro ⟨-, hn, -⟩
      rw [h.not_numeral] at hn
      cases hn
    rw [hword]
    exact ⟨_, .day h, fun ts hts => h.dayTokens hts⟩

end Value

namespace Values

open Value

variable {vs : Values}

lemma lookup_dateValues (year : Option String) (month : String) (day : Option String)
    (u : TimeUnit) : (dateValues year month day).lookup u
      = match u with
        | .year => year
        | .month => some month
        | .day => day
        | _ => none := by
  cases year <;> cases day <;> cases u <;> rfl

lemma lookup_clockValues (h m : Nat) (s : Option Nat) (u : TimeUnit) :
    (clockValues h m s).lookup u
      = match u with
        | .hour => some (toString h)
        | .minute => some (toString m)
        | .second => s.map toString
        | _ => none := by
  cases s <;> cases u <;> rfl

lemma nodup_dateValues (year : Option String) (month : String) (day : Option String) :
    ((dateValues year month day).map Prod.fst).Nodup := by
  cases year <;> cases day <;> simp [dateValues]

def clockUnits : List TimeUnit := [.hour, .minute, .second]

lemma nodup_append_clockValues (front : Values) (hf : (front.map Prod.fst).Nodup)
    (hclock : ∀ u ∈ clockUnits, front.lookup u = none) (h m : Nat)
    (s : Option Nat) : ((front ++ clockValues h m s).map Prod.fst).Nodup := by
  have hback : ((clockValues h m s).map Prod.fst).Nodup := by
    cases s <;> simp [clockValues]
  rw [List.map_append, List.nodup_append]
  refine ⟨hf, hback, ?_⟩
  rintro a ha b hb rfl
  have hmem : a ∈ clockUnits := by
    cases s <;> simp only [clockValues, List.map_cons, List.map_nil] at hb
    · exact List.mem_of_mem_take (i := 2) hb
    · exact hb
  obtain ⟨p, hp, rfl⟩ := List.mem_map.1 ha
  exact bne_iff_ne.1 (List.lookup_eq_none_iff.1 (hclock _ hmem) p hp) rfl

lemma canonical_of_phrase {text : String} (h : 2 ≤ vs.length)
    (hp : Canonical.phrase vs = some text) :
    Canonical.values vs = text := by
  rcases vs with _ | ⟨v, _ | ⟨w, vs⟩⟩
  · exact absurd h (by decide)
  · exact absurd h (by simp)
  · simp [Canonical.values, hp]

section Same

variable {h m : Nat} {s : Option Nat}

lemma same_append {front : Values} (hf : (front.map Prod.fst).Nodup)
    (hfront : ∀ u, front.lookup u = if u ∈ clockUnits then none else vs.lookup u)
    (hhour : vs.lookup .hour = some (toString h)) (hminute : vs.lookup .minute = some (toString m))
    (hsecond : vs.lookup .second = s.map toString) : (front ++ clockValues h m s).Same vs := by
  refine ⟨nodup_append_clockValues _ hf (fun u hu => by rw [hfront, if_pos hu]) h m s, fun u => ?_⟩
  rw [List.lookup_append, hfront, lookup_clockValues]
  cases u
  case hour => exact hhour.symm
  case minute => exact hminute.symm
  case second => exact hsecond.symm
  all_goals exact Option.or_none

lemma Composite.lookup_dateValues (hvs : vs.Composite) {month : String}
    (hmonth : vs.lookup .month = some month) (u : TimeUnit) :
    (dateValues (vs.lookup .year) month (vs.lookup .day)).lookup u
      = if u ∈ clockUnits then none else vs.lookup u := by
  rw [Values.lookup_dateValues]
  cases u
  case month => exact hmonth.symm
  case week => exact hvs.week.symm
  case timeZone => exact hvs.zone.symm
  all_goals rfl

lemma Composite.lookup_dayYear (hvs : vs.Composite) (hmonth : vs.lookup .month = none)
    (front : Values) (hday : front.lookup .day = vs.lookup .day)
    (hyear : front.lookup .year = vs.lookup .year)
    (hfront : ∀ u, u ≠ .day → u ≠ .year → front.lookup u = none) (u : TimeUnit) :
    front.lookup u = if u ∈ clockUnits then none else vs.lookup u := by
  cases u
  case day => exact hday
  case year => exact hyear
  case month => exact (hfront .month (by decide) (by decide)).trans hmonth.symm
  case week => exact (hfront .week (by decide) (by decide)).trans hvs.week.symm
  case timeZone => exact (hfront .timeZone (by decide) (by decide)).trans hvs.zone.symm
  all_goals exact hfront _ (by decide) (by decide)

lemma Composite.same_date (hvs : vs.Composite) {month : String}
    (hmonth : vs.lookup .month = some month) (hhour : vs.lookup .hour = none) :
    (dateValues (vs.lookup .year) month (vs.lookup .day)).Same vs := by
  have hminute : vs.lookup .minute = none :=
    Option.not_isSome_iff_eq_none.1 fun h => by simpa [hhour] using hvs.hour h
  have hsecond : vs.lookup .second = none :=
    Option.not_isSome_iff_eq_none.1 fun h => by simpa [hminute] using hvs.minute h
  refine ⟨nodup_dateValues _ _ _, fun u => ?_⟩
  rw [hvs.lookup_dateValues hmonth]
  split
  · rename_i hu
    simp only [clockUnits, List.mem_cons, List.not_mem_nil, or_false] at hu
    rcases hu with rfl | rfl | rfl
    · exact hhour.symm
    · exact hminute.symm
    · exact hsecond.symm
  · rfl

end Same

section ReadsBack

variable {h m : Nat} {s : Option Nat}

/-- The date of texts that mean something, unless it runs a bare edge as the month into the number
of a day. -/
lemma Composite.date_spelled (hvs : vs.Composite)
    (hvalid : ∀ p ∈ vs, (RuleSet.probe p.1 p.2).isValid = true) (hedge : vs.edgeBeforeDay = false)
    {month date : String} (hmonth : vs.lookup .month = some month)
    (hdate : Canonical.dashedDate (vs.lookup .year) (some month) (vs.lookup .day) = some date) :
    ∃ ls, Phrase date ls
      ∧ ∀ ts, Spell ts ls →
        DateTokens (dateValues (vs.lookup .year) month (vs.lookup .day)) ts := by
  refine Value.date_spelled hvs.year (hvs.month month hmonth) hvs.day
    (hvs.monthPartner (by rw [hmonth]; rfl)) ?_ ?_ hdate
  · rintro n rfl
    have hnumber : (RuleSet.probe .month (toString n)).isValid = true :=
      hvalid (.month, toString n) (mem_of_lookup hmonth)
    exact Int.ofNat_le.1 (number_bounds_of_valid (by decide) hnumber).2
  · intro d hd e he
    simpa [edgeBeforeDay, hmonth, hd, he] using hedge

lemma readsBack_dateTime {front : Values} {date : String} {ls : List Lexeme} (hls : Phrase date ls)
    (htokens : ∀ ts, Spell ts ls → DateTokens front ts)
    (hsame : (front ++ clockValues h m s).Same vs) :
    ReadsBack (fun _ => True) (date ++ " " ++ clockText h m s) vs := by
  refine ⟨_, hls.spaced (phrase_clock h m s),
    fun ts hts default _ => ⟨_, ?_, hsame⟩⟩
  obtain ⟨as, _, rfl, has, h₁⟩ := spell_append hts
  obtain ⟨_, _, _, bs, rfl, hbs⟩ := spell_cons h₁
  exact (htokens as has).read_append (clockTokens_of_spell hbs) rfl

lemma readsBack_dayTime {day phrase : String} {ls : List Lexeme} (hls : Phrase phrase ls)
    (htokens : ∀ ts, Spell ts ls → DayTokens day ts)
    (hsame : ([(.day, day)] ++ clockValues h m s : Values).Same vs) :
    ReadsBack (fun _ => True) (phrase ++ " " ++ clockText h m s) vs := by
  refine ⟨_, hls.spaced (phrase_clock h m s),
    fun ts hts default _ => ⟨_, ?_, hsame⟩⟩
  obtain ⟨as, _, rfl, has, h₁⟩ := spell_append hts
  obtain ⟨_, _, _, bs, rfl, hbs⟩ := spell_cons h₁
  exact (htokens as has).read_append (clockTokens_of_spell hbs) rfl

lemma readsBack_dayYearTime {day phrase : String} {ls : List Lexeme} {year : Nat}
    (hls : Phrase phrase ls) (htokens : ∀ ts, Spell ts ls → DayTokens day ts)
    (hyear : 1000 ≤ year ∧ year ≤ 9999)
    (hsame : ([(.day, day), (.year, toString year)] ++ clockValues h m s : Values).Same vs) :
    ReadsBack (fun _ => True) (phrase ++ " " ++ toString year ++ " " ++ clockText h m s) vs := by
  refine ⟨_, (hls.spaced (.number year)).spaced (phrase_clock h m s),
    fun ts hts default _ => ⟨_, ?_, hsame⟩⟩
  obtain ⟨abs, _, rfl, habs, h₁⟩ := spell_append hts
  obtain ⟨as, _, rfl, has, h₂⟩ := spell_append habs
  obtain ⟨_, _, _, cs, rfl, hcs⟩ := spell_cons h₁
  obtain ⟨_, _, _, _, rfl, h₃⟩ := spell_cons h₂
  obtain ⟨_, _, _, rfl⟩ := spell_singleton h₃
  rw [List.append_assoc]
  exact (htokens as has).read_append_year (clockTokens_of_spell hcs) rfl rfl rfl
    (isYear_number hyear)

lemma readsBack_time (hsame : (clockValues h m s).Same vs) :
    ReadsBack (fun _ => True) (clockText h m s) vs :=
  ⟨_, phrase_clock h m s, fun _ hts _ _ => ⟨_, (clockTokens_of_spell hts).read_eq, hsame⟩⟩

end ReadsBack

lemma Composite.readsBack_dayPhrase (hvs : vs.Composite) {h m : Nat} {s : Option Nat}
    (hhour : vs.lookup .hour = some (toString h)) (hminute : vs.lookup .minute = some (toString m))
    (hsecond : vs.lookup .second = s.map toString) (hmonth : vs.lookup .month = none)
    {day phrase : String} (hday : vs.lookup .day = some day)
    (hvalid : (RuleSet.probe .day day).isValid = true)
    (hphrase : Canonical.dayPhrase (vs.lookup .year) (some day) = some phrase) :
    ReadsBack (fun _ => True) (phrase ++ " " ++ clockText h m s) vs := by
  obtain ⟨ls, hls, htokens⟩ := day_spelled (hvs.day day hday) hvalid
  cases hyear : vs.lookup .year with
  | none =>
    rw [hyear] at hphrase
    obtain rfl := Option.some.inj hphrase
    have hfront := hvs.lookup_dayYear hmonth [(.day, day)] hday.symm hyear.symm
      fun u hu hu' => by cases u <;> first | rfl | contradiction
    exact readsBack_dayTime hls htokens (same_append (by simp) hfront hhour hminute hsecond)
  | some year =>
    rw [hyear] at hphrase
    obtain ⟨text, htext, hphrase⟩ := Option.bind_eq_some_iff.1 hphrase
    obtain rfl := Option.some.inj hphrase
    obtain ⟨n, h1000, h9999, rfl, rfl⟩ := year_eq_some (hvs.year year hyear) htext
    have hfront := hvs.lookup_dayYear hmonth [(.day, day), (.year, toString n)]
      hday.symm hyear.symm fun u hu hu' => by cases u <;> first | rfl | contradiction
    exact readsBack_dayYearTime hls htokens ⟨h1000, h9999⟩
      (same_append (by simp) hfront hhour hminute hsecond)

/-- Texts that go together are read back from their phrase, unless it runs a bare edge as the month
into the number of a day. -/
theorem Composite.readsBack (h : vs.Composite)
    (hvalid : ∀ p ∈ vs, (RuleSet.probe p.1 p.2).isValid = true)
    (hphrase : (Canonical.phrase vs).isSome = true) (hedge : vs.edgeBeforeDay = false) :
    ReadsBack (fun _ => True) (Canonical.values vs) vs := by
  obtain ⟨text, htext⟩ := Option.isSome_iff_exists.1 hphrase
  rw [canonical_of_phrase h.several htext]
  rw [h.phrase_eq] at htext
  split at htext
  · obtain ⟨time, htime, hrest⟩ := Option.bind_eq_some_iff.1 htext
    obtain ⟨hn, mn, sn, hhour, hminute, hsecond, rfl⟩ := clock_eq_some (by
      rintro t (ht | ht | ht)
      · exact h.number .hour (by decide) t ht
      · exact h.number .minute (by decide) t ht
      · exact h.number .second (by decide) t ht) htime
    split at hrest
    · -- a date and a time
      rename_i hm
      obtain ⟨m, hm⟩ := Option.isSome_iff_exists.1 hm
      obtain ⟨date, hd, rfl⟩ := Option.map_eq_some_iff.1 hrest
      rw [hm] at hd
      obtain ⟨ls, hls, htokens⟩ := h.date_spelled hvalid hedge hm hd
      exact readsBack_dateTime hls htokens (same_append (nodup_dateValues _ _ _)
        (h.lookup_dateValues hm) hhour hminute hsecond)
    · rename_i hm
      have hm := Option.not_isSome_iff_eq_none.1 hm
      split at hrest
      · -- a day and a time
        rename_i hd
        obtain ⟨d, hd⟩ := Option.isSome_iff_exists.1 hd
        obtain ⟨phrase, hp, rfl⟩ := Option.map_eq_some_iff.1 hrest
        rw [hd] at hp
        exact h.readsBack_dayPhrase hhour hminute hsecond hm hd (hvalid _ (mem_of_lookup hd)) hp
      · -- a time by itself
        rename_i hd
        have hd := Option.not_isSome_iff_eq_none.1 hd
        obtain rfl := Option.some.inj hrest
        have hy : vs.lookup .year = none :=
          Option.not_isSome_iff_eq_none.1 fun hy => by simpa [hd, hm] using h.yearPartner hy
        have hfront := h.lookup_dayYear hm [] hd.symm hy.symm fun _ _ _ => rfl
        exact readsBack_time (same_append (by simp) hfront hhour hminute hsecond)
  · rename_i hhour
    have hhour := Option.not_isSome_iff_eq_none.1 hhour
    obtain ⟨m, hm⟩ := Option.isSome_iff_exists.1 (h.dated hhour)
    rw [hm] at htext
    obtain ⟨ls, hls, htokens⟩ := h.date_spelled hvalid hedge hm htext
    exact ⟨ls, hls, fun ts hts default _ => ⟨_, (htokens ts hts).read_eq, h.same_date hm hhour⟩⟩

end Values

end Recurrence
