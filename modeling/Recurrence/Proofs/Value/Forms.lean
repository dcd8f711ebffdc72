import Recurrence.Proofs.Value.Spellings

/-!
What a value that has been read looks like. It is one text under one unit, or texts under several
units that go together: a clock time from the hour on, a date of a month with a day or a year, or a
day with a time. The texts are decimal numbers, names, and the spellings of special days.

Main statement: `form_of_read`.
-/

namespace Recurrence

/-- A text that can stand for the month of a date. -/
inductive MonthText : String → Prop
  | number (n : Nat) : MonthText (toString n)
  | name {w : String} (h : Token.wordKind w = .ok .month) : MonthText w
  | edge {e : Edge} {text : String} {ls : List Lexeme} (h : Value.DaySpelling (.edge e) text ls) :
      MonthText text

/-- A text that can stand for a day. -/
inductive DayText : String → Prop
  | number (n : Nat) : DayText (toString n)
  | special {day : SpecialDay} {text : String} {ls : List Lexeme}
      (h : Value.DaySpelling day text ls) : DayText text

/-- A text that can stand for a year: four digits, or a number. -/
def YearText (text : String) : Prop :=
  (∃ n : Nat, text = toString n) ∨ Text.isNumeral text = true ∧ text.length = 4

/-- A text that is the value of a unit by itself. -/
inductive Sole : TimeUnit → String → Prop
  | number {u : TimeUnit} (hu : u ≠ .timeZone) (n : Nat) : Sole u (toString n)
  | month {w : String} (h : Token.wordKind w = .ok .month) : Sole .month w
  | weekday {w : String} (h : Token.wordKind w = .ok .weekday) : Sole .week w
  | special {u : TimeUnit} {day : SpecialDay} {text : String} {ls : List Lexeme}
      (hu : u ≠ .timeZone) (h : Value.DaySpelling day text ls)
      (hday : u = .day ∨ ∃ e, day = .edge e) : Sole u text

namespace Values

/-- A clock time: the hour, then perhaps minutes, then perhaps seconds. -/
structure ClockTime (vs : Values) : Prop where
  nodup : (vs.map Prod.fst).Nodup
  unit : ∀ p ∈ vs, p.1 = .hour ∨ p.1 = .minute ∨ p.1 = .second
  number : ∀ p ∈ vs, ∃ n : Nat, p.2 = toString n
  hour : (vs.lookup .hour).isSome = true
  minute : (vs.lookup .second).isSome = true → (vs.lookup .minute).isSome = true

/-- The day of a date, in fields. -/
structure DayFields (vs : Values) : Prop where
  nodup : (vs.map Prod.fst).Nodup
  unit : ∀ p ∈ vs, p.1 = .day ∨ p.1 = .month ∨ p.1 = .year
  day : ∀ text, vs.lookup .day = some text → DayText text
  month : ∀ text, vs.lookup .month = some text → MonthText text
  year : ∀ text, vs.lookup .year = some text → YearText text
  monthPartner : (vs.lookup .month).isSome = true →
    (vs.lookup .day).isSome = true ∨ (vs.lookup .year).isSome = true
  yearPartner : (vs.lookup .year).isSome = true →
    (vs.lookup .day).isSome = true ∨ (vs.lookup .month).isSome = true

/-- Texts under several units that go together. -/
structure Composite (vs : Values) : Prop where
  several : 2 ≤ vs.length
  nodup : (vs.map Prod.fst).Nodup
  week : vs.lookup .week = none
  zone : vs.lookup .timeZone = none
  number : ∀ u ∈ [TimeUnit.hour, .minute, .second], ∀ text, vs.lookup u = some text →
    ∃ n : Nat, text = toString n
  minute : (vs.lookup .second).isSome = true → (vs.lookup .minute).isSome = true
  hour : (vs.lookup .minute).isSome = true → (vs.lookup .hour).isSome = true
  day : ∀ text, vs.lookup .day = some text → DayText text
  month : ∀ text, vs.lookup .month = some text → MonthText text
  year : ∀ text, vs.lookup .year = some text → YearText text
  monthPartner : (vs.lookup .month).isSome = true →
    (vs.lookup .day).isSome = true ∨ (vs.lookup .year).isSome = true
  yearPartner : (vs.lookup .year).isSome = true →
    (vs.lookup .day).isSome = true ∨ (vs.lookup .month).isSome = true
  dated : vs.lookup .hour = none → (vs.lookup .month).isSome = true

variable {vs front back : Values} {u : TimeUnit} {text : String}

lemma lookup_eq_none (h : ∀ p ∈ vs, p.1 ≠ u) : vs.lookup u = none := by
  rw [List.lookup_eq_none_iff]
  exact fun p hp => bne_iff_ne.2 (h p hp).symm

lemma ClockTime.lookup_eq_none (h : ClockTime back) (hu : u ≠ .hour) (hu' : u ≠ .minute)
    (hu'' : u ≠ .second) : back.lookup u = none := by
  refine Values.lookup_eq_none fun p hp heq => ?_
  rcases h.unit p hp with h | h | h
  · exact hu (heq.symm.trans h)
  · exact hu' (heq.symm.trans h)
  · exact hu'' (heq.symm.trans h)

lemma DayFields.lookup_eq_none (h : DayFields front) (hu : u ≠ .day) (hu' : u ≠ .month)
    (hu'' : u ≠ .year) : front.lookup u = none := by
  refine Values.lookup_eq_none fun p hp heq => ?_
  rcases h.unit p hp with h | h | h
  · exact hu (heq.symm.trans h)
  · exact hu' (heq.symm.trans h)
  · exact hu'' (heq.symm.trans h)

lemma dayFields_nil : DayFields [] :=
  ⟨by simp, by simp, by rintro _ ⟨⟩, by rintro _ ⟨⟩, by rintro _ ⟨⟩, by rintro ⟨⟩, by rintro ⟨⟩⟩

lemma lookup_append_of_clockTime (hb : ClockTime back)
    (hu : u ∉ [TimeUnit.hour, .minute, .second]) :
    (front ++ back).lookup u = front.lookup u := by
  simp only [List.mem_cons, List.not_mem_nil, or_false, not_or] at hu
  rw [List.lookup_append, hb.lookup_eq_none hu.1 hu.2.1 hu.2.2, Option.or_none]

lemma lookup_append_of_dayFields (hf : DayFields front) (hu : u ∉ [TimeUnit.day, .month, .year]) :
    (front ++ back).lookup u = back.lookup u := by
  simp only [List.mem_cons, List.not_mem_nil, or_false, not_or] at hu
  rw [List.lookup_append, hf.lookup_eq_none hu.1 hu.2.1 hu.2.2, Option.none_or]

lemma nodup_append_of_dayFields (hf : DayFields front) (hb : ClockTime back) :
    ((front ++ back).map Prod.fst).Nodup := by
  rw [List.map_append, List.nodup_append]
  refine ⟨hf.nodup, hb.nodup, ?_⟩
  rintro a ha b hb' rfl
  obtain ⟨p, hp, rfl⟩ := List.mem_map.1 ha
  obtain ⟨q, hq, hpq⟩ := List.mem_map.1 hb'
  have h₁ := hf.unit p hp
  have h₂ := hb.unit q hq
  rw [hpq] at h₂
  rcases h₁ with h | h | h <;> simp [h] at h₂

/-- The fields of a day and a clock time go together. -/
theorem composite_append (hf : DayFields front) (hb : ClockTime back)
    (hl : 2 ≤ (front ++ back).length) : Composite (front ++ back) := by
  -- the date is read off the front and the time off the back
  have hday : (front ++ back).lookup .day = front.lookup .day :=
    lookup_append_of_clockTime hb (by decide)
  have hmonth : (front ++ back).lookup .month = front.lookup .month :=
    lookup_append_of_clockTime hb (by decide)
  have hyear : (front ++ back).lookup .year = front.lookup .year :=
    lookup_append_of_clockTime hb (by decide)
  have hclock {u : TimeUnit} (hu : u ∉ [TimeUnit.day, .month, .year]) :
      (front ++ back).lookup u = back.lookup u := lookup_append_of_dayFields hf hu
  exact
    { several := hl
      nodup := nodup_append_of_dayFields hf hb
      week := by
        rw [hclock (by decide)]
        exact hb.lookup_eq_none (by decide) (by decide) (by decide)
      zone := by
        rw [hclock (by decide)]
        exact hb.lookup_eq_none (by decide) (by decide) (by decide)
      number := by
        intro u hu text h
        rw [hclock (by revert hu; cases u <;> decide)] at h
        exact hb.number _ (mem_of_lookup h)
      minute := by
        rw [hclock (by decide), hclock (by decide)]
        exact hb.minute
      hour := by
        rw [hclock (by decide), hclock (by decide)]
        exact fun _ => hb.hour
      day := by rw [hday]; exact hf.day
      month := by rw [hmonth]; exact hf.month
      year := by rw [hyear]; exact hf.year
      monthPartner := by rw [hday, hmonth, hyear]; exact hf.monthPartner
      yearPartner := by rw [hday, hmonth, hyear]; exact hf.yearPartner
      dated := by
        intro h
        rw [hclock (by decide)] at h
        exact absurd hb.hour (by simp [h]) }

/-- The fields of a day go together when there is a month among them. -/
theorem DayFields.composite (h : DayFields vs) (hl : 2 ≤ vs.length)
    (hm : (vs.lookup .month).isSome = true) : Composite vs := by
  have hclock {u : TimeUnit} (hu : u ∈ [TimeUnit.hour, .minute, .second]) :
      vs.lookup u = none := by
    rw [h.lookup_eq_none]
    all_goals
      rintro rfl
      revert hu
      decide
  exact
    { several := hl
      nodup := h.nodup
      week := h.lookup_eq_none (by decide) (by decide) (by decide)
      zone := h.lookup_eq_none (by decide) (by decide) (by decide)
      number := fun u hu text ht => by rw [hclock hu] at ht; cases ht
      minute := by rw [hclock (by decide)]; exact fun ht => absurd ht (by decide)
      hour := by rw [hclock (by decide)]; exact fun ht => absurd ht (by decide)
      day := h.day
      month := h.month
      year := h.year
      monthPartner := h.monthPartner
      yearPartner := h.yearPartner
      dated := fun _ => hm }

end Values

namespace Value

open Token

lemma bind_eq_ok {ε α β : Type} {x : Except ε α} {f : α → Except ε β} {b : β} :
    (x >>= f) = .ok b ↔ ∃ a, x = .ok a ∧ f a = .ok b := by
  cases x <;> simp [bind, Except.bind]

lemma forall₂_of_mapM {ε α β : Type} {f : α → Except ε β} {as : List α} {bs : List β}
    (h : as.mapM f = .ok bs) : List.Forall₂ (fun a b => f a = .ok b) as bs := by
  induction as generalizing bs with
  | nil =>
    cases h
    exact .nil
  | cons a as ih =>
    rw [List.mapM_cons] at h
    obtain ⟨b, hb, h⟩ := bind_eq_ok.1 h
    obtain ⟨bs', hbs, h⟩ := bind_eq_ok.1 h
    cases h
    exact .cons hb (ih hbs)

variable {ts : List Token} {vs : Values} {t : Token}

lemma genuine_significant (h : ∀ t ∈ ts, t.Genuine) : ∀ t ∈ significant ts, t.Genuine :=
  fun t ht => h t (List.mem_of_mem_filter ht)

lemma mem_of_mem_trimTrivia (h : t ∈ trimTrivia ts) : t ∈ ts := by
  rw [trimTrivia, List.mem_reverse] at h
  exact (List.dropWhile_sublist _).subset
    (List.mem_reverse.1 ((List.dropWhile_sublist _).subset h))

lemma genuine_trimTrivia (h : ∀ t ∈ ts, t.Genuine) : ∀ t ∈ trimTrivia ts, t.Genuine :=
  fun t ht => h t (mem_of_mem_trimTrivia ht)

/-! ### Clock times -/

lemma clockNumbers_numerals {whole : String} {texts : List String} (hts : ∀ t ∈ ts, t.Genuine)
    (h : clockNumbers whole ts = .ok texts) : ∀ text ∈ texts, Text.isNumeral text = true := by
  fun_induction clockNumbers whole ts generalizing texts with
  | case1 => cases h
  | case2 n hn =>
    cases h
    simpa using (hts n List.mem_cons_self).isNumeral hn
  | case3 => cases h
  | case4 => cases h
  | case5 => cases h
  | case6 n c rest hn hc ih =>
    cases hrest : clockNumbers whole rest with
    | error e => rw [hrest] at h; cases h
    | ok others =>
      rw [hrest] at h
      cases h
      have := ih (fun t ht => hts t (by simp [ht])) hrest
      exact List.forall_mem_cons.2 ⟨(hts n List.mem_cons_self).isNumeral (not_not.1 hn),
        this⟩

lemma number_of_isNumeral {text : String} (ht : Text.isNumeral text = true) :
    ∃ n : Nat, Text.dropZeros text = toString n := ⟨_, Text.dropZeros_eq ht⟩

lemma clockHour_number {half : Option Meridiem} {text hour : String}
    (ht : Text.isNumeral text = true) (h : clockHour half text = .ok hour) :
    ∃ n : Nat, hour = toString n := by
  unfold clockHour at h
  dsimp only at h
  split at h
  · cases h
    exact ⟨_, Text.dropZeros_eq ht⟩
  · split at h
    · cases h
    · split at h
      · cases h
        exact ⟨_, rfl⟩
      · cases h

lemma genuine_splitMeridiem (h : ∀ t ∈ ts, t.Genuine) :
    ∀ t ∈ (splitMeridiem ts).1, t.Genuine := by
  unfold splitMeridiem
  split
  · split
    · exact fun t ht => h t (List.dropLast_subset ts ht)
    · exact h
  · exact h

theorem clockTime_of_clock (hts : ∀ t ∈ ts, t.Genuine) (h : clock ts = .ok vs) :
    vs.ClockTime := by
  unfold clock at h
  dsimp only at h
  split at h
  · cases h
  obtain ⟨⟨⟩, -, h⟩ := bind_eq_ok.1 h
  obtain ⟨texts, htexts, h⟩ := bind_eq_ok.1 h
  -- the texts are numerals, and a half of the day leaves the hour one
  have hnum := clockNumbers_numerals
    (genuine_splitMeridiem (genuine_significant (genuine_trimTrivia hts))) htexts
  split at h
  · cases h
  · obtain ⟨hour, hhour, heq⟩ := bind_eq_ok.1 h
    cases heq
    have h₁ := clockHour_number (hnum _ (by simp)) hhour
    exact ⟨by simp, by simp, by simpa using h₁, rfl, id⟩
  · obtain ⟨hour, hhour, heq⟩ := bind_eq_ok.1 h
    cases heq
    have h₁ := clockHour_number (hnum _ (by simp)) hhour
    have h₂ := number_of_isNumeral (hnum _ (List.mem_cons_of_mem _ List.mem_cons_self))
    refine ⟨by simp, by simp, ?_, rfl, fun _ => rfl⟩
    exact List.forall_mem_cons.2 ⟨h₁, List.forall_mem_singleton.2 h₂⟩
  · obtain ⟨hour, hhour, heq⟩ := bind_eq_ok.1 h
    cases heq
    have h₁ := clockHour_number (hnum _ (by simp)) hhour
    have h₂ := number_of_isNumeral (hnum _ (List.mem_cons_of_mem _ List.mem_cons_self))
    have h₃ := number_of_isNumeral
      (hnum _ (List.mem_cons_of_mem _ (List.mem_cons_of_mem _ List.mem_cons_self)))
    refine ⟨by simp, by simp, ?_, rfl, fun _ => rfl⟩
    exact List.forall_mem_cons.2
      ⟨h₁, List.forall_mem_cons.2 ⟨h₂, List.forall_mem_singleton.2 h₃⟩⟩
  · cases h

/-! ### Dates -/

lemma mem_of_mem_dateFields {left : Option Token} {field : List Token}
    (hf : field ∈ dateFields left ts) (ht : t ∈ field) : t ∈ ts := by
  induction ts generalizing left field with
  | nil =>
    rw [dateFields, List.mem_singleton] at hf
    subst hf
    exact ht
  | cons a ts ih =>
    rw [dateFields] at hf
    split at hf
    · rcases List.mem_cons.1 hf with rfl | hf
      · cases ht
      · exact List.mem_cons_of_mem _ (ih hf ht)
    · split at hf
      · rw [List.mem_singleton.1 hf] at ht
        simpa using Or.inl (List.mem_singleton.1 ht)
      · rename_i first others heq
        rcases List.mem_cons.1 hf with rfl | hf
        · rcases List.mem_cons.1 ht with rfl | ht
          · exact List.mem_cons_self
          · exact List.mem_cons_of_mem _ (ih (by rw [heq]; exact List.mem_cons_self) ht)
        · exact List.mem_cons_of_mem _ (ih (by rw [heq]; exact List.mem_cons_of_mem _ hf) ht)

lemma year_of_dateField {field : List Token} {text : String} (hf : ∀ t ∈ field, t.Genuine)
    (hy : isYear field = true) (h : dateField .year field = .ok text) :
    ∃ n : Nat, text = toString n := by
  unfold isYear at hy
  split at hy
  · rename_i t
    simp only [Bool.and_eq_true, decide_eq_true_eq] at hy
    simp only [dateField, hy.1, if_true] at h
    cases h
    exact number_of_isNumeral ((hf t List.mem_cons_self).isNumeral hy.1)
  · cases hy

lemma special_of_dateField {u : TimeUnit} {field : List Token} {text : String}
    (h : dateField u field = .ok text) :
    (∃ t, field = [t] ∧ t.kind = .number ∧ text = Text.dropZeros t.text)
      ∨ (u = .month ∧ ∃ t, field = [t] ∧ t.kind = .month ∧ text = t.text)
      ∨ (u = .month ∧ ∃ e, special? field = some (.edge e, text))
      ∨ (u = .day ∧ ∃ day, special? field = some (day, text)) := by
  unfold dateField at h
  extract_lets invalid special at h
  have hspecial (h : special = .ok text) :
      (u = .month ∧ ∃ e, special? field = some (.edge e, text))
        ∨ (u = .day ∧ ∃ day, special? field = some (day, text)) := by
    dsimp only [special, invalid] at h
    split at h
    · cases h
      exact Or.inl ⟨rfl, _, ‹_›⟩
    · cases h
    · cases h
      exact Or.inr ⟨rfl, _, ‹_›⟩
    · cases h
  split at h
  · rename_i t
    split at h
    · cases h
      exact Or.inl ⟨t, rfl, ‹_›, rfl⟩
    split at h
    · rename_i hm
      cases h
      exact Or.inr (Or.inl ⟨hm.1, t, rfl, hm.2, rfl⟩)
    · exact Or.inr (Or.inr (hspecial h))
  · exact Or.inr (Or.inr (hspecial h))

lemma month_of_dateField {field : List Token} {text : String} (hf : ∀ t ∈ field, t.Genuine)
    (h : dateField .month field = .ok text) : MonthText text := by
  rcases special_of_dateField h with ⟨t, rfl, hk, rfl⟩ | ⟨-, t, rfl, hk, rfl⟩ | ⟨-, e, he⟩ | ⟨h, -⟩
  · rw [dropZeros_of_number (hf t List.mem_cons_self) hk]
    exact .number _
  · exact .name ((hf t List.mem_cons_self).wordKind_of_kind hk rfl nofun)
  · rcases spelling_of_special? hf he with ⟨n, -, -, hn, -⟩ | ⟨ls, hls⟩
    · cases hn
    · exact .edge hls
  · cases h

lemma dayText_of_special? {day : SpecialDay} {text : String} (hts : ∀ t ∈ ts, t.Genuine)
    (h : special? ts = some (day, text)) : DayText text := by
  rcases spelling_of_special? hts h with ⟨n, -, -, -, rfl⟩ | ⟨ls, hls⟩
  · exact .number n
  · exact .special hls

lemma day_of_dateField {field : List Token} {text : String} (hf : ∀ t ∈ field, t.Genuine)
    (h : dateField .day field = .ok text) : DayText text := by
  rcases special_of_dateField h with ⟨t, rfl, hk, rfl⟩ | ⟨h, -⟩ | ⟨h, -⟩ | ⟨-, day, hday⟩
  · rw [dropZeros_of_number (hf t List.mem_cons_self) hk]
    exact .number _
  · cases h
  · cases h
  · exact dayText_of_special? hf hday

lemma significant_trimTrivia (ts : List Token) : significant (trimTrivia ts) = significant ts := by
  have hdrop (ts : List Token) : significant (ts.dropWhile isTrivia) = significant ts := by
    induction ts with
    | nil => rfl
    | cons t ts ih =>
      rw [List.dropWhile_cons]
      split
      · rw [ih, significant, significant, List.filter_cons, if_neg (by simpa using ‹_›)]
      · rfl
  have hrev (ts : List Token) : significant ts.reverse = (significant ts).reverse := by
    rw [significant, significant, List.filter_reverse]
  rw [trimTrivia, hrev, hdrop, hrev, List.reverse_reverse, hdrop]

lemma fields_of_date (h : date ts = .ok vs) : ∃ units fields,
    fields = dateFields none (significant ts) ∧ fields.length ≤ units.length
      ∧ List.Forall₂ (fun (p : TimeUnit × List Token) v => dateField p.1 p.2 = .ok v.2 ∧ v.1 = p.1)
        (units.zip fields) vs
      ∧ (units = [.year, .month, .day] ∧ fields.head?.any isYear = true
        ∨ units = [.month, .day] ∧ fields.head?.any isYear = false) := by
  unfold date at h
  dsimp only at h
  split at h
  · cases h
  obtain ⟨⟨⟩, -, h'⟩ := bind_eq_ok.1 h
  clear h
  rw [significant_trimTrivia] at h'
  generalize dateFields none (significant ts) = fields at h'
  split at h'
  · cases h'
  split at h'
  · cases h'
  -- each field is read as its own unit
  have hread {units : List TimeUnit}
      (h : ((units.zip fields).mapM fun p => do return (p.1, ← dateField p.1 p.2)) = .ok vs) :
      List.Forall₂ (fun (p : TimeUnit × List Token) v => dateField p.1 p.2 = .ok v.2 ∧ v.1 = p.1)
        (units.zip fields) vs := by
    refine (forall₂_of_mapM h).imp fun p v hpv => ?_
    obtain ⟨text, htext, heq⟩ := bind_eq_ok.1 hpv
    cases heq
    exact ⟨htext, rfl⟩
  -- the first field decides whether the units begin with a year
  cases hy : fields.head?.any isYear with
  | true =>
    simp only [hy, if_true] at h'
    split at h'
    · cases h'
    · exact ⟨[.year, .month, .day], fields, rfl, not_lt.1 ‹¬ _›, hread h', Or.inl ⟨rfl, hy⟩⟩
  | false =>
    simp only [hy, Bool.false_eq_true, if_false] at h'
    split at h'
    · cases h'
    · exact ⟨[.month, .day], fields, rfl, not_lt.1 ‹¬ _›, hread h', Or.inr ⟨rfl, hy⟩⟩

lemma date_cons {u : TimeUnit} {field : List Token} {ps : List (TimeUnit × List Token)}
    (h : List.Forall₂ (fun (p : TimeUnit × List Token) v =>
      dateField p.1 p.2 = .ok v.2 ∧ v.1 = p.1) ((u, field) :: ps) vs) :
    ∃ text vs', dateField u field = .ok text ∧ vs = (u, text) :: vs'
      ∧ List.Forall₂ (fun (p : TimeUnit × List Token) v =>
        dateField p.1 p.2 = .ok v.2 ∧ v.1 = p.1) ps vs' := by
  obtain ⟨⟨_, text⟩, vs', ⟨htext, rfl⟩, hvs, rfl⟩ := List.forall₂_cons_left_iff.1 h
  exact ⟨text, vs', htext, rfl, hvs⟩

/-- A date is a month with a day or a year, or all three. -/
theorem dayFields_of_date (hts : ∀ t ∈ ts, t.Genuine) (hd : hasDateDash (significant ts) = true)
    (h : date ts = .ok vs) :
    vs.DayFields ∧ 2 ≤ vs.length ∧ (vs.lookup .month).isSome = true := by
  obtain ⟨units, fields, hfields, hlength, hvs, hunits⟩ := fields_of_date h
  have hgenuine : ∀ field ∈ fields, ∀ t ∈ field, t.Genuine := fun field hf t ht =>
    genuine_significant hts t (mem_of_mem_dateFields (hfields ▸ hf) ht)
  rw [hasDateDash, ← hfields, decide_eq_true_eq] at hd
  clear hfields
  -- a year with a month, and perhaps a day; or a month with a day
  rcases hunits with ⟨rfl, hy⟩ | ⟨rfl, -⟩
  · have hlength : fields.length ≤ 3 := hlength
    match fields, hd, hlength with
    | [a, b], _, _ =>
      obtain ⟨y, _, hyear, rfl, hvs₁⟩ := date_cons hvs
      obtain ⟨m, _, hmonth, rfl, hvs₂⟩ := date_cons hvs₁
      cases hvs₂
      have hy := year_of_dateField (hgenuine a (by simp)) hy hyear
      have hm := month_of_dateField (hgenuine b (by simp)) hmonth
      exact ⟨⟨by simp, by simp, (by rintro _ ⟨⟩), (by rintro _ ⟨⟩; exact hm),
        (by rintro _ ⟨⟩; exact Or.inl hy), fun _ => Or.inr rfl, fun _ => Or.inr rfl⟩,
        le_rfl, rfl⟩
    | [a, b, c], _, _ =>
      obtain ⟨y, _, hyear, rfl, hvs₁⟩ := date_cons hvs
      obtain ⟨m, _, hmonth, rfl, hvs₂⟩ := date_cons hvs₁
      obtain ⟨d, _, hday, rfl, hvs₃⟩ := date_cons hvs₂
      cases hvs₃
      have hy := year_of_dateField (hgenuine a (by simp)) hy hyear
      have hm := month_of_dateField (hgenuine b (by simp)) hmonth
      have hd := day_of_dateField (hgenuine c (by simp)) hday
      exact ⟨⟨by simp, by simp, (by rintro _ ⟨⟩; exact hd),
        (by rintro _ ⟨⟩; exact hm), (by rintro _ ⟨⟩; exact Or.inl hy),
        fun _ => Or.inr rfl, fun _ => Or.inr rfl⟩, by simp, rfl⟩
  · have hlength : fields.length ≤ 2 := hlength
    match fields, hd, hlength with
    | [a, b], _, _ =>
      obtain ⟨m, _, hmonth, rfl, hvs₁⟩ := date_cons hvs
      obtain ⟨d, _, hday, rfl, hvs₂⟩ := date_cons hvs₁
      cases hvs₂
      have hm := month_of_dateField (hgenuine a (by simp)) hmonth
      have hd := day_of_dateField (hgenuine b (by simp)) hday
      exact ⟨⟨by simp, by simp, (by rintro _ ⟨⟩; exact hd),
        (by rintro _ ⟨⟩; exact hm), (by rintro _ ⟨⟩),
        fun _ => Or.inl rfl, fun _ => Or.inr rfl⟩, le_rfl, rfl⟩

/-! ### Days with a time -/

lemma mem_of_mem_runs {r : Run} (hr : r ∈ runs ts) (ht : t ∈ r.all) : t ∈ ts := by
  rw [← splitRuns_all ts]
  exact List.mem_append_right _ (List.mem_flatMap.2 ⟨r, hr, ht⟩)

lemma mem_of_mem_tokens {r : Run} (hr : r ∈ runs ts) (ht : t ∈ r.tokens) : t ∈ ts :=
  mem_of_mem_runs hr (List.mem_append_left _ ht)

lemma genuine_flatMap {rs : List Run} (hts : ∀ t ∈ ts, t.Genuine) (hrs : ∀ r ∈ rs, r ∈ runs ts) :
    ∀ t ∈ rs.flatMap Run.all, t.Genuine := by
  intro t ht
  obtain ⟨r, hr, ht⟩ := List.mem_flatMap.1 ht
  exact hts t (mem_of_mem_runs (hrs r hr) ht)

/-- A date and a time are the only runs, in either order. -/
lemma dateTime_eq_ok (h : dateTime ts = .ok vs) : ∃ run time front back,
    date run.tokens = .ok front ∧ clock (time.flatMap Run.all) = .ok back ∧ vs = front ++ back
      ∧ hasDateDash run.meaning = true
      ∧ (runs (trimTrivia ts) = run :: time ∨ runs (trimTrivia ts) = time ++ [run]) := by
  -- the date is the run with a dash in it, and the clock is what is left
  have join {run : Run} {time : List Run} (hdated : hasDateDash run.meaning = true)
      (hruns : runs (trimTrivia ts) = run :: time ∨ runs (trimTrivia ts) = time ++ [run])
      (h : (do return (← date run.tokens) ++ (← clock (time.flatMap Run.all))) = Except.ok vs) :
      ∃ run time front back, date run.tokens = .ok front ∧ clock (time.flatMap Run.all) = .ok back
        ∧ vs = front ++ back ∧ hasDateDash run.meaning = true
        ∧ (runs (trimTrivia ts) = run :: time ∨ runs (trimTrivia ts) = time ++ [run]) := by
    obtain ⟨front, hfront, h⟩ := bind_eq_ok.1 h
    obtain ⟨back, hback, h⟩ := bind_eq_ok.1 h
    cases h
    exact ⟨run, time, front, back, hfront, hback, rfl, hdated, hruns⟩
  have hsplit := List.takeWhile_append_dropWhile (p := fun r : Run => !hasDateDash r.meaning)
    (l := runs (trimTrivia ts))
  unfold dateTime at h
  dsimp only at h
  split at h
  · cases h
  rename_i run after hrun
  -- the first run that is not skipped is that date
  have hdated : hasDateDash run.meaning = true := by
    have := List.head?_dropWhile_not (fun r : Run => !hasDateDash r.meaning) (runs (trimTrivia ts))
    rw [hrun] at this
    simpa using this
  rw [hrun] at hsplit
  split at h
  · cases h
  split at h
  · rename_i hbefore _
    rw [hbefore] at hsplit
    exact join hdated (Or.inl hsplit.symm) h
  · rename_i hbefore _
    rw [hbefore] at hsplit
    exact join hdated (Or.inr hsplit.symm) (by rw [hbefore] at h; exact h)
  · cases h

/-- A date and a clock time. -/
theorem composite_of_dateTime (hts : ∀ t ∈ ts, t.Genuine) (h : dateTime ts = .ok vs) :
    vs.Composite := by
  obtain ⟨run, time, front, back, hfront, hback, rfl, hdated, hruns⟩ := dateTime_eq_ok h
  have hts' := genuine_trimTrivia hts
  have hmem : ∀ r ∈ run :: time, r ∈ runs (trimTrivia ts) := by
    rcases hruns with hruns | hruns
    · exact fun r hr => hruns ▸ hr
    · exact fun r hr => hruns ▸ (List.perm_append_singleton run time).mem_iff.2 hr
  obtain ⟨hrun, htime⟩ := List.forall_mem_cons.1 hmem
  obtain ⟨hf, hl, -⟩ :=
    dayFields_of_date (fun t ht => hts' t (mem_of_mem_tokens hrun ht)) hdated hfront
  exact Values.composite_append hf (clockTime_of_clock (genuine_flatMap hts' htime) hback)
    (by rw [List.length_append]; omega)

/-- Parts of a day that have been read. -/
structure DayParts.Read (p : DayParts) : Prop where
  day : ∀ text, p.day = some text → DayText text
  month : ∀ text, p.month = some text → wordKind text = .ok .month
  year : ∀ text, p.year = some text → YearText text

lemma dayPart_eq_ok {run : List Token} {u : TimeUnit} {text : String}
    (h : dayPart run = .ok (u, text)) :
    (u = .day ∧ ∃ day, special? run = some (day, text))
      ∨ (u = .month ∧ ∃ t, run = [t] ∧ t.kind = .month ∧ text = t.text)
      ∨ (u = .year ∧ ∃ t, run = [t] ∧ t.kind = .number ∧ t.text.length = 4 ∧ text = t.text) := by
  unfold dayPart at h
  extract_lets special at h
  have hspecial (h : special = .ok (u, text)) :
      u = .day ∧ ∃ day, special? run = some (day, text) := by
    obtain ⟨⟨⟩, -, h⟩ := bind_eq_ok.1 h
    split at h
    · cases h
      exact ⟨rfl, _, ‹_›⟩
    · cases h
  split at h
  · rename_i t
    split at h
    · cases h
      exact Or.inr (Or.inl ⟨rfl, t, rfl, ‹_›, rfl⟩)
    split at h
    · rename_i hy
      cases h
      simp only [isYear, Bool.and_eq_true, decide_eq_true_eq] at hy
      exact Or.inr (Or.inr ⟨rfl, t, rfl, hy.1, hy.2, rfl⟩)
    split at h
    · cases h
    · exact Or.inl (hspecial h)
  · exact Or.inl (hspecial h)

lemma read_of_dayPart {run : List Token} {u : TimeUnit} {text : String}
    (hrun : ∀ t ∈ run, t.Genuine) (h : dayPart run = .ok (u, text)) :
    (u = .day ∧ DayText text) ∨ (u = .month ∧ wordKind text = .ok .month)
      ∨ (u = .year ∧ YearText text) := by
  rcases dayPart_eq_ok h with ⟨hu, day, hday⟩ | ⟨hu, t, rfl, hk, rfl⟩
    | ⟨hu, t, rfl, hk, hlength, rfl⟩
  · exact Or.inl ⟨hu, dayText_of_special? hrun hday⟩
  · exact Or.inr (Or.inl ⟨hu, (hrun t List.mem_cons_self).wordKind_of_kind hk rfl nofun⟩)
  · exact Or.inr (Or.inr ⟨hu, Or.inr ⟨(hrun t List.mem_cons_self).isNumeral hk, hlength⟩⟩)

lemma DayParts.Read.put {p q : DayParts} {whole text : String} {u : TimeUnit} (hp : p.Read)
    (hu : (u = .day ∧ DayText text) ∨ (u = .month ∧ wordKind text = .ok .month)
      ∨ (u = .year ∧ YearText text))
    (h : p.put whole (u, text) = .ok q) : q.Read := by
  rcases hu with ⟨rfl, ht⟩ | ⟨rfl, ht⟩ | ⟨rfl, ht⟩ <;> simp only [DayParts.put] at h <;>
    split at h <;> cases h
  · exact ⟨by rintro _ ⟨⟩; exact ht, hp.month, hp.year⟩
  · exact ⟨hp.day, by rintro _ ⟨⟩; exact ht, hp.year⟩
  · exact ⟨hp.day, hp.month, by rintro _ ⟨⟩; exact ht⟩

lemma DayParts.Read.foldlM {p q : DayParts} {whole : String} {parts : List (List Token)}
    (hp : p.Read) (hparts : ∀ run ∈ parts, ∀ t ∈ run, t.Genuine)
    (h : parts.foldlM (fun p run => do p.put whole (← dayPart run)) p = .ok q) : q.Read := by
  induction parts generalizing p with
  | nil =>
    cases h
    exact hp
  | cons run parts ih =>
    obtain ⟨hrun, hrest⟩ := List.forall_mem_cons.1 hparts
    rw [List.foldlM_cons] at h
    obtain ⟨p', hp', h⟩ := bind_eq_ok.1 h
    obtain ⟨⟨u, text⟩, hpart, hput⟩ := bind_eq_ok.1 hp'
    exact ih (hp.put (read_of_dayPart hrun hpart) hput) hrest h

lemma mem_of_mem_attachDayNumbers {parts : List (List Token)} {run : List Token}
    (hr : run ∈ attachDayNumbers parts) (ht : t ∈ run) : ∃ part ∈ parts, t ∈ part := by
  fun_induction attachDayNumbers parts generalizing run with
  | case1 w n rest hw ih =>
    rcases List.mem_cons.1 hr with rfl | hr
    · rcases List.mem_cons.1 ht with rfl | ht
      · exact ⟨[t], by simp, List.mem_cons_self⟩
      · exact ⟨[n], by simp, ht⟩
    · obtain ⟨part, hpart, ht⟩ := ih hr ht
      exact ⟨part, by simp [hpart], ht⟩
  | case2 w n rest hw ih =>
    rcases List.mem_cons.1 hr with rfl | hr
    · exact ⟨[w], by simp, ht⟩
    · obtain ⟨part, hpart, ht⟩ := ih hr ht
      exact ⟨part, List.mem_cons_of_mem _ hpart, ht⟩
  | case3 first rest _ ih =>
    rcases List.mem_cons.1 hr with rfl | hr
    · exact ⟨run, by simp, ht⟩
    · obtain ⟨part, hpart, ht⟩ := ih hr ht
      exact ⟨part, List.mem_cons_of_mem _ hpart, ht⟩
  | case4 => cases hr

lemma mem_of_mem_splitTime {rs : List Run} {r : Run}
    (h : r ∈ (splitTime rs).1 ∨ r ∈ (splitTime rs).2.1 ∨ r ∈ (splitTime rs).2.2) : r ∈ rs := by
  have hbefore (p : Run → Bool) : rs.takeWhile p ⊆ rs := (List.takeWhile_sublist _).subset
  have hrest (p : Run → Bool) : rs.dropWhile p ⊆ rs := (List.dropWhile_sublist _).subset
  have htime (p q : Run → Bool) : (rs.dropWhile p).takeWhile q ⊆ rs := fun r hr =>
    hrest p ((List.takeWhile_sublist _).subset hr)
  have hafter (p q : Run → Bool) : (rs.dropWhile p).dropWhile q ⊆ rs := fun r hr =>
    hrest p ((List.dropWhile_sublist _).subset hr)
  have hplain (p q : Run → Bool) (h : r ∈ rs.takeWhile p ∨ r ∈ (rs.dropWhile p).takeWhile q
      ∨ r ∈ (rs.dropWhile p).dropWhile q) : r ∈ rs := by
    rcases h with h | h | h
    · exact hbefore p h
    · exact htime p q h
    · exact hafter p q h
  unfold splitTime at h
  dsimp only at h
  split at h
  · split at h
    · rcases h with h | h | h
      · exact hbefore _ (List.dropLast_subset _ h)
      · rcases List.mem_append.1 h with h | h
        · exact hbefore _ (List.drop_subset _ _ h)
        · exact htime _ _ h
      · exact hafter _ _ h
    · exact hplain _ _ h
  · exact hplain _ _ h

lemma DayParts.Read.dayFields {p : DayParts} (hp : p.Read) {day : String}
    (hday : p.day = some day) :
    Values.DayFields ((TimeUnit.day, day) :: p.month.toList.map (fun m => (TimeUnit.month, m))
      ++ p.year.toList.map fun y => (TimeUnit.year, y)) := by
  obtain ⟨d, m, y⟩ := p
  obtain rfl : d = some day := hday
  have hd := hp.day day rfl
  have hm (text : String) (h : m = some text) : MonthText text := .name (hp.month text h)
  have hy := hp.year
  cases m with
  | none =>
    cases y with
    | none =>
      exact ⟨by simp, by simp, by rintro _ ⟨⟩; exact hd, by rintro _ ⟨⟩, by rintro _ ⟨⟩,
        fun _ => Or.inl rfl, fun _ => Or.inl rfl⟩
    | some y =>
      exact ⟨by simp, by simp, by rintro _ ⟨⟩; exact hd, by rintro _ ⟨⟩,
        by rintro _ ⟨⟩; exact hy _ rfl, fun _ => Or.inl rfl, fun _ => Or.inl rfl⟩
  | some m =>
    cases y with
    | none =>
      exact ⟨by simp, by simp, by rintro _ ⟨⟩; exact hd, by rintro _ ⟨⟩; exact hm _ rfl,
        by rintro _ ⟨⟩, fun _ => Or.inl rfl, fun _ => Or.inl rfl⟩
    | some y =>
      exact ⟨by simp, by simp, by rintro _ ⟨⟩; exact hd, by rintro _ ⟨⟩; exact hm _ rfl,
        by rintro _ ⟨⟩; exact hy _ rfl, fun _ => Or.inl rfl, fun _ => Or.inl rfl⟩

lemma dayTime_eq_ok (h : dayTime ts = .ok vs) : ∃ before time after back whole parts day,
    splitTime (runs (trimTrivia ts)) = (before, time, after)
      ∧ clock (time.flatMap Run.all) = .ok back
      ∧ (attachDayNumbers ((before ++ after).map Run.meaning)).foldlM
        (fun parts run => do parts.put whole (← dayPart run)) DayParts.none = .ok parts
      ∧ parts.day = some day
      ∧ vs = (.day, day) :: parts.month.toList.map (fun m => (TimeUnit.month, m))
        ++ parts.year.toList.map (fun y => (TimeUnit.year, y)) ++ back := by
  unfold dayTime at h
  dsimp only at h
  split at h
  · cases h
  obtain ⟨back, hback, h₁⟩ := bind_eq_ok.1 h
  obtain ⟨parts, hparts, h₂⟩ := bind_eq_ok.1 h₁
  split at h₂
  · cases h₂
  · rename_i day hday
    cases h₂
    exact ⟨_, _, _, back, _, parts, day, rfl, hback, hparts, hday, rfl⟩

/-- A day with a clock time. -/
theorem composite_of_dayTime (hts : ∀ t ∈ ts, t.Genuine) (h : dayTime ts = .ok vs) :
    vs.Composite := by
  have hts' := genuine_trimTrivia hts
  obtain ⟨before, time, after, back, whole, parts, day, hsplit, hback, hparts, hday, rfl⟩ :=
    dayTime_eq_ok h
  have hmem {r : Run} (hr : r ∈ before ∨ r ∈ time ∨ r ∈ after) : r ∈ runs (trimTrivia ts) :=
    mem_of_mem_splitTime (by rw [hsplit]; exact hr)
  have hb := clockTime_of_clock (genuine_flatMap hts' fun r hr => hmem (Or.inr (Or.inl hr))) hback
  -- each run outside the time gives one part of a day, with what is written in it
  have hread : parts.Read := by
    refine DayParts.Read.foldlM (p := .none) ⟨?_, ?_, ?_⟩ ?_ hparts
    · rintro _ ⟨⟩
    · rintro _ ⟨⟩
    · rintro _ ⟨⟩
    · intro run hrun t ht
      obtain ⟨part, hpart, ht⟩ := mem_of_mem_attachDayNumbers hrun ht
      obtain ⟨r, hr, rfl⟩ := List.mem_map.1 hpart
      refine hts' t (mem_of_mem_tokens (hmem ?_) (List.mem_of_mem_filter ht))
      rcases List.mem_append.1 hr with hr | hr
      · exact Or.inl hr
      · exact Or.inr (Or.inr hr)
  refine Values.composite_append (hread.dayFields hday) hb ?_
  have hpos : 0 < back.length := by
    have := hb.hour
    cases back with
    | nil => cases this
    | cons v vs => simp
  simp only [List.cons_append, List.length_cons, List.length_append]
  omega

/-! ### Single values -/

lemma unit?_ne_timeZone (ht : t.Genuine) : t.unit? ≠ some .timeZone := by
  intro h
  unfold Token.unit? at h
  split at h
  · rename_i u hu
    rw [Option.some.inj h] at hu
    have hwords : ∀ p ∈ TimeUnit.words, p.2 ≠ .timeZone := by decide
    cases means_of_wordKind (ht.wordKind_of_kind hu rfl nofun) with
    | unit hw =>
      exact hwords (t.text.toLower, .timeZone) (mem_of_lookup hw) rfl
  · cases h

lemma explicitUnit_eq_ok {explicit : Option TimeUnit} {rest : List Token}
    (hts : ∀ t ∈ ts, t.Genuine) (h : explicitUnit ts = .ok (explicit, rest)) :
    explicit ≠ some .timeZone ∧ ∀ t ∈ rest, t.Genuine := by
  unfold explicitUnit at h
  dsimp only at h
  have hrest : ∀ t ∈ ts.filter fun t => t.unit?.isNone, t.Genuine :=
    fun t ht => hts t (List.mem_of_mem_filter ht)
  split at h
  · cases h
    exact ⟨by simp, hrest⟩
  · rename_i word hword
    cases h
    have hmem : word ∈ ts := List.mem_of_mem_filter (by rw [hword]; exact List.mem_cons_self)
    exact ⟨unit?_ne_timeZone (hts word hmem), hrest⟩
  · cases h

variable {default : Option TimeUnit}

lemma or_ne_timeZone {explicit : Option TimeUnit} {u : TimeUnit}
    (he : explicit ≠ some .timeZone) (hd : default ≠ some .timeZone)
    (h : explicit.or default = some u) : u ≠ .timeZone := by
  rintro rfl
  cases explicit with
  | none => exact hd h
  | some e => exact he h

theorem sole_of_specialDay (hts : ∀ t ∈ ts, t.Genuine) (hd : default ≠ some .timeZone)
    (h : specialDay ts default = .ok vs) : ∃ u text, vs = [(u, text)] ∧ Sole u text := by
  obtain ⟨⟨explicit, rest⟩, hexplicit, h⟩ := bind_eq_ok.1 h
  obtain ⟨he, hrest⟩ := explicitUnit_eq_ok hts hexplicit
  dsimp only at h
  split at h
  · cases h
  rename_i day value hspecial
  have day_sole : Sole .day value := by
    rcases spelling_of_special? hrest hspecial with ⟨n, -, -, -, rfl⟩ | ⟨ls, hls⟩
    · exact .number (by decide) n
    · exact .special (by decide) hls (Or.inl rfl)
  split at h
  · rename_i u e hu
    cases h
    refine ⟨u, value, rfl, ?_⟩
    rcases spelling_of_special? hrest hspecial with ⟨n, -, -, hn, -⟩ | ⟨ls, hls⟩
    · cases hn
    · exact .special (or_ne_timeZone he hd hu) hls (Or.inr ⟨e, rfl⟩)
  · cases h
    exact ⟨_, _, rfl, day_sole⟩
  · cases h
    exact ⟨_, _, rfl, day_sole⟩
  · cases h

theorem sole_of_single (hts : ∀ t ∈ ts, t.Genuine) (hd : default ≠ some .timeZone)
    (h : single ts default = .ok vs) : ∃ u text, vs = [(u, text)] ∧ Sole u text := by
  obtain ⟨⟨explicit, rest⟩, hexplicit, h⟩ := bind_eq_ok.1 h
  -- a unit word names the unit, and one token gives the value
  obtain ⟨he, hrest⟩ := explicitUnit_eq_ok hts hexplicit
  dsimp only at h
  split at h
  · cases h
  · cases h
  rename_i value
  have hvalue := hrest value List.mem_cons_self
  split at h
  · rename_i hk
    split at h
    · rename_i u hu
      cases h
      rw [dropZeros_of_number hvalue hk]
      exact ⟨u, _, rfl, .number (or_ne_timeZone he hd hu) _⟩
    · cases h
  · rename_i hk
    refine ⟨.week, value.text, ?_, .weekday (hvalue.wordKind_of_kind hk rfl nofun)⟩
    split at h
    · cases h
      rfl
    · split at h <;> cases h
      rfl
  · rename_i hk
    refine ⟨.month, value.text, ?_, .month (hvalue.wordKind_of_kind hk rfl nofun)⟩
    split at h
    · cases h
      rfl
    · split at h <;> cases h
      rfl
  · cases h

/-- A value that has been read is one text by itself, or texts that go together. -/
theorem form_of_read (hts : ∀ t ∈ ts, t.Genuine) (hd : default ≠ some .timeZone)
    (h : read ts default = .ok vs) :
    (∃ u text, vs = [(u, text)] ∧ Sole u text) ∨ vs.Composite := by
  -- an hour alone is a sole value, more of the clock is a composite
  have hclock (h : clock ts = .ok vs) :
      (∃ u text, vs = [(u, text)] ∧ Sole u text) ∨ vs.Composite := by
    have hc := clockTime_of_clock hts h
    match vs, hc with
    | [], hc => exact absurd hc.hour (by decide)
    | [(u, text)], hc =>
      obtain ⟨n, rfl⟩ := hc.number _ List.mem_cons_self
      refine Or.inl ⟨u, _, rfl, .number ?_ n⟩
      rintro rfl
      rcases hc.unit _ List.mem_cons_self with hu | hu | hu <;> cases hu
    | v :: w :: vs, hc =>
      exact Or.inr (Values.composite_append Values.dayFields_nil hc (by simp))
  have hs := genuine_significant (genuine_trimTrivia hts)
  unfold read at h
  dsimp only at h
  -- in the order in which the reader asks: a time of day, a date, a special day
  split at h
  · cases h
  split at h
  · exact Or.inr (composite_of_dateTime hts h)
  · split at h
    · exact Or.inr (composite_of_dayTime hts h)
    · exact hclock h
  · rename_i hdash
    rw [significant_trimTrivia] at hdash
    obtain ⟨hf, hl, hm⟩ := dayFields_of_date hts hdash h
    exact Or.inr (hf.composite hl hm)
  · split at h
    · exact Or.inl (sole_of_specialDay hs hd h)
    · exact Or.inl (sole_of_single hs hd h)

end Value

end Recurrence
