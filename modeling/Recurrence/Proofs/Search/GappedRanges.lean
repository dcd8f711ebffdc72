import Recurrence.Proofs.Expression.RoundTrips
import Recurrence.Proofs.Search.Intervals

/-!
Ranges with a gap. A range that has been read bounds units next to each other, or it bounds the year
and a clock time and only one of the month and the day. Jumps into ranges of the first kind are
safe. With a gap the window moves with the month or the day that has no bounds, and a jump computed
from one of them passes over the windows of others.

Main statements: `gapped_of_formed`, `unsafe_of_gapped` and `hintsSafe_iff`.
-/

namespace Recurrence

namespace Range

open LocalTime Fields TimeUnit

variable {r : Range} {side : Side} {coarsest finest u : TimeUnit} {a b : Fields}
  {o s t : LocalTime}

/-- No whole second that the jump from the time passes over is accepted. -/
def HintsSafe (r : Range) (t : LocalTime) : Prop :=
  ∀ jump s, r.check t = some jump → jump.PassesOver t s → r.accepts s = false

/-! ### Which ranges have a gap -/

/-- The year and a clock time have bounds, and of the month and the day only one. -/
structure Gapped (r : Range) : Prop where
  year : .year ∈ r.bounded
  hour : .hour ∈ r.bounded
  week : r.bounds.get? .week = none
  gap : .month ∈ r.bounded ↔ .day ∉ r.bounded

lemma infix_or_gap (p : TimeUnit → Bool) (hsecond : p .second = true → p .minute = true)
    (hminute : p .minute = true → p .hour = true)
    (hmonth : p .month = true → p .day = true ∨ p .year = true)
    (hyear : p .year = true → p .day = true ∨ p .month = true)
    (hhour : p .hour = false → p .month = true) :
    clockOrder.filter p <:+: clockOrder
      ∨ p .year = true ∧ p .hour = true ∧ (p .month = true ↔ p .day = false) := by
  simp only [clockOrder, List.filter]
  revert hsecond hminute hmonth hyear hhour
  generalize p .year = year, p .month = month, p .day = day, p .hour = hour, p .minute = minute,
    p .second = second
  revert year month day hour minute second
  decide

/-- **A range that has been read bounds units next to each other, or has a gap.** -/
theorem gapped_of_formed (h : r.Formed) (hn : ¬ r.InARow) : r.Gapped := by
  obtain ⟨starts, stops, hs, ht, hunits, rfl⟩ := h
  have hsome := isSome_get?_ofSides hs.nodup hunits hs.zone ht.zone
  rcases hs with ⟨u, text, rfl, -⟩ | hc
  · -- one unit is next to itself
    refine absurd ?_ hn
    have hone : (ofSides [(u, text)] stops).bounded = clockOrder.filter fun v => v == u := by
      refine List.filter_congr fun v _ => ?_
      rw [hsome, List.lookup_cons]
      cases v == u <;> rfl
    rw [InARow, hone]
    cases u <;> decide
  · obtain ⟨hyear, hhour, hgap⟩ := (infix_or_gap
      (fun u => ((ofSides starts stops).bounds.get? u).isSome)
      (by simpa only [hsome] using hc.minute) (by simpa only [hsome] using hc.hour)
      (by simpa only [hsome] using hc.monthPartner) (by simpa only [hsome] using hc.yearPartner)
      (by simpa only [hsome] using fun hh => hc.dated (by simpa using hh))).resolve_left hn
    refine ⟨mem_bounded.mpr ⟨by decide, hyear⟩, mem_bounded.mpr ⟨by decide, hhour⟩, ?_, ?_⟩
    · have hweek := hsome .week
      rw [hc.week] at hweek
      simpa using hweek
    · rw [mem_bounded, mem_bounded, and_iff_right (by decide), and_iff_right (by decide), hgap,
        Bool.not_eq_true]

/-! ### Openings -/

lemma boundIn_range {y m v : Int} (hle : u.minValue ≤ u.maxValueIn y m)
    (h : r.boundIn side y m u = some v) : u.minValue ≤ v ∧ v ≤ u.maxValueIn y m := by
  unfold boundIn at h
  cases hb : r.bounds.get? u with
  | none => simp [hb] at h
  | some p =>
    simp only [hb, Option.bind_some, Option.map_eq_some_iff] at h
    obtain ⟨x, -, rfl⟩ := h
    exact ⟨le_max_left _ _, max_le hle (min_le_right _ _)⟩

namespace IsSide

variable (hs : r.IsSide side finest t a)

include hs

lemma get_range (hu : HasField u) (hday : u ≠ .day) (hyear : u = .year → u ∈ r.bounded) :
    u.minValue ≤ a.get u ∧ a.get u ≤ u.maxValue := by
  have hval := hs u hu
  have hmax := maxValueIn_of_ne_day hday a.year a.month
  have hle : u.minValue ≤ u.maxValue := by cases u <;> decide
  cases hb : r.bounds.get? u with
  | some p =>
    rw [fieldIn_of_bounds (by rw [hb]; rfl)] at hval
    rw [← hmax] at hle ⊢
    exact boundIn_range hle hval
  | none =>
    rw [fieldIn_of_none hb, Option.some.injEq] at hval
    rw [← hval]
    split
    · cases side with
      | start => exact ⟨le_refl _, hle⟩
      | stop => rw [Side.edge, hmax]; exact ⟨hle, le_refl _⟩
    · have hny : u ≠ .year := fun hy => by
        have := (mem_bounded.mp (hyear hy)).2
        rw [hb] at this; cases this
      exact ⟨minValue_le_part hny t, part_le_maxValue hday hny t⟩

lemma year_range (hy : .year ∈ r.bounded) : 1 ≤ a.year ∧ a.year ≤ 9999 :=
  hs.get_range (u := .year) (by decide) (by decide) fun _ => hy

lemma day_range (hd : .day ∈ r.bounded) (hy : 1 ≤ a.year ∧ a.year ≤ 9999)
    (hm : 1 ≤ a.month ∧ a.month ≤ 12) : 1 ≤ a.day ∧ a.day ≤ Date.monthLength a.year a.month := by
  have hval := hs .day (by decide)
  rw [fieldIn_of_bounds (mem_bounded.mp hd).2] at hval
  have hmax : TimeUnit.day.maxValueIn a.year a.month = Date.monthLength a.year a.month := by
    rw [maxValueIn, if_pos ⟨rfl, by omega⟩, Date.daysInMonth_eq _ hm]
    simp only [Date.firstYear, Date.lastYear]; omega
  have hle : (1 : Int) ≤ Date.monthLength a.year a.month := by
    have := Date.monthLength_pos a.year a.month
    omega
  have hrange := boundIn_range (by rw [hmax]; exact hle) hval
  rwa [hmax] at hrange

lemma exists_ofFields? (hy : .year ∈ r.bounded)
    (hd : 1 ≤ a.day ∧ a.day ≤ Date.monthLength a.year a.month) : ∃ o, ofFields? a = some o := by
  have hyear := hs.year_range hy
  refine LocalTime.exists_ofFields? ?_ ?_ hd ?_ ?_ ?_
  · simp only [Date.firstYear, Date.lastYear]; omega
  · exact hs.get_range (u := .month) (by decide) (by decide) (by rintro ⟨⟩)
  · exact hs.get_range (u := .hour) (by decide) (by decide) (by rintro ⟨⟩)
  · exact hs.get_range (u := .minute) (by decide) (by decide) (by rintro ⟨⟩)
  · exact hs.get_range (u := .second) (by decide) (by decide) (by rintro ⟨⟩)

lemma get_eq {t' : LocalTime} {a' : Fields} (hs' : r.IsSide side finest t' a')
    (h : r.Spans coarsest finest) (hu : u ∈ r.bounded) (hday : u ≠ .day) : a.get u = a'.get u := by
  have hval := hs.sideValue_eq h hu
  rw [sideValue_of_ne_day hday 0 0, ← sideValue_of_ne_day hday 0 0 (t := t'),
    hs'.sideValue_eq h hu, Option.some.injEq] at hval
  exact hval.symm

end IsSide

lemma windowAt_opening (h : r.Spans coarsest finest) (hw : r.windowAt finest t = some (a, b))
    (ho : ofFields? a = some o) : r.windowAt finest o = some (a, b) := by
  rw [← hw]
  refine h.windowAt_congr ?_
  rintro u hu hb ⟨v, hv, hf⟩
  rw [← fields_get hu, (fields_of_ofFields? ho).1]
  exact (windowAt_eq_some_iff.mp hw).1.get_of_keeps hu (h.keeps hb hv hf)

lemma accepts_opening (h : r.Spans coarsest finest) (hweek : r.bounds.get? .week = none)
    (hw : r.windowAt finest t = some (a, b)) (ho : ofFields? a = some o)
    (hle : ¬ b.toList < a.toList) : r.accepts o = true := by
  have hof := (fields_of_ofFields? ho).1
  rw [accepts_eq_true_iff, clockCheck_eq h, windowAt_opening h hw ho, hof]
  refine ⟨?_, by rw [weekdayCheck, hweek]⟩
  simp only [if_neg (List.lt_irrefl a.toList), if_neg hle]

/-! ### Jumps over a gap -/

lemma spans_year (hy : .year ∈ r.bounded) : ∃ finest, r.Spans .year finest := by
  have hhead : r.bounded.head? = some .year := by
    have hp := (mem_bounded.mp hy).2
    rw [bounded, clockOrder, List.filter_cons, if_pos hp, List.head?_cons]
  obtain ⟨coarsest, finest, h⟩ := exists_spans (List.ne_nil_of_mem hy)
  exact ⟨finest, hhead, h.last⟩

lemma check_opening (h : r.Spans coarsest finest) (hw : r.windowAt finest t = some (a, b))
    (hlt : t.fields.toList < a.toList) (ho : ofFields? a = some o) :
    r.check t = some (.time o) := by
  have hc : r.clockCheck t = some (.time o) := by
    rw [clockCheck_eq h, hw]
    simp only [if_pos hlt, ho, Option.elim_some]
  rw [check, hc]

lemma check_of_no_window (h : r.Spans .year finest) (hw : r.windowAt finest t = none) :
    r.check t = some .never := by
  have hc : r.clockCheck t = some .never := by
    rw [clockCheck_eq h, hw]
    rfl
  rw [check, hc]

lemma check_past_window (h : r.Spans .year finest) (hw : r.windowAt finest t = some (a, b))
    (hge : ¬ t.fields.toList < a.toList) (hlt : b.toList < t.fields.toList) :
    r.check t = some .never := by
  have hc : r.clockCheck t = some .never := by
    rw [clockCheck_eq h, hw]
    simp only [if_neg hge, if_pos hlt]
    rfl
  rw [check, hc]

/-- A jump to an opening passes over what comes before it. -/
lemma not_hintsSafe_of_opening (h : r.Spans coarsest finest)
    (hw : r.windowAt finest t = some (a, b)) (ho : ofFields? a = some o) (hsw : s.IsWhole)
    (hs : r.accepts s = true) (hts : t.fields.toList < s.fields.toList)
    (hsa : s.fields.toList < a.toList) : ¬ r.HintsSafe t := by
  intro hsafe
  have hso : s < o := lt_of_fields_lt ((fields_of_ofFields? ho).1.symm ▸ hsa)
  have hp : (Advance.time o).PassesOver t s :=
    ⟨hsw, lt_of_fields_lt hts, lt_max_of_lt_left hso⟩
  rw [hsafe _ s (check_opening h hw (List.lt_trans hts hsa) ho) hp] at hs
  cases hs

lemma not_hintsSafe_of_never (hn : r.check t = some .never) (hsw : s.IsWhole)
    (hs : r.accepts s = true) (hts : t.fields.toList < s.fields.toList)
    (hy : s.date.year ≤ 9999) : ¬ r.HintsSafe t := by
  intro hsafe
  have hp : Advance.never.PassesOver t s := ⟨hsw, lt_of_fields_lt hts, hy⟩
  rw [hsafe _ s hn hp] at hs
  cases hs

/-- Some whole second of the calendar has a jump that passes over an accepted one. -/
def Unsafe (r : Range) : Prop :=
  ∃ t : LocalTime, t.IsWhole ∧ 0 ≤ t.date.year ∧ t.date.year ≤ 9999 ∧ ¬ r.HintsSafe t

lemma Between.of_starts (hs : r.Between s)
    (hside : ∀ side, ∀ u ∈ r.bounded, r.sideValue side o u = r.sideValue side s u)
    (ho : ∀ u ∈ r.bounded, r.sideValue .start s u = some (o.part u)) : r.Between o := by
  obtain ⟨low, high, hval, hlow, hhigh⟩ := hs
  have hparts : r.bounded.map o.part = r.bounded.map low := List.map_congr_left fun u hu =>
    Option.some.inj ((ho u hu).symm.trans (hval u hu).1)
  refine ⟨low, high, fun u hu => ?_, ?_, ?_⟩
  · rw [hside _ u hu, hside _ u hu]; exact hval u hu
  · rw [hparts]; exact List.lt_irrefl _
  · rw [hparts]; exact List.le_trans hlow hhigh

/-- Without bounds for the day the window moves from day to day: its opening has the day of the time
and is accepted when anything is. -/
lemma exists_opening_on (h : r.Spans .year finest) (hg : r.Gapped) (hday : .day ∉ r.bounded)
    (hs : r.accepts s = true) {y d : Int} (hy : 0 ≤ y ∧ y ≤ 9999) (hd : 1 ≤ d ∧ d ≤ 28) :
    ∃ t o a b, t.IsWhole ∧ t.fields = ⟨y, 1, d, 0, 0, 0⟩ ∧ r.windowAt finest t = some (a, b)
      ∧ ofFields? a = some o ∧ a.day = d ∧ r.accepts o = true := by
  have hbetween := ((r.accepts_iff s).mp hs).1
  have ⟨low, high, hval, _⟩ := hbetween
  have hside : ∀ (t : LocalTime) (side : Side), ∀ u ∈ r.bounded,
      r.sideValue side t u = r.sideValue side s u := fun t side u hu => by
    have hne : u ≠ .day := by rintro rfl; exact hday hu
    rw [sideValue_of_ne_day hne 0 0, sideValue_of_ne_day hne 0 0]
  obtain ⟨t, htw, htf⟩ := exists_midnight hy (m := 1) (by decide) hd
  obtain ⟨a, ha⟩ := exists_isSide (t := t) h fun u hu => (hside t _ u hu).trans (hval u hu).1
  obtain ⟨b, hb⟩ := exists_isSide (t := t) h fun u hu => (hside t _ u hu).trans (hval u hu).2
  have hkeeps : r.Keeps finest .day :=
    h.keeps (get?_eq_none_of_not_mem (by decide) hday) hg.hour rfl
  have had : a.day = d := by
    have := ha.get_of_keeps (by decide) hkeeps
    rwa [← fields_get (by decide), htf] at this
  have hlength := Date.monthLength_pos a.year a.month
  obtain ⟨o, ho⟩ := ha.exists_ofFields? hg.year ⟨by omega, by omega⟩
  refine ⟨t, o, a, b, htw, htf, windowAt_eq_some_iff.mpr ⟨ha, hb⟩, ho, had, ?_⟩
  refine (r.accepts_iff o).mpr ⟨hbetween.of_starts (hside o) fun u hu => ?_, fun p hp => ?_⟩
  · rw [← fields_get (mem_bounded.mp hu).1, (fields_of_ofFields? ho).1, ← hside t .start u hu]
    exact ha.sideValue_eq h hu
  · rw [hg.week] at hp; cases hp

/-- With bounds for year, month and clock, the jump to the opening on the second of a month passes
over the opening on the first. -/
lemma unsafe_of_no_day (hg : r.Gapped) (hday : .day ∉ r.bounded) (hs : r.accepts s = true) :
    r.Unsafe := by
  obtain ⟨finest, h⟩ := spans_year hg.year
  have hmonth : .month ∈ r.bounded := hg.gap.mpr hday
  obtain ⟨t₁, o₁, a₁, b₁, -, -, hw₁, ho₁, hd₁, hok⟩ :=
    exists_opening_on h hg hday hs (y := 0) (d := 1) (by decide) (by decide)
  have ha₁ := (windowAt_eq_some_iff.mp hw₁).1
  have hyear := ha₁.year_range hg.year
  obtain ⟨t₂, o₂, a₂, b₂, htw, htf, hw₂, ho₂, hd₂, -⟩ :=
    exists_opening_on h hg hday hs (y := a₁.year - 1) (d := 2) (by omega) (by decide)
  have ha₂ := (windowAt_eq_some_iff.mp hw₂).1
  have hy : a₁.year = a₂.year := ha₁.get_eq ha₂ h hg.year (by decide)
  have hm : a₁.month = a₂.month := ha₁.get_eq ha₂ h hmonth (by decide)
  obtain ⟨hof, how⟩ := fields_of_ofFields? ho₁
  have hty : t₂.date.year = a₁.year - 1 := year_of_fields htf
  refine ⟨t₂, htw, by omega, by omega, not_hintsSafe_of_opening h hw₂ ho₂ how hok ?_ ?_⟩
  · rw [htf, hof, toList_lt_iff]; simp only; omega
  · rw [hof, toList_lt_iff]; omega

lemma exists_opening_in (h : r.Spans .year finest) (hg : r.Gapped) (hmonth : .month ∉ r.bounded)
    (hw : r.windowAt finest t = some (a, b)) :
    a.month = t.date.month ∧ (1 ≤ a.year ∧ a.year ≤ 9999) ∧ ∃ o, ofFields? a = some o := by
  have ha := (windowAt_eq_some_iff.mp hw).1
  have hday : .day ∈ r.bounded := not_not.mp (mt hg.gap.mpr hmonth)
  have hkeeps : r.Keeps finest .month :=
    h.keeps (get?_eq_none_of_not_mem (by decide) hmonth) hday rfl
  have hm : a.month = t.date.month := ha.get_of_keeps (by decide) hkeeps
  have hy := ha.year_range hg.year
  have hf := t.date.field_bounds
  exact ⟨hm, hy, ha.exists_ofFields? hg.year (ha.day_range hday hy (by omega))⟩

lemma unsafe_of_month_lt (h : r.Spans .year finest) (hg : r.Gapped) (hmonth : .month ∉ r.bounded)
    (hw : r.windowAt finest s = some (a, b)) (ho : ofFields? a = some o) (hok : r.accepts o = true)
    (hm : a.month < 12) : r.Unsafe := by
  obtain ⟨-, hy, -⟩ := exists_opening_in h hg hmonth hw
  obtain ⟨hof, how⟩ := fields_of_ofFields? ho
  obtain ⟨t, htw, htf⟩ := exists_midnight (y := a.year - 1) (m := 12) (d := 1) (by omega)
    (by decide) (by decide)
  have hty : t.date.year = a.year - 1 := year_of_fields htf
  have hto : t.fields.toList < o.fields.toList := by
    rw [htf, hof, toList_lt_iff]; simp only; omega
  refine ⟨t, htw, by omega, by omega, ?_⟩
  cases hwt : r.windowAt finest t with
  | none =>
    refine not_hintsSafe_of_never (check_of_no_window h hwt) how hok hto ?_
    rw [year_of_fields hof]; exact hy.2
  | some w =>
    obtain ⟨a', b'⟩ := w
    obtain ⟨hm', -, o', ho'⟩ := exists_opening_in h hg hmonth hwt
    have htm : t.date.month = 12 := congrArg Fields.month htf
    have hyy : a.year = a'.year := (windowAt_eq_some_iff.mp hw).1.get_eq
      (windowAt_eq_some_iff.mp hwt).1 h hg.year (by decide)
    refine not_hintsSafe_of_opening h hwt ho' how hok hto ?_
    rw [hof, toList_lt_iff]; omega

lemma unsafe_of_no_month (hg : r.Gapped) (hmonth : .month ∉ r.bounded) (hs : r.accepts s = true) :
    r.Unsafe := by
  obtain ⟨finest, h⟩ := spans_year hg.year
  obtain ⟨a, b, hw, hlow, hhigh⟩ := clockCheck_eq_none h (accepts_eq_true_iff.mp hs).1
  obtain ⟨hm, hy, o, ho⟩ := exists_opening_in h hg hmonth hw
  obtain ⟨hof, how⟩ := fields_of_ofFields? ho
  have hok : r.accepts o = true := accepts_opening h hg.week hw ho (List.le_trans hlow hhigh)
  have hoy : o.date.year ≤ 9999 := by rw [year_of_fields hof]; exact hy.2
  have hmonths := s.date.field_bounds
  by_cases hlt : a.month < 12
  · exact unsafe_of_month_lt h hg hmonth hw ho hok hlt
  -- the accepted opening is one of December, and the November before it has one or has none
  obtain ⟨t, htw, htf⟩ := exists_midnight (y := a.year) (m := 11) (d := 1) (by omega)
    (by decide) (by decide)
  have hty : t.date.year = a.year := by rw [year_of_fields htf]
  have htm : t.date.month = 11 := congrArg Fields.month htf
  cases hwt : r.windowAt finest t with
  | none =>
    have hn := check_of_no_window h hwt
    refine ⟨t, htw, by omega, by omega, not_hintsSafe_of_never hn how hok ?_ hoy⟩
    rw [htf, hof, toList_lt_iff]
    refine Or.inr ⟨rfl, Or.inl ?_⟩
    simp only; omega
  | some w =>
    obtain ⟨a', b'⟩ := w
    obtain ⟨hm', hy', o', ho'⟩ := exists_opening_in h hg hmonth hwt
    obtain ⟨hof', how'⟩ := fields_of_ofFields? ho'
    by_cases hle : b'.toList < a'.toList
    · -- the window of November ends before it starts, and its opening is past it
      have hn := check_past_window h (windowAt_opening h hwt ho')
        (by rw [hof']; exact List.lt_irrefl _) (by rw [hof']; exact hle)
      have hyy : a.year = a'.year := (windowAt_eq_some_iff.mp hw).1.get_eq
        (windowAt_eq_some_iff.mp hwt).1 h hg.year (by decide)
      have hoy' := year_of_fields hof'
      refine ⟨o', how', by omega, by omega, not_hintsSafe_of_never hn how hok ?_ hoy⟩
      rw [hof', hof, toList_lt_iff]; omega
    · exact unsafe_of_month_lt h hg hmonth hwt ho' (accepts_opening h hg.week hwt ho' hle)
        (by omega)

/-- **Across a gap some jump is unsafe** as soon as anything is accepted. -/
theorem unsafe_of_gapped (hg : r.Gapped) (hs : r.accepts s = true) : r.Unsafe := by
  by_cases hday : .day ∈ r.bounded
  · exact unsafe_of_no_month hg (fun hm => hg.gap.mp hm hday) hs
  · exact unsafe_of_no_day hg hday hs

/-! ### Hints -/

lemma formed_of_mem_ranges {rule : Rule} (h : rule.Formed) (hr : r ∈ rule.ranges) : r.Formed := by
  cases h with
  | within hf =>
    rw [List.mem_singleton.mp hr]
    exact hf
  | withinAny _ hf => exact hf r hr
  | every | equals | oneOf | zone => cases hr

/-- **The jumps into a range of an accepted text are safe exactly when there is no gap or nothing is
accepted.** Whatever the units, of what a jump passes over while the units that the window keeps
agree only the opening may be accepted, and only from inside the second before it. -/
theorem hintsSafe_iff {D : Zone.Database} {text : String} {ceiling : Nat} {e : Expression}
    (h : Expression.parse D text ceiling = .ok e) {rule : Rule} (hrule : rule ∈ e.rules)
    (hr : r ∈ rule.ranges) :
    ((∀ t, earliest ≤ t → t ≤ latest → t.IsWhole → r.HintsSafe t)
      ↔ r.InARow ∨ ∀ s, r.accepts s = false)
    ∧ ∀ t jump s, earliest ≤ t → r.check t = some jump → jump.PassesOver t s →
      r.accepts s = true → r.InARow ∨ r.AgreeOnKept s t → jump = .time s ∧ ¬ t.IsWhole := by
  refine ⟨⟨fun hsafe => ?_, ?_⟩, fun t jump s ht hj hp hs hk => eq_opening_of_accepts hk ht hj hp
    hs⟩
  · rw [or_iff_not_imp_left]
    intro hrow s
    by_contra hs
    have hg := gapped_of_formed
      (formed_of_mem_ranges (Expression.formed_of_parse h rule hrule) hr) hrow
    obtain ⟨t, htw, hy, hy', hn⟩ := unsafe_of_gapped hg (Bool.not_eq_false _ ▸ hs)
    have hfirst : earliest ≤ t := earliest_le (by simp only [Date.firstYear]; omega)
    exact hn (hsafe t hfirst (le_of_lt (lt_latest hy')) htw)
  · rintro (hrow | hnone) t ht - htw jump s hj hp
    · by_contra hs
      exact (eq_opening_of_accepts (Or.inl hrow) ht hj hp (Bool.not_eq_false _ ▸ hs)).2 htw
    · exact hnone s

/-- Office hours have no gap. -/
theorem hintsSafe_iff_office_hours :
    ∃ e rule r,
      Expression.parse .empty "@every 20 minutes @between 9:00 and 17:30" Expression.standardCeiling
        = .ok e
        ∧ rule ∈ e.rules ∧ r ∈ rule.ranges
        ∧ ∀ t, earliest ≤ t → t ≤ latest → t.IsWhole → r.HintsSafe t := by
  obtain ⟨e, he, hrow⟩ :=
    Expression.exists_of_any .empty "@every 20 minutes @between 9:00 and 17:30"
    Expression.standardCeiling
      (fun e => e.rules.any fun rule => rule.ranges.any fun r => decide r.InARow)
    (by decide +kernel)
  obtain ⟨rule, hrule, hrow⟩ := List.any_eq_true.mp hrow
  obtain ⟨r, hr, hrow⟩ := List.any_eq_true.mp hrow
  exact ⟨e, rule, r, he, hrule, hr,
    (hintsSafe_iff he hrule hr).1.mpr (Or.inl (of_decide_eq_true hrow))⟩

/-- On 20 January the window of January is over, and the jump leads nowhere, though 5 February is in
the window of its month. -/
theorem hints_pass_over_february :
    let t : LocalTime := (midnight (Date.ofFields 2024 1 20)).addSeconds 39600
    let s : LocalTime := (midnight (Date.ofFields 2024 2 5)).addSeconds 36000
    ∃ e rule r,
      Expression.parse .empty "@every 1 hour @between 5th 2024 10:00 and 10th 2024 12:00"
        Expression.standardCeiling = .ok e
        ∧ rule ∈ e.rules ∧ r ∈ rule.ranges
        ∧ r.check t = some .never ∧ Advance.never.PassesOver t s ∧ r.accepts s = true := by
  have hyear : (date ((midnight (Date.ofFields 2024 2 5)).addSeconds 36000)).year ≤ 9999 := by
    decide +kernel
  obtain ⟨e, he, hany⟩ := Expression.exists_of_any .empty
    "@every 1 hour @between 5th 2024 10:00 and 10th 2024 12:00" Expression.standardCeiling
    (fun e => e.rules.any fun rule => rule.ranges.any fun r =>
      decide (r.check ((midnight (Date.ofFields 2024 1 20)).addSeconds 39600) = some .never)
        && r.accepts ((midnight (Date.ofFields 2024 2 5)).addSeconds 36000)) (by decide +kernel)
  obtain ⟨rule, hrule, hany⟩ := List.any_eq_true.mp hany
  obtain ⟨r, hr, hboth⟩ := List.any_eq_true.mp hany
  rw [Bool.and_eq_true, decide_eq_true_eq] at hboth
  exact ⟨e, rule, r, he, hrule, hr, hboth.1, ⟨rfl, by decide +kernel, hyear⟩, hboth.2⟩

end Range

end Recurrence
