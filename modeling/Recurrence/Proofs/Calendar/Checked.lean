import Recurrence.Calendar.Checked
import Recurrence.Proofs.Calendar.UnitStarts

/-!
Calculations that do not stop. As long as numbers fit their words and dates are on the calendar, a
calculation within limits comes to the same as one without. Three calculations here can leave their
limits: the year after a December is one more than the word of a year may hold, the week of a time
may start before the calendar does, and some weeks on from the first or back from the last day of a
month the calendar may be over.

Main statements: `daysInMonth_eq`, `addDays_eq` and `land_eq`.
-/

namespace Recurrence

namespace Word

variable {w : Word} {n : Int}

lemma hold_eq (h : w.least ≤ n ∧ n ≤ w.greatest) : w.hold n = pure n := if_pos h

lemma hold_eq_error (h : ¬ (w.least ≤ n ∧ n ≤ w.greatest)) : w.hold n = .error .number := if_neg h

lemma saturate_eq (h : w.least ≤ n ∧ n ≤ w.greatest) : w.saturate n = n := by
  unfold saturate
  omega

end Word

/-! ### Months at the ends of the calendar -/

namespace Date

variable {y m : Int} (hy : firstYear ≤ y ∧ y ≤ lastYear) (hm : 1 ≤ m ∧ m ≤ 12)
include hy hm

lemma earliest_le_first : (y = firstYear ∧ m = 1) ∧ (ofFields y m 1).number = earliest.number
    ∨ ¬ (y = firstYear ∧ m = 1) ∧ earliest.number + 31 ≤ (ofFields y m 1).number := by
  by_cases h : y = firstYear ∧ m = 1
  · obtain ⟨rfl, rfl⟩ := h
    exact Or.inl ⟨⟨rfl, rfl⟩, rfl⟩
  · have hsecond : monthStart (12 * firstYear + 1) = earliest.number + 31 := by decide
    have hmono := monthStart_mono (k := 12 * firstYear + 1) (l := 12 * y + (m - 1)) (by omega)
    rw [monthStart_eq hm.1 hm.2] at hmono
    exact Or.inr ⟨h, by omega⟩

lemma last_le_latest :
    (y = lastYear ∧ m = 12) ∧ (ofFields y m 1).number + (monthLength y m - 1) = latest.number
      ∨ ¬ (y = lastYear ∧ m = 12) ∧ (ofFields y m 1).number + (monthLength y m - 1) + 31
        ≤ latest.number := by
  by_cases h : y = lastYear ∧ m = 12
  · obtain ⟨rfl, rfl⟩ := h
    exact Or.inl ⟨⟨rfl, rfl⟩, rfl⟩
  · have hdecember : monthStart (12 * lastYear + 11) + 30 = latest.number := by decide
    have hmono := monthStart_mono (k := 12 * y + (m - 1) + 1) (l := 12 * lastYear + 11) (by omega)
    rw [monthStart_next hm] at hmono
    exact Or.inr ⟨h, by omega⟩

end Date

namespace LocalTime

/-- A time of a later week than the calendar starts in, and not after year 9999. -/
structure PastFirstWeek (t : LocalTime) : Prop where
  week : earliest.index .week < t.index .week
  year : t.date.year ≤ 9999

lemma index_startOf (u : TimeUnit) (t : LocalTime) : (t.startOf u).index u = t.index u := by
  rw [LocalTime.startOf_eq, index_firstSecond]

lemma PastFirstWeek.inReach {t : LocalTime} (ht : t.PastFirstWeek) : t.InReach := by
  refine ⟨?_, ht.year⟩
  by_contra hlt
  have := index_mono .week (not_le.mp hlt).le
  have := ht.week
  omega

end LocalTime

namespace Checked

open LocalTime

lemma span_eq {s : Int} (h : -9223372036854775 ≤ s ∧ s ≤ 9223372036854775) : span s = pure s :=
  if_pos h

section NextMonth

variable {y m : Int}

lemma nextMonth_stops (hm : 12 ≤ m) : nextMonth Word.signed32.greatest m = .error .number := by
  rw [nextMonth, if_pos hm]
  rfl

variable (hy : Word.signed32.least ≤ y ∧ y ≤ Word.signed32.greatest)
  (hm : 0 ≤ m ∧ m ≤ Word.unsigned32.greatest)
include hy hm

lemma nextMonth_eq (h : ¬ (y = Word.signed32.greatest ∧ 12 ≤ m)) :
    nextMonth y m = .ok (Date.nextMonth y m) := by
  simp only [Word.least, Word.greatest] at hy hm h
  unfold nextMonth Date.nextMonth
  by_cases hlate : 12 ≤ m
  · have hyear : Word.signed32.hold (y + 1) = pure (y + 1) :=
      Word.hold_eq (by simp only [Word.least, Word.greatest]; omega)
    rw [if_pos hlate, if_pos hlate, hyear]
    rfl
  · have hmonth : Word.unsigned32.hold (m + 1) = pure (m + 1) :=
      Word.hold_eq (by simp only [Word.least, Word.greatest]; omega)
    rw [if_neg hlate, if_neg hlate, hmonth]
    rfl

/-- Counting the days of a month stops where naming the month after it does. -/
lemma daysInMonth_eq : daysInMonth y m
    = if y = Word.signed32.greatest ∧ 12 ≤ m then .error .number
      else .ok (Date.daysInMonth y m) := by
  unfold daysInMonth
  split
  · rename_i h
    rw [h.1, nextMonth_stops h.2]
    rfl
  · rename_i h
    have hnext : nextMonth y m = pure (Date.nextMonth y m) := nextMonth_eq hy hm h
    rw [hnext, pure_bind]
    unfold Date.daysInMonth
    dsimp only
    cases Date.ofFields? y m 1 with
    | none => rfl
    | some first => cases Date.ofFields? (Date.nextMonth y m).1 (Date.nextMonth y m).2 1 <;> rfl

end NextMonth

lemma addDays_eq (d : Date) {k : Int} (hk : -366 ≤ k ∧ k ≤ 366) :
    addDays d k = if Date.earliest.number ≤ d.number + k ∧ d.number + k ≤ Date.latest.number then
      .ok ⟨d.number + k⟩ else .error .date := by
  unfold addDays
  rw [span_eq (by simp only [daySeconds]; omega), pure_bind]
  rfl

section Month

variable {y m : Int} (hy : Date.firstYear ≤ y ∧ y ≤ Date.lastYear) (hm : 1 ≤ m ∧ m ≤ 12)
include hy hm

lemma daysInMonth_on : daysInMonth y m = pure (Date.monthLength y m) := by
  have hword : Word.signed32.least ≤ y ∧ y ≤ Word.signed32.greatest
      ∧ y ≠ Word.signed32.greatest := by
    simp only [Word.least, Word.greatest, Date.firstYear, Date.lastYear] at hy ⊢
    omega
  rw [daysInMonth_eq ⟨hword.1, hword.2.1⟩ (by simp only [Word.greatest]; omega),
    if_neg fun h => hword.2.2 h.1, Date.daysInMonth_eq hy hm]
  rfl

lemma addDays_first {k : Int} (hk : 0 ≤ k ∧ k < 35) : addDays (Date.ofFields y m 1) k
    = if (y = Date.lastYear ∧ m = 12) ∧ Date.monthLength y m ≤ k then .error .date
      else .ok ⟨(Date.ofFields y m 1).number + k⟩ := by
  have hlength := Date.monthLength_pos y m
  have hfirst := Date.earliest_le_first hy hm
  have hlast := Date.last_le_latest hy hm
  rw [addDays_eq _ (by omega)]
  split_ifs <;> first | rfl | omega

lemma addDays_last {k : Int} (hk : 0 ≤ k ∧ k < 35) :
    addDays ⟨(Date.ofFields y m 1).number + (Date.monthLength y m - 1)⟩ (-k)
      = if (y = Date.firstYear ∧ m = 1) ∧ Date.monthLength y m ≤ k then .error .date
        else .ok ⟨(Date.ofFields y m 1).number + (Date.monthLength y m - 1) - k⟩ := by
  have hlength := Date.monthLength_pos y m
  have hfirst := Date.earliest_le_first hy hm
  have hlast := Date.last_le_latest hy hm
  rw [addDays_eq _ (by omega)]
  dsimp only
  split_ifs <;> first | rfl | omega

end Month

/-! ### Times of the calendar -/

section OnCalendar

variable {u : TimeUnit} {t : LocalTime} {n : Int}

lemma seconds_bounds (ht : OnCalendar t.seconds) :
    -8334601228800 ≤ t.seconds ∧ t.seconds ≤ 8210266876799 := by
  have hearliest : LocalTime.earliest.seconds = -8334601228800 := by decide
  have hlatest : LocalTime.latest.seconds = 8210266876799 := by decide
  unfold OnCalendar at ht
  omega

lemma hold_month_index (hy : Date.firstYear ≤ t.date.year ∧ t.date.year ≤ Date.lastYear) :
    Word.signed64.hold (t.date.year * 12) = pure (t.date.year * 12)
      ∧ Word.signed64.hold (t.date.year * 12 + (t.date.month - 1)) = pure (t.index .month) := by
  have hmonth := t.date.field_bounds
  simp only [Date.firstYear, Date.lastYear] at hy
  exact ⟨Word.hold_eq (by simp only [Word.least, Word.greatest]; omega),
    Word.hold_eq (by simp only [Word.least, Word.greatest]; omega)⟩

/-- **Indexes of times of the calendar fit their words.** -/
theorem index_eq (ht : OnCalendar t.seconds) : index u t = .ok (t.index u) := by
  have hbounds := seconds_bounds ht
  have hmonths := hold_month_index ht.year_bounds
  have hseconds : Word.signed64.hold t.seconds = pure t.seconds :=
    Word.hold_eq (by simp only [Word.least, Word.greatest]; omega)
  have hdays : Word.signed32.hold t.date.number = pure t.date.number := Word.hold_eq (by
    simp only [Word.least, Word.greatest, date, daySeconds, epochDay]
    omega)
  unfold index
  rw [hseconds, hdays, pure_bind, pure_bind]
  cases u with
  | month => rw [hmonths.1]; exact hmonths.2
  | _ => rfl

/-- A unit starts on the calendar, but for the week that the calendar starts in. -/
lemma startOf_eq (ht : OnCalendar t.seconds) (u : TimeUnit) : startOf u t
    = if u = .week ∧ t.index .week = LocalTime.earliest.index .week then .error .date
      else .ok (t.startOf u) := by
  by_cases hu : u = .week
  · subst hu
    have hbounds := seconds_bounds ht
    have hearliest : Date.earliest.number = -95746129 := by decide
    have hlatest : Date.latest.number = 95745399 := by decide
    have hfirst : LocalTime.earliest.index .week = -13678019 := by decide
    have hindex : t.index .week = t.date.number / 7 := rfl
    have hnumber : t.date.number = t.seconds / 86400 + 719163 := rfl
    have hon : (Date.earliest.number ≤ t.date.number + -(t.date.number % 7)
        ∧ t.date.number + -(t.date.number % 7) ≤ Date.latest.number)
        ↔ ¬ t.index .week = LocalTime.earliest.index .week := by omega
    show addDays t.date (-(t.date.number % 7)) >>= (fun d => pure (midnight d)) = _
    simp only [addDays_eq _ (show -366 ≤ -(t.date.number % 7)
      ∧ -(t.date.number % 7) ≤ 366 by omega),
      hon, true_and, ite_not]
    split <;> rfl
  · rw [if_neg fun h => hu h.1]
    cases u with
    | week => exact absurd rfl hu
    | _ => rfl

lemma addSeconds?_eq {s : Int} (h : -9223372036854775 ≤ s ∧ s ≤ 9223372036854775) :
    addSeconds? t s = .ok (t.addSeconds? s) := by
  rw [addSeconds?, span_eq h]
  rfl

lemma addMonths?_eq (hy : Date.firstYear ≤ t.date.year ∧ t.date.year ≤ Date.lastYear)
    (hn : 0 ≤ n ∧ n ≤ 12 * 4294967295)
    (hlast : t.index .month + n ≠ 12 * Word.signed32.greatest + 11) :
    addMonths? t n = .ok (t.addMonths? n) := by
  have hmonth := t.date.field_bounds
  have hindex : t.index .month = t.date.year * 12 + (t.date.month - 1) := rfl
  obtain ⟨hyears, hmonths⟩ := hold_month_index hy
  simp only [Date.firstYear, Date.lastYear] at hy
  have hcount : Word.signed64.hold (t.index .month + n) = pure (t.index .month + n) :=
    Word.hold_eq (by simp only [Word.least, Word.greatest]; omega)
  unfold addMonths? LocalTime.addMonths?
  rw [hyears, pure_bind, hmonths, pure_bind, hcount, pure_bind]
  generalize t.index .month + n = count at hlast hcount
  simp only [Word.greatest] at hlast
  by_cases hyear : Word.signed32.least ≤ count / 12 ∧ count / 12 ≤ Word.signed32.greatest
  · rw [Word.hold_eq hyear]
    show daysInMonth (count / 12) (count % 12 + 1) >>= _ = _
    rw [daysInMonth_eq hyear (by simp only [Word.greatest]; omega),
      if_neg (by simp only [Word.greatest]; omega)]
    rfl
  · rw [Word.hold_eq_error hyear]
    dsimp only
    rw [Date.ofFields?_off]
    · rfl
    · simp only [Word.least, Word.greatest, Date.firstYear, Date.lastYear] at hyear ⊢
      omega

/-- Adding units to the start of one does not stop. The spans are short enough to be counted, and no
December is looked at that ends the years of a word: months do not lead so far, and years lead to a
January. -/
lemma shift?_startOf (ht : OnCalendar t.seconds) (hn : 1 ≤ n ∧ n ≤ Word.unsigned32.greatest)
    (u : TimeUnit) :
    ∃ shifted, shift? (t.startOf u) n u = .ok shifted ∧ t.land n u = shifted.getD latest := by
  have hyear := ht.year_bounds
  have hmonth := t.date.field_bounds
  simp only [Word.greatest, Date.firstYear, Date.lastYear] at hn hyear
  cases u with
  -- fixed units: the span is short enough to be counted
  | second | minute | hour => exact ⟨_, addSeconds?_eq (by omega), rfl⟩
  | day | week => exact ⟨_, addSeconds?_eq (by simp only [daySeconds]; omega), rfl⟩
  -- months do not lead as far as the last December of a word
  | month =>
    have hindex : (t.startOf .month).index .month = t.index .month := index_startOf .month t
    refine ⟨_, addMonths?_eq ?_ (by omega) ?_, rfl⟩
    · simp only [LocalTime.index] at hindex
      simp only [Date.firstYear, Date.lastYear]
      have := (t.startOf .month).date.field_bounds
      omega
    · rw [hindex]
      simp only [LocalTime.index, Word.greatest]
      omega
  | year =>
    have hindex : (t.startOf .year).date.year = t.date.year := index_startOf .year t
    -- years are counted in months, and lead from one January to another
    have hjanuary : (t.startOf .year).index .month = t.date.year * 12 := by
      rw [LocalTime.startOf_eq, firstSecond_year, index_firstSecond]
      rfl
    have hmonths : Word.signed64.saturate (n * 12) = n * 12 :=
      Word.saturate_eq (by simp only [Word.least, Word.greatest]; omega)
    refine ⟨_, ?_, rfl⟩
    show addMonths? (t.startOf .year) (Word.signed64.saturate (n * 12)) = _
    rw [hmonths]
    refine addMonths?_eq ?_ (by omega) ?_
    · rw [hindex]
      simp only [Date.firstYear, Date.lastYear]
      omega
    · rw [hjanuary]
      simp only [Word.greatest]
      omega
  | timeZone => exact ⟨_, rfl, rfl⟩

/-- **Landings stop in one week only:** the weeks after the one that the calendar starts in are
counted from a day before it. -/
theorem land_eq (ht : OnCalendar t.seconds) (hn : 1 ≤ n ∧ n ≤ Word.unsigned32.greatest)
    (u : TimeUnit) : land t n u
      = if u = .week ∧ t.index .week = LocalTime.earliest.index .week then .error .date
        else .ok (t.land n u) := by
  obtain ⟨shifted, hok, hland⟩ := shift?_startOf ht hn u
  rw [land, startOf_eq ht, hland]
  split
  · rfl
  · show shift (t.startOf u) n u = _
    rw [shift, hok]
    rfl

end OnCalendar

end Checked

end Recurrence
