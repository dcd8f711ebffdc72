import Recurrence.Proofs.Resolution.Extents
import Recurrence.Proofs.Resolution.Weekdays

/-!
Where the days that texts stand for lie. The forms that look at the month stay in it: an edge is cut
to its length, a weekday is found between its first day and its last, and a weekend is left towards
its middle. Only a day that is written as a number, plain or with an ordinal ending, is taken as it
is, and the month may be too short for it.

Main statement: `ofText_within`.
-/

namespace Recurrence

namespace Resolution

open SpecialDay Text

variable {u : TimeUnit} {y m v : Int} {text : String}

lemma ordinalDay?_bounds {word : String} {n : Nat} (h : ordinalDay? word = some n) :
    1 ≤ n ∧ n ≤ 31 := by
  unfold ordinalDay? at h
  dsimp only at h
  split at h
  · rename_i hn
    cases h
    exact hn.2.2
  · cases h

lemma ofText_of_digits (hu : u ≠ .timeZone) (hne : smallChars text ≠ [])
    (h : (smallChars text).all Char.isDigit = true) :
    ofText u y m text = ofNumber u (digitsValue (smallChars text)) := by
  have hdigits := h
  rw [all_isDigit_smallChars] at hdigits
  have hsmall : smallChars text = trimChars text.toList := map_toLower_of_digits hdigits
  rw [hsmall] at hne ⊢
  unfold ofText
  dsimp only
  rw [if_neg (not_or.2 ⟨hu, hne⟩), if_pos hdigits]

lemma ofText_of_blank (h : smallChars text = []) : ofText u y m text = invalid := by
  unfold ofText
  exact if_pos (Or.inr (List.map_eq_nil_iff.1 h))

section

variable (hy : Date.firstYear ≤ y ∧ y ≤ Date.lastYear) (hm : 1 ≤ m ∧ m ≤ 12)
include hy hm

lemma ofEdge_day_within {e : EdgeText} (h : ofEdge .day y m e = value v) : v ∈ Date.daysOf y m := by
  have hmax : TimeUnit.day.maxValueIn y m = Date.monthLength y m := by
    rw [TimeUnit.maxValueIn, if_pos ⟨rfl, by omega⟩, Date.daysInMonth_eq hy hm]
  have hcut := TimeUnit.clampIn_extent (TimeUnit.day.minValue_le_maxValueIn y hm)
  simp only [ofEdge] at h
  split_ifs at h
  cases h
  rw [Date.mem_daysOf, ← hmax]
  exact hcut _

omit hy in
lemma ofNthWeekday_within {last : Date} {n : NthWeekday}
    (h : ofNthWeekday (Date.ofFields y m 1) last n = value v) :
    v ∈ Date.daysOf y m := by
  have inMonth {found : Date}
    (h : (if found.month = m ∧ found.year = y then value found.dayOfMonth else noMatch)
      = value v) : v ∈ Date.daysOf y m := by
    split_ifs at h with hin
    cases h
    rw [Date.mem_daysOf, ← hin.1, ← hin.2]
    exact found.field_bounds.2.2
  have hlength := Date.monthLength_pos y m
  simp only [ofNthWeekday, Date.month_ofFields (y := y) (d := 1) hm.1 hm.2 (by omega) (by omega),
    Date.year_ofFields (y := y) (d := 1) hm.1 hm.2 (by omega) (by omega)] at h
  exact inMonth h

lemma ofDayForm_within {word : String} (h : ofDayForm y m word = value v) :
    v ∈ Date.daysOf y m ∨ ordinalDay? word = some v.toNat ∧ 0 ≤ v := by
  have hlength := Date.monthLength_pos y m
  have hworking {d : Int} (hd : d ∈ Date.workingDaysOf y m) : d ∈ Date.daysOf y m :=
    (List.mem_filter.1 hd).1
  unfold ofDayForm at h
  rw [Date.ofFields?_first hy hm, Date.daysInMonth_eq hy hm] at h
  dsimp only at h
  split at h
  · exact Or.inl (ofNthWeekday_within hm h)
  · split_ifs at h
    · cases h
      exact Or.inl (hworking (workingDayFrom_first hm).1)
    · cases h
      exact Or.inl (hworking (workingDayUpto_last hm rfl).1)
    · split at h
      · split_ifs at h
        cases h
        exact Or.inl (hworking (closestWeekday_spec hy hm (by omega)).1)
      · split at h
        · rename_i n hn
          cases h
          exact Or.inr ⟨hn, by omega⟩
        · cases h

end

/-- **What a text stands for is in the range of its unit**, in every month of the calendar. A day is
one of the days of the month, unless the text is the number of a day, plain or with an ordinal
ending; then it is that number. -/
theorem ofText_within (h : Date.hasMonth y m = true) (hv : ofText u y m text = value v) :
    (u.minValue ≤ v ∧ v ≤ u.maxValue)
      ∧ (u = .day → v ≤ Date.daysInMonth y m
        ∨ (smallChars text).all Char.isDigit = true ∧ v = digitsValue (smallChars text)
        ∨ ordinalDay? (.ofList (smallChars text)) = some v.toNat) := by
  obtain ⟨hy, hm⟩ := Date.hasMonth_iff.1 h
  by_cases hu : u = .day
  · subst hu
    have hlength := Date.monthLength_pos y m
    have inMonth (hmem : v ∈ Date.daysOf y m) : (1 ≤ v ∧ v ≤ 31) ∧ v ≤ Date.daysInMonth y m := by
      rw [Date.mem_daysOf] at hmem
      rw [Date.daysInMonth_eq hy hm]
      omega
    -- a number is taken as it is, whether the month has the day or not
    by_cases hdigits : (smallChars text).all Char.isDigit = true
    · by_cases hblank : smallChars text = []
      · rw [ofText_of_blank hblank] at hv
        cases hv
      · rw [ofText_of_digits (by decide) hblank hdigits] at hv
        refine ⟨ofNumber_extent hv, fun _ => Or.inr (Or.inl ⟨hdigits, ?_⟩)⟩
        unfold ofNumber at hv
        split at hv
        · cases hv
          rfl
        · cases hv
    · rw [ofText_eq (by decide) hdigits] at hv
      dsimp only [ofName?] at hv
      split at hv
      · have := inMonth (ofEdge_day_within hy hm hv)
        exact ⟨this.1, fun _ => Or.inl this.2⟩
      · rw [if_pos rfl] at hv
        -- of the day forms, only an ordinal can be past the end of the month
        rcases ofDayForm_within hy hm hv with hmem | ⟨hordinal, hpos⟩
        · have := inMonth hmem
          exact ⟨this.1, fun _ => Or.inl this.2⟩
        · have := ordinalDay?_bounds hordinal
          exact ⟨⟨by show 1 ≤ v; omega, by show v ≤ 31; omega⟩, fun _ => Or.inr (Or.inr hordinal)⟩
  · exact ⟨ofText_extent hu hv, fun hday => absurd hday hu⟩

/-- The working day closest to the 31st of a February is in it; the 31st as such is not. -/
theorem ofText_within_february : Date.hasMonth 2023 2 = true
    ∧ ofText .day 2023 2 "ClosestWeekdayTo 31" = value 28 ∧ (28 : Int) ≤ Date.daysInMonth 2023 2
    ∧ ofText .day 2023 2 "31st" = value 31 ∧ ¬ (31 : Int) ≤ Date.daysInMonth 2023 2
    ∧ ordinalDay? (.ofList (smallChars "31st")) = some 31 := by
  have hclosest : ofText .day 2023 2 "ClosestWeekdayTo 31" = value 28 := by decide +kernel
  have hordinal : ofText .day 2023 2 "31st" = value 31 := by decide +kernel
  have hlength : Date.daysInMonth 2023 2 = 28 := by decide
  have hlong : ¬ (31 : Int) ≤ Date.daysInMonth 2023 2 := by rw [hlength]; decide
  refine ⟨by decide, hclosest, ?_, hordinal, hlong, ?_⟩
  · exact ((ofText_within (by decide) hclosest).2 rfl).resolve_right (by decide +kernel)
  · exact (((ofText_within (by decide) hordinal).2 rfl).resolve_left hlong).resolve_left (by decide)

end Resolution

end Recurrence
