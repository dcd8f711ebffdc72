import Recurrence.Resolution.Basic
import Recurrence.Proofs.Calendar.Months

/-!
How much of the month a text looks at. Only for days does the month count at all, and for days it
decides the value but not whether the text has a meaning.

Main statements: `ofText_eq_of_ne_day`, `ofText_day_invalid_iff` and `ofText_invalid_iff`.
-/

namespace Recurrence

lemma TimeUnit.maxValueIn_of_ne_day {u : TimeUnit} (hu : u ≠ .day) (year month : Int) :
    u.maxValueIn year month = u.maxValue := if_neg fun h => hu h.1

namespace Resolution

variable {u : TimeUnit} {y m y' m' : Int}

lemma ofEdge_eq_of_ne_day (hu : u ≠ .day) (y m y' m' : Int) (e : EdgeText) :
    ofEdge u y m e = ofEdge u y' m' e := by
  simp only [ofEdge, TimeUnit.clampIn, TimeUnit.maxValueIn_of_ne_day hu, hu, false_and, if_false]

/-- **Other units than the day mean the same in every month.** -/
theorem ofText_eq_of_ne_day (hu : u ≠ .day) (y m y' m' : Int) (text : String) :
    ofText u y m text = ofText u y' m' text := by
  unfold ofText
  simp only [if_neg hu, ofEdge_eq_of_ne_day hu y m y' m']

lemma ofEdge_day_ne_invalid (hm : m ≠ 0) (e : EdgeText) : ofEdge .day y m e ≠ invalid := by
  simp [ofEdge, hm]

lemma ofNthWeekday_ne_invalid (first last : Date) (n : NthWeekday) :
    ofNthWeekday first last n ≠ invalid := by
  simp only [ofNthWeekday]
  split_ifs <;> exact Resolution.noConfusion

lemma ofDayForm_invalid (hy : Date.firstYear ≤ y ∧ y ≤ Date.lastYear) (hm : 1 ≤ m ∧ m ≤ 12)
    (hy' : Date.firstYear ≤ y' ∧ y' ≤ Date.lastYear) (hm' : 1 ≤ m' ∧ m' ≤ 12) {word : String}
    (h : ofDayForm y m word = invalid) : ofDayForm y' m' word = invalid := by
  unfold ofDayForm at h ⊢
  rw [Date.ofFields?_first hy hm] at h
  rw [Date.ofFields?_first hy' hm']
  simp only at h ⊢
  cases hn : SpecialDay.nthWeekday? word with
  | some n => simp only [hn] at h; exact absurd h (ofNthWeekday_ne_invalid _ _ n)
  | none =>
    simp only [hn] at h ⊢
    split_ifs at h ⊢
    split at h
    · split_ifs at h ⊢
      rfl
    · exact h

lemma ofText_day_invalid (hy : Date.firstYear ≤ y ∧ y ≤ Date.lastYear) (hm : 1 ≤ m ∧ m ≤ 12)
    (hy' : Date.firstYear ≤ y' ∧ y' ≤ Date.lastYear) (hm' : 1 ≤ m' ∧ m' ≤ 12) {text : String}
    (h : ofText .day y m text = invalid) : ofText .day y' m' text = invalid := by
  simp only [ofText] at h ⊢
  by_cases h₁ : TimeUnit.day = .timeZone ∨ Text.trimChars text.toList = []
  · rw [if_pos h₁]
  · rw [if_neg h₁] at h ⊢
    by_cases h₂ : (Text.trimChars text.toList).all Char.isDigit = true
    · rw [if_pos h₂] at h ⊢
      exact h
    · rw [if_neg h₂] at h ⊢
      simp only [ofName?] at h ⊢
      cases he : EdgeText.ofChars? ((Text.trimChars text.toList).map Char.toLower) with
      | some e =>
        rw [he] at h
        exact absurd h (ofEdge_day_ne_invalid (show m ≠ 0 by omega) e)
      | none =>
        simp only [he, if_true] at h ⊢
        exact ofDayForm_invalid hy hm hy' hm' h

/-- **Whether a text names a day does not depend on the month.** -/
theorem ofText_day_invalid_iff (hy : Date.firstYear ≤ y ∧ y ≤ Date.lastYear)
    (hm : 1 ≤ m ∧ m ≤ 12) (hy' : Date.firstYear ≤ y' ∧ y' ≤ Date.lastYear)
    (hm' : 1 ≤ m' ∧ m' ≤ 12) (text : String) :
    ofText .day y m text = invalid ↔ ofText .day y' m' text = invalid :=
  ⟨ofText_day_invalid hy hm hy' hm', ofText_day_invalid hy' hm' hy hm⟩

/-! ### Meaning in every month -/

variable {text : String}

/-- **Every month of the calendar is representative**: a text is invalid in one exactly if it is in
another. -/
theorem ofText_invalid_iff (h : Date.hasMonth y m = true) (h' : Date.hasMonth y' m' = true)
    (u : TimeUnit) (text : String) :
    ofText u y m text = invalid ↔ ofText u y' m' text = invalid := by
  by_cases hu : u = .day
  · subst hu
    obtain ⟨hy, hm⟩ := Date.hasMonth_iff.mp h
    obtain ⟨hy', hm'⟩ := Date.hasMonth_iff.mp h'
    exact ofText_day_invalid_iff hy hm hy' hm' text
  · rw [ofText_eq_of_ne_day hu y m y' m']

/-- The text has a meaning as a value of the unit in every month of the calendar. -/
def Meaningful (u : TimeUnit) (text : String) : Prop :=
  ∀ y m, Date.hasMonth y m = true → ofText u y m text ≠ invalid

lemma Meaningful.ne_timeZone (h : Meaningful u text) : u ≠ .timeZone := by
  rintro rfl
  exact h 1 1 rfl (by rw [ofText, if_pos (Or.inl rfl)])

lemma ofNumber_ne_noMatch (u : TimeUnit) (n : Nat) : ofNumber u n ≠ noMatch := by
  unfold ofNumber
  split_ifs <;> exact Resolution.noConfusion

lemma ofEdge_ne_noMatch (u : TimeUnit) (y m : Int) (e : EdgeText) : ofEdge u y m e ≠ noMatch := by
  unfold ofEdge
  split_ifs <;> exact Resolution.noConfusion

lemma eq_day_of_noMatch (h : ofText u y m text = noMatch) : u = .day := by
  by_contra hu
  simp only [ofText, if_neg hu] at h
  split_ifs at h
  · exact ofNumber_ne_noMatch _ _ h
  · split at h
    · cases h
    · split at h
      · exact ofEdge_ne_noMatch _ _ _ _ h
      · cases h

end Resolution

end Recurrence
