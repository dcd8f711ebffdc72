import Recurrence.Proofs.Calendar.UnitStarts

/-!
Units in the cycle of the next coarser unit. Inside one cycle the value of a unit grows with its
index, and the next cycle begins after the greatest value.
-/

namespace Recurrence

namespace LocalTime

variable {s t : LocalTime} {u p : TimeUnit}

/-- The times are in the same cycle of the unit. There is only one cycle of years. -/
def SameCycle (u : TimeUnit) (s t : LocalTime) : Prop :=
  ∀ p, u.parent? = some p → s.index p = t.index p

lemma sameCycle_of_no_parent (hp : u.parent? = none) : SameCycle u s t := by
  intro p h
  rw [hp] at h; cases h

lemma sameCycle_of_parent (hp : u.parent? = some p) (h : s.index p = t.index p) :
    SameCycle u s t := by
  intro q hq
  rw [hp, Option.some.injEq] at hq
  exact hq ▸ h

lemma index_month_eq (h : s.index .month = t.index .month) :
    s.date.year = t.date.year ∧ s.date.month = t.date.month := by
  have hs := s.date.field_bounds
  have ht := t.date.field_bounds
  simp only [index] at h
  omega

lemma date_eq (h : s.date.number = t.date.number) : s.date = t.date := congrArg Date.mk h

/-- **In one cycle values differ as indexes do.** -/
theorem part_sub_part (hp : u.parent? = some p) (hw : u ≠ .week) (h : s.index p = t.index p) :
    s.part u - t.part u = s.index u - t.index u := by
  cases u <;> cases hp
  · simp only [index, part, secondOfDay, daySeconds] at *; omega
  · simp only [index, part, secondOfDay, daySeconds] at *; omega
  · simp only [index, part, secondOfDay, date, daySeconds] at *; omega
  · have hs := s.date.number_eq
    have ht := t.date.number_eq
    have hm : s.date.monthIndex = t.date.monthIndex := h
    rw [hm] at hs
    simp only [index, part]; omega
  · exact absurd rfl hw
  · simp only [index, part] at *; omega

lemma eq_year_of_no_parent (hz : u ≠ .timeZone) (hp : u.parent? = none) : u = .year := by
  cases u <;> first | rfl | exact absurd rfl hz | cases hp

lemma part_sub_part_of_sameCycle (hw : u ≠ .week) (hz : u ≠ .timeZone) (h : SameCycle u s t) :
    s.part u - t.part u = s.index u - t.index u := by
  cases hp : u.parent? with
  | some p => exact part_sub_part hp hw (h p hp)
  | none => rw [eq_year_of_no_parent hz hp]; rfl

/-- **A later cycle begins after the greatest value of the unit in this one.** -/
theorem index_lt_of_later_cycle (hp : u.parent? = some p) (hw : u ≠ .week) (ht : t.InReach)
    (h : t.index p < s.index p) :
    t.index u + (u.maxValueIn t.date.year t.date.month - t.part u) < s.index u := by
  cases u <;> cases hp
  · simp only [index, part, secondOfDay, daySeconds, TimeUnit.maxValueIn, TimeUnit.maxValue] at *
    simp; omega
  · simp only [index, part, secondOfDay, daySeconds, TimeUnit.maxValueIn, TimeUnit.maxValue] at *
    simp; omega
  · simp only [index, part, secondOfDay, date, daySeconds, TimeUnit.maxValueIn,
      TimeUnit.maxValue] at *
    simp; omega
  · have hs := s.date.monthIndex_bounds
    have hn := t.date.number_eq
    have hf := t.date.field_bounds
    have hm := Date.monthStart_mono (show t.date.monthIndex + 1 ≤ s.date.monthIndex from h)
    rw [Date.monthStart_succ, Date.monthIndex_div, Date.monthIndex_mod] at hm
    have hl := Date.daysInMonth_eq ht.year_bounds ⟨hf.1, hf.2.1⟩
    have hx : TimeUnit.day.maxValueIn t.date.year t.date.month
        = Date.daysInMonth t.date.year t.date.month := if_pos ⟨rfl, by omega⟩
    rw [hx, hl]
    simp only [index, part]; omega
  · exact absurd rfl hw
  · have hs := s.date.field_bounds
    have ht := t.date.field_bounds
    simp only [index, part, TimeUnit.maxValueIn, TimeUnit.maxValue] at *
    simp; omega

lemma part_le_maxValue (hd : u ≠ .day) (hy : u ≠ .year) (t : LocalTime) :
    t.part u ≤ u.maxValue := by
  cases u with
  | second => exact t.second_bounds.2
  | minute => exact t.minute_bounds.2
  | hour => exact t.hour_bounds.2
  | day => exact absurd rfl hd
  | week =>
    show t.date.number % 7 + 1 ≤ 7
    omega
  | month => exact t.date.field_bounds.2.1
  | year => exact absurd rfl hy
  | timeZone => exact le_refl _

lemma part_le_maxValueIn (u : TimeUnit) (ht : t.InReach) :
    t.part u ≤ u.maxValueIn t.date.year t.date.month := by
  have hf := t.date.field_bounds
  by_cases hd : u = .day
  · subst hd
    have hx : TimeUnit.day.maxValueIn t.date.year t.date.month
        = Date.daysInMonth t.date.year t.date.month := if_pos ⟨rfl, by omega⟩
    rw [hx, Date.daysInMonth_eq ht.year_bounds ⟨hf.1, hf.2.1⟩]
    exact hf.2.2.2
  · rw [TimeUnit.maxValueIn, if_neg fun h => hd h.1]
    by_cases hy : u = .year
    · subst hy; exact ht.2
    · exact part_le_maxValue hd hy t

lemma minValue_le_part (hy : u ≠ .year) (t : LocalTime) : u.minValue ≤ t.part u := by
  have hf := t.date.field_bounds
  cases u with
  | second => exact t.second_bounds.1
  | minute => exact t.minute_bounds.1
  | hour => exact t.hour_bounds.1
  | day => exact hf.2.2.1
  | week =>
    show 1 ≤ t.date.number % 7 + 1
    omega
  | month => exact hf.1
  | year => exact absurd rfl hy
  | timeZone => exact le_refl _

end LocalTime

end Recurrence
