import Mathlib.Tactic.Lemma
import Mathlib.Tactic.SplitIfs
import Mathlib.Tactic.ByContra
import Recurrence.Calendar.Date

/-!
Months in a row. Numbering the months over all years makes the month of a date a matter of which
first day it does not come before, and the length of a month the distance between two first days.

Main statements: `monthStart_succ`, `monthIndex_lt_iff` and `daysInMonth_eq`.
-/

namespace Recurrence

namespace Date

/-- The number of the month that holds a date, over all years. -/
def monthIndex (d : Date) : Int := d.year * 12 + (d.month - 1)

def monthStart (k : Int) : Int := (ofFields (k / 12) (k % 12 + 1) 1).number

lemma monthIndex_div (d : Date) : d.monthIndex / 12 = d.year := by
  have := d.field_bounds
  unfold monthIndex; omega

lemma monthIndex_mod (d : Date) : d.monthIndex % 12 + 1 = d.month := by
  have := d.field_bounds
  unfold monthIndex; omega

lemma monthLength_pos (y m : Int) : 28 ≤ monthLength y m ∧ monthLength y m ≤ 31 := by
  unfold monthLength; split_ifs <;> omega

lemma monthStart_succ (k : Int) :
    monthStart (k + 1) = monthStart k + monthLength (k / 12) (k % 12 + 1) := by
  unfold monthStart ofFields
  by_cases h : k % 12 = 11
  · have hy : (k + 1) / 12 = k / 12 + 1 := by omega
    have hm : (k + 1) % 12 = 0 := by omega
    rw [hy, hm, h, daysBeforeYear_succ]
    cases hl : isLeap (k / 12) <;> simp [daysBeforeMonth, monthLength, hl] <;> omega
  · have hy : (k + 1) / 12 = k / 12 := by omega
    have hm : (k + 1) % 12 + 1 = k % 12 + 1 + 1 := by omega
    rw [hy, hm, daysBeforeMonth_succ (by omega) (by omega)]
    simp only; omega

lemma monthStart_mono {k l : Int} (h : k ≤ l) : monthStart k ≤ monthStart l := by
  obtain ⟨n, rfl⟩ := Int.le.dest h
  induction n with
  | zero => simp
  | succ n ih =>
    have hs := monthStart_succ (k + n)
    have hp := monthLength_pos ((k + n) / 12) ((k + n) % 12 + 1)
    have := ih (by omega)
    rw [show k + ((n + 1 : Nat) : Int) = k + n + 1 by omega]
    omega

lemma number_eq (d : Date) : d.number = monthStart d.monthIndex + (d.dayOfMonth - 1) := by
  have h := congrArg Date.number d.ofFields_fields
  simp only [monthStart, monthIndex_div, monthIndex_mod]
  simp only [ofFields] at h ⊢
  omega

lemma monthIndex_bounds (d : Date) :
    monthStart d.monthIndex ≤ d.number ∧ d.number < monthStart (d.monthIndex + 1) := by
  have hn := d.number_eq
  have hf := d.field_bounds
  rw [monthStart_succ, monthIndex_div, monthIndex_mod]
  omega

lemma monthIndex_lt_iff (d : Date) (k : Int) : d.monthIndex < k ↔ d.number < monthStart k := by
  have hb := d.monthIndex_bounds
  constructor
  · intro h
    have := monthStart_mono (show d.monthIndex + 1 ≤ k by omega); omega
  · intro h
    by_contra hk
    have := monthStart_mono (show k ≤ d.monthIndex by omega); omega

lemma year_lt_iff (d : Date) (y : Int) : d.year < y ↔ d.number < daysBeforeYear y + 1 := by
  have hb := d.year_bounds
  constructor
  · intro h
    have := daysBeforeYear_mono (show d.year + 1 ≤ y by omega); omega
  · intro h
    by_contra hy
    have := daysBeforeYear_mono (show y ≤ d.year by omega); omega

lemma monthStart_eq {y m : Int} (h₁ : 1 ≤ m) (h₂ : m ≤ 12) :
    monthStart (12 * y + (m - 1)) = (ofFields y m 1).number := by
  rw [monthStart, show (12 * y + (m - 1)) / 12 = y by omega,
    show (12 * y + (m - 1)) % 12 + 1 = m by omega]

lemma monthStart_next {y m : Int} (hm : 1 ≤ m ∧ m ≤ 12) :
    monthStart (12 * y + (m - 1) + 1) = (ofFields y m 1).number + monthLength y m := by
  rw [monthStart_succ, monthStart_eq hm.1 hm.2, show (12 * y + (m - 1)) / 12 = y by omega,
    show (12 * y + (m - 1)) % 12 + 1 = m by omega]

lemma hasMonth_iff {y m : Int} : hasMonth y m = true ↔ (firstYear ≤ y ∧ y ≤ lastYear) ∧ 1 ≤ m
    ∧ m ≤ 12 := by
  simp [hasMonth, and_assoc]

lemma ofFields?_eq {y m d : Int} (hy : firstYear ≤ y ∧ y ≤ lastYear) (hm : 1 ≤ m ∧ m ≤ 12)
    (hd : 1 ≤ d ∧ d ≤ monthLength y m) : ofFields? y m d = some (ofFields y m d) :=
  if_pos (by simp [hasMonth_iff.2 ⟨hy, hm⟩, hd])

lemma ofFields?_first {y m : Int} (hy : firstYear ≤ y ∧ y ≤ lastYear) (hm : 1 ≤ m ∧ m ≤ 12) :
    ofFields? y m 1 = some (ofFields y m 1) := by
  have := monthLength_pos y m
  exact ofFields?_eq hy hm (by omega)

lemma ofFields?_off {y m : Int} (h : ¬ ((firstYear ≤ y ∧ y ≤ lastYear) ∧ 1 ≤ m ∧ m ≤ 12))
    (d : Int) : ofFields? y m d = none :=
  if_neg (by simp [mt hasMonth_iff.1 h])

lemma daysInMonth_eq {y m : Int} (hy : firstYear ≤ y ∧ y ≤ lastYear) (hm : 1 ≤ m ∧ m ≤ 12) :
    daysInMonth y m = monthLength y m := by
  have hs := monthStart_next (y := y) hm
  have hf := ofFields?_first hy hm
  rcases (show m < 12 ∨ m = 12 ∧ y < lastYear ∨ m = 12 ∧ y = lastYear by omega) with
    h | ⟨rfl, h⟩ | ⟨rfl, rfl⟩
  · have hg := ofFields?_first (m := m + 1) hy (by omega)
    rw [show 12 * y + (m - 1) + 1 = 12 * y + (m + 1 - 1) by omega,
      monthStart_eq (by omega) (by omega)] at hs
    simp only [daysInMonth, nextMonth, if_neg (show ¬ 12 ≤ m by omega), hf, hg]
    omega
  · have hg := ofFields?_first (y := y + 1) (m := 1) (by omega) (by omega)
    rw [show 12 * y + (12 - 1) + 1 = 12 * (y + 1) + (1 - 1) by omega,
      monthStart_eq (by omega) (by omega)] at hs
    simp only [daysInMonth, nextMonth, if_pos (show (12 : Int) ≤ 12 by omega), hf, hg]
    omega
  · rfl

lemma monthLength_le_daysInMonth (y : Int) {m : Int} (hm : 1 ≤ m ∧ m ≤ 12) :
    monthLength y m ≤ daysInMonth y m := by
  by_cases hy : firstYear ≤ y ∧ y ≤ lastYear
  · exact Int.le_of_eq (daysInMonth_eq hy hm).symm
  · simp only [daysInMonth, ofFields?_off (fun h => hy h.1)]
    exact (monthLength_pos y m).2

lemma daysInMonth_bounds (y m : Int) : 28 ≤ daysInMonth y m ∧ daysInMonth y m ≤ 31 := by
  by_cases h : (firstYear ≤ y ∧ y ≤ lastYear) ∧ 1 ≤ m ∧ m ≤ 12
  · rw [daysInMonth_eq h.1 h.2]
    exact monthLength_pos y m
  · simp [daysInMonth, ofFields?_off h]

end Date

end Recurrence
