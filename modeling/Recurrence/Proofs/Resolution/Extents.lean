import Recurrence.Proofs.Resolution.Months

/-!
Where the numbers that texts stand for lie. Plain numbers are checked against the extent of the
unit, names are in a table, and edges with an offset are cut to the extent.

Main statement: `ofText_extent`.
-/

namespace Recurrence

namespace TimeUnit

variable {u : TimeUnit}

lemma minValue_le_maxValue (u : TimeUnit) : u.minValue ≤ u.maxValue := by
  cases u <;> decide

lemma clampIn_extent {year month : Int} (h : u.minValue ≤ u.maxValueIn year month) (value : Int) :
    u.minValue ≤ u.clampIn year month value
      ∧ u.clampIn year month value ≤ u.maxValueIn year month := by
  unfold clampIn
  omega

lemma clampIn_eq {year month value : Int} (h₁ : u.minValue ≤ value)
    (h₂ : value ≤ u.maxValueIn year month) : u.clampIn year month value = value := by
  unfold clampIn
  omega

lemma minValue_le_maxValueIn (u : TimeUnit) (year : Int) {month : Int}
    (hm : 1 ≤ month ∧ month ≤ 12) : u.minValue ≤ u.maxValueIn year month := by
  by_cases hu : u = .day
  · subst hu
    have hmax : TimeUnit.day.maxValueIn year month = Date.daysInMonth year month :=
      if_pos ⟨rfl, by omega⟩
    have hlength := Date.monthLength_pos year month
    have hle := Date.monthLength_le_daysInMonth year hm
    rw [hmax]
    show 1 ≤ Date.daysInMonth year month
    omega
  · rw [maxValueIn_of_ne_day hu]
    exact u.minValue_le_maxValue

end TimeUnit

namespace Resolution

variable {u : TimeUnit} {y m v : Int}

lemma ofNumber_extent {n : Nat} (h : ofNumber u n = value v) : u.minValue ≤ v ∧ v ≤ u.maxValue := by
  unfold ofNumber at h
  split at h
  · cases h
    assumption
  · cases h

lemma ofName?_extent {word : String} (h : ofName? u word = some v) :
    u.minValue ≤ v ∧ v ≤ u.maxValue := by
  have hmonths : ∀ p ∈ MonthName.names, 1 ≤ p.2 ∧ p.2 ≤ 12 := by decide
  cases u with
  | week =>
    obtain ⟨w, -, rfl⟩ := Option.map_eq_some_iff.mp h
    exact w.number_bounds
  | month =>
    obtain ⟨before, after, hsplit, -⟩ := List.lookup_eq_some_iff.mp h
    exact hmonths (word.toLower, v) (by rw [hsplit]; simp)
  | _ => cases h

lemma ofEdge_extent {e : EdgeText} (hu : u ≠ .day) (h : ofEdge u y m e = value v) :
    u.minValue ≤ v ∧ v ≤ u.maxValue := by
  have hmax := TimeUnit.maxValueIn_of_ne_day hu y m
  have hle := u.minValue_le_maxValue
  simp only [ofEdge] at h
  split_ifs at h
  cases h
  rw [← hmax] at hle ⊢
  exact TimeUnit.clampIn_extent hle _

/-- **What a text stands for lies in the extent of its unit.** -/
theorem ofText_extent {text : String} (hu : u ≠ .day) (h : ofText u y m text = value v) :
    u.minValue ≤ v ∧ v ≤ u.maxValue := by
  simp only [ofText] at h
  split_ifs at h
  · exact ofNumber_extent h
  · split at h
    · rename_i name hname
      cases h
      exact ofName?_extent hname
    · split at h
      · exact ofEdge_extent hu h
      · cases h

lemma map_clampIn_value? (hu : u ≠ .day) (y m : Int) (text : String) :
    (ofText u y m text).value?.map (u.clampIn y m) = (ofText u y m text).value? := by
  cases h : ofText u y m text with
  | value v =>
    have hv := ofText_extent hu h
    rw [← TimeUnit.maxValueIn_of_ne_day hu y m] at hv
    exact congrArg some (TimeUnit.clampIn_eq hv.1 hv.2)
  | noMatch => rfl
  | invalid => rfl

end Resolution

end Recurrence
