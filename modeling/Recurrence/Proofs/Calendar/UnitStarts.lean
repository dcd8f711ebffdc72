import Recurrence.Calendar.LocalTime
import Recurrence.Proofs.Calendar.Months
import Recurrence.Proofs.Calendar.TimeOrder

/-!
Where units start. Each index of a unit has a first second, and a time has a smaller index exactly
when it comes before that second. Truncation and landings are first seconds.

Main statements: `index_lt_iff`, `startOf_eq` and `land_eq`.
-/

namespace Recurrence

namespace LocalTime

/-- The first second of the unit with an index. -/
def firstSecond (u : TimeUnit) (k : Int) : Int :=
  match u with
  | .second | .timeZone => k
  | .minute => k * 60
  | .hour => k * 3600
  | .day => (k - epochDay) * daySeconds
  | .week => (k * 7 - epochDay) * daySeconds
  | .month => (Date.monthStart k - epochDay) * daySeconds
  | .year => (Date.daysBeforeYear k + 1 - epochDay) * daySeconds

lemma number_lt_iff (t : LocalTime) (n : Int) :
    t.date.number < n ↔ t.seconds < (n - epochDay) * daySeconds := by
  simp only [date, epochDay, daySeconds]; omega

/-- **A time is in an earlier unit exactly when it comes before the first second.** -/
theorem index_lt_iff (u : TimeUnit) (t : LocalTime) (k : Int) :
    t.index u < k ↔ t.seconds < firstSecond u k := by
  cases u with
  | second | timeZone => rfl
  | minute => simp only [index, firstSecond]; omega
  | hour => simp only [index, firstSecond]; omega
  | day => exact t.number_lt_iff k
  | week =>
    rw [firstSecond, ← number_lt_iff]
    simp only [index]; omega
  | month =>
    rw [firstSecond, ← number_lt_iff]
    exact t.date.monthIndex_lt_iff k
  | year =>
    rw [firstSecond, ← number_lt_iff]
    exact t.date.year_lt_iff k

lemma le_index_iff (u : TimeUnit) (t : LocalTime) (k : Int) :
    k ≤ t.index u ↔ firstSecond u k ≤ t.seconds := by
  have := index_lt_iff u t k
  omega

lemma index_mono (u : TimeUnit) {s t : LocalTime} (h : s ≤ t) : s.index u ≤ t.index u := by
  rw [le_index_iff]
  calc firstSecond u (s.index u) ≤ s.seconds := (le_index_iff u s _).mp (le_refl _)
    _ ≤ t.seconds := Time.seconds_le h

lemma firstSecond_lt_succ (u : TimeUnit) (k : Int) : firstSecond u k < firstSecond u (k + 1) := by
  cases u <;> simp only [firstSecond, daySeconds] <;> try omega
  · have := Date.monthStart_succ k
    have := Date.monthLength_pos (k / 12) (k % 12 + 1)
    omega
  · have := Date.daysBeforeYear_succ k
    split at this <;> omega

lemma index_firstSecond (u : TimeUnit) (k : Int) :
    index u (Time.ofSeconds (firstSecond u k)) = k := by
  have h₁ := (le_index_iff u (Time.ofSeconds (firstSecond u k)) k).mpr (le_refl _)
  have h₂ := (index_lt_iff u (Time.ofSeconds (firstSecond u k)) (k + 1)).mpr
    (firstSecond_lt_succ u k)
  omega

lemma firstSecond_lt_iff (u : TimeUnit) {k l : Int} :
    firstSecond u k < firstSecond u l ↔ k < l := by
  have h := index_lt_iff u (Time.ofSeconds (firstSecond u k)) l
  rw [index_firstSecond] at h
  exact h.symm

lemma midnight_eq (d : Date) : midnight d = Time.ofSeconds ((d.number - epochDay) * daySeconds) :=
  rfl

lemma number_ofFields_year (y : Int) :
    (Date.ofFields y 1 1).number = Date.daysBeforeYear y + 1 := by
  simp [Date.ofFields, Date.daysBeforeMonth]

lemma number_ofFields_month (d : Date) :
    (Date.ofFields d.year d.month 1).number = Date.monthStart d.monthIndex := by
  rw [Date.monthStart, d.monthIndex_div, d.monthIndex_mod]

/-- **Truncation leads to the first second of the unit.** -/
theorem startOf_eq (u : TimeUnit) (t : LocalTime) :
    t.startOf u = Time.ofSeconds (firstSecond u (t.index u)) := by
  cases u with
  | second | timeZone | day => rfl
  | minute =>
    simp only [startOf, firstSecond, index]
    congr 1; omega
  | hour =>
    simp only [startOf, firstSecond, index]
    congr 1; omega
  | week =>
    simp only [startOf, midnight_eq, firstSecond, index]
    congr 3; omega
  | month => rw [startOf, midnight_eq, number_ofFields_month]; rfl
  | year => rw [startOf, midnight_eq, number_ofFields_year]; rfl

/-! ### Landings -/

def OnCalendar (s : Int) : Prop := earliest.seconds ≤ s ∧ s ≤ latest.seconds

instance (s : Int) : Decidable (OnCalendar s) := inferInstanceAs (Decidable (_ ∧ _))

lemma seconds_earliest : earliest.seconds = firstSecond .year Date.firstYear := by
  rw [earliest, midnight_eq, number_ofFields_year]; rfl

lemma seconds_latest : latest.seconds + 1 = firstSecond .year (Date.lastYear + 1) := by
  simp only [latest, midnight_eq, number_ofFields_year, Time.seconds_ofSeconds, firstSecond]
  omega

lemma addSeconds?_ofSeconds (a s : Int) :
    addSeconds? (Time.ofSeconds a) s
      = if OnCalendar (a + s) then some (Time.ofSeconds (a + s)) else none := by
  have h₁ : earliest ≤ (Time.ofSeconds a).addSeconds s ↔ earliest.seconds ≤ a + s :=
    Time.IsWhole.le_iff (Time.isWhole_ofSeconds _)
  have h₂ : (Time.ofSeconds a).addSeconds s ≤ latest ↔ a + s ≤ latest.seconds :=
    Time.IsWhole.le_iff (Time.isWhole_ofSeconds _)
  simp only [addSeconds?, h₁, h₂, OnCalendar]
  rfl

lemma firstSecond_year (y : Int) : firstSecond .year y = firstSecond .month (y * 12) := by
  simp only [firstSecond, Date.monthStart]
  rw [show y * 12 / 12 = y by omega, show y * 12 % 12 + 1 = 1 by omega, number_ofFields_year]

lemma onCalendar_month (k : Int) :
    OnCalendar (firstSecond .month k) ↔ Date.firstYear ≤ k / 12 ∧ k / 12 ≤ Date.lastYear := by
  have h₁ := firstSecond_lt_iff .month (k := k) (l := Date.firstYear * 12)
  have h₂ := firstSecond_lt_iff .month (k := k) (l := (Date.lastYear + 1) * 12)
  have hl := seconds_latest
  rw [← firstSecond_year] at h₁ h₂
  rw [OnCalendar, seconds_earliest]
  omega

lemma firstSecond_month (k : Int) : Time.ofSeconds (firstSecond .month k)
    = midnight (Date.ofFields (k / 12) (k % 12 + 1) 1) := rfl

lemma addMonths?_month (k n : Int) :
    addMonths? (Time.ofSeconds (firstSecond .month k)) n
      = if OnCalendar (firstSecond .month (k + n)) then
          some (Time.ofSeconds (firstSecond .month (k + n))) else none := by
  have hday : (Date.ofFields (k / 12) (k % 12 + 1) 1).dayOfMonth = 1 :=
    Date.dayOfMonth_ofFields (by omega) (by omega) (by omega)
      (by have := Date.monthLength_pos (k / 12) (k % 12 + 1); omega)
  have hm : 1 ≤ (k + n) % 12 + 1 ∧ (k + n) % 12 + 1 ≤ 12 := by omega
  simp only [addMonths?, index_firstSecond]
  rw [firstSecond_month, date_midnight, hday, secondOfDay_midnight]
  by_cases hc : OnCalendar (firstSecond .month (k + n))
  · have hy := (onCalendar_month (k + n)).mp hc
    have hl := Date.monthLength_pos ((k + n) / 12) ((k + n) % 12 + 1)
    rw [if_pos hc, Date.daysInMonth_eq hy hm, min_eq_left (by omega), Date.ofFields?_first hy hm]
    simp only [Option.map_some, Int.add_zero]
    rfl
  · have hoff := fun h => hc ((onCalendar_month (k + n)).mpr h)
    rw [if_neg hc, Date.ofFields?_off fun h => hoff h.1]
    rfl

/-- **A landing is the first second of the unit that many after this one,** or the last time of the
calendar where that second is past it. -/
theorem land_eq {u : TimeUnit} (hu : u ≠ .timeZone) (t : LocalTime) (n : Int) :
    t.land n u
      = if OnCalendar (firstSecond u (t.index u + n)) then
          Time.ofSeconds (firstSecond u (t.index u + n)) else latest := by
  -- fixed units and months stop at the end of the calendar in the same way
  have hs : ∀ a s : Int, (addSeconds? (Time.ofSeconds a) s).getD latest
      = if OnCalendar (a + s) then Time.ofSeconds (a + s) else latest := by
    intro a s
    rw [addSeconds?_ofSeconds]
    split <;> rfl
  have hm : ∀ k : Int, (addMonths? (Time.ofSeconds (firstSecond .month k)) n).getD latest
      = if OnCalendar (firstSecond .month (k + n)) then
          Time.ofSeconds (firstSecond .month (k + n)) else latest := by
    intro k
    rw [addMonths?_month]
    split <;> rfl
  -- it remains that one unit more is one first second further
  cases u with
  | timeZone => exact absurd rfl hu
  | second => rw [land, startOf_eq, shift, hs]; rfl
  | minute =>
    have ha : firstSecond .minute (t.index .minute) + n * 60
        = firstSecond .minute (t.index .minute + n) := by
      simp only [firstSecond]; omega
    rw [land, startOf_eq, shift, hs, ha]
  | hour =>
    have ha : firstSecond .hour (t.index .hour) + n * 3600
        = firstSecond .hour (t.index .hour + n) := by
      simp only [firstSecond]; omega
    rw [land, startOf_eq, shift, hs, ha]
  | day =>
    have ha : firstSecond .day (t.index .day) + n * daySeconds
        = firstSecond .day (t.index .day + n) := by
      simp only [firstSecond, daySeconds]; omega
    rw [land, startOf_eq, shift, hs, ha]
  | week =>
    have ha : firstSecond .week (t.index .week) + n * 7 * daySeconds
        = firstSecond .week (t.index .week + n) := by
      simp only [firstSecond, daySeconds]; omega
    rw [land, startOf_eq, shift, hs, ha]
  | month => rw [land, startOf_eq, shift, hm]
  | year =>
    rw [land, startOf_eq, shift, firstSecond_year, addMonths?_month, firstSecond_year,
      show t.index .year * 12 + n * 12 = (t.index .year + n) * 12 by omega]
    split <;> rfl

lemma land_timeZone (t : LocalTime) (n : Int) : t.land n .timeZone = Time.ofSeconds t.seconds := rfl

lemma year_latest : latest.date.year = Date.lastYear := rfl

/-- A time that a search may look at: on the calendar and not after year 9999. -/
def InReach (t : LocalTime) : Prop := earliest ≤ t ∧ t.date.year ≤ 9999

lemma InReach.of_le {s t : LocalTime} (ht : t.InReach) (h : t ≤ s) (hs : s.date.year ≤ 9999) :
    s.InReach := ⟨le_trans ht.1 h, hs⟩

lemma year_le_iff (t : LocalTime) (y : Int) : y ≤ t.date.year ↔ firstSecond .year y ≤ t.seconds :=
  le_index_iff .year t y

lemma year_mono {s t : LocalTime} (h : s.seconds ≤ t.seconds) : s.date.year ≤ t.date.year :=
  (t.year_le_iff _).mpr (le_trans ((s.year_le_iff _).mp le_rfl) h)

lemma OnCalendar.year_bounds {t : LocalTime} (ht : OnCalendar t.seconds) :
    Date.firstYear ≤ t.date.year ∧ t.date.year ≤ Date.lastYear := by
  refine ⟨?_, ?_⟩
  · rw [year_le_iff, ← seconds_earliest]
    exact ht.1
  · have hlt := (index_lt_iff .year t (Date.lastYear + 1)).mpr (by
      rw [← seconds_latest]
      exact Int.lt_add_one_of_le ht.2)
    exact Int.le_of_lt_add_one hlt

lemma seconds_lt_latest {t : LocalTime} (ht : t.date.year ≤ 9999) : t.seconds < latest.seconds := by
  have h₁ := (index_lt_iff .year t 10000).mp (show t.date.year < 10000 by omega)
  have h₂ := (firstSecond_lt_iff .year (k := 10000) (l := Date.lastYear + 1)).mpr (by decide)
  have h₃ := seconds_latest
  omega

lemma InReach.onCalendar {t : LocalTime} (ht : t.InReach) : OnCalendar t.seconds :=
  ⟨Time.seconds_le ht.1, (seconds_lt_latest ht.2).le⟩

lemma InReach.year_bounds {t : LocalTime} (ht : t.InReach) :
    Date.firstYear ≤ t.date.year ∧ t.date.year ≤ Date.lastYear := ht.onCalendar.year_bounds

lemma earliest_le {t : LocalTime} (ht : Date.firstYear ≤ t.date.year) : earliest ≤ t := by
  have hw : Time.IsWhole earliest := rfl
  rw [hw.le_iff, seconds_earliest, ← year_le_iff]
  exact ht

lemma onCalendar_of_year {t : LocalTime}
    (ht : Date.firstYear ≤ t.date.year ∧ t.date.year ≤ Date.lastYear) : OnCalendar t.seconds := by
  refine ⟨Time.seconds_le (earliest_le ht.1), Int.le_of_lt_add_one ?_⟩
  rw [seconds_latest, ← index_lt_iff]
  exact Int.lt_add_one_of_le ht.2

lemma lt_latest {t : LocalTime} (ht : t.date.year ≤ 9999) : t < latest :=
  Or.inl (seconds_lt_latest ht)

lemma lt_land {u : TimeUnit} {t : LocalTime} {n : Int} (hu : u ≠ .timeZone) (hn : 1 ≤ n)
    (ht : t.date.year ≤ 9999) : t < t.land n u := by
  rw [land_eq hu]
  split
  · rw [Time.IsWhole.lt_iff (Time.isWhole_ofSeconds _), Time.seconds_ofSeconds, ← index_lt_iff]
    omega
  · exact lt_latest ht

lemma index_lt_of_lt_land {u : TimeUnit} {s t : LocalTime} {n : Int} (hu : u ≠ .timeZone)
    (hn : 1 ≤ n) (ht : earliest ≤ t) (h : s < t.land n u) : s.index u < t.index u + n := by
  rw [index_lt_iff]
  rw [land_eq hu] at h
  split at h
  · rwa [Time.IsWhole.lt_iff (Time.isWhole_ofSeconds _)] at h
  · rename_i hc
    have h₁ := (index_lt_iff u t (t.index u + n)).mp (by omega)
    have h₂ := Time.seconds_le ht
    have h₃ := Time.seconds_le (le_of_lt h)
    rw [OnCalendar] at hc
    omega

/-- A landing is a whole second, or it is past the years that a search looks at. -/
lemma isWhole_land (t : LocalTime) (n : Int) (u : TimeUnit) :
    (t.land n u).IsWhole ∨ 9999 < (t.land n u).date.year := by
  by_cases hu : u = .timeZone
  · subst hu; exact Or.inl rfl
  · rw [land_eq hu]
    split
    · exact Or.inl rfl
    · right; rw [year_latest]; decide

end LocalTime

end Recurrence
