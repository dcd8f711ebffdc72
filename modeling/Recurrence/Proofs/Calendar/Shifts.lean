import Recurrence.Proofs.Calendar.FieldOrder

/-!
Calendar addition. Some units after a time comes the time whose index is that much greater and whose
finer fields are the same, a day that the month does not have being its last. The sum is taken on a
calendar without end, and cut off where the calendar ends.

Main statements: `eq_moved_iff` and `shift_eq`.
-/

namespace Recurrence

namespace LocalTime

variable {b t : LocalTime} {u : TimeUnit} {m m' : Int}

/-- The time of a month with the day and clock of another time. A day that the month does not have
is its last. -/
def inMonth (b : LocalTime) (k : Int) : LocalTime :=
  let day := min b.date.dayOfMonth (Date.monthLength (k / 12) (k % 12 + 1))
  ⟨(midnight (Date.ofFields (k / 12) (k % 12 + 1) day)).seconds + b.secondOfDay, b.nanos⟩

/-- Some units later, on a calendar without end. -/
def moved (b : LocalTime) (m : Int) (u : TimeUnit) : LocalTime :=
  match u with
  | .second => b.addSeconds m
  | .minute => b.addSeconds (m * 60)
  | .hour => b.addSeconds (m * 3600)
  | .day => b.addSeconds (m * daySeconds)
  | .week => b.addSeconds (m * 7 * daySeconds)
  | .month => b.inMonth (b.index .month + m)
  | .year => b.inMonth (b.index .month + m * 12)
  | .timeZone => b

/-! ### Months -/

lemma day_bounds_inMonth (b : LocalTime) (k : Int) :
    1 ≤ min b.date.dayOfMonth (Date.monthLength (k / 12) (k % 12 + 1)) := by
  have := b.date.field_bounds
  have := Date.monthLength_pos (k / 12) (k % 12 + 1)
  omega

lemma date_inMonth (b : LocalTime) (k : Int) : (b.inMonth k).date = Date.ofFields (k / 12)
    (k % 12 + 1) (min b.date.dayOfMonth (Date.monthLength (k / 12) (k % 12 + 1))) :=
  date_addSeconds_midnight _ b.secondOfDay_bounds

lemma secondOfDay_inMonth (b : LocalTime) (k : Int) : (b.inMonth k).secondOfDay = b.secondOfDay :=
  secondOfDay_addSeconds_midnight _ b.secondOfDay_bounds

lemma year_inMonth (b : LocalTime) (k : Int) : (b.inMonth k).date.year = k / 12 := by
  rw [date_inMonth]
  exact Date.year_ofFields (by omega) (by omega) (day_bounds_inMonth b k) (min_le_right _ _)

lemma index_inMonth (b : LocalTime) (k : Int) : (b.inMonth k).index .month = k := by
  have hy := year_inMonth b k
  have hm : (b.inMonth k).date.month = k % 12 + 1 := by
    rw [date_inMonth]
    exact Date.month_ofFields (by omega) (by omega) (day_bounds_inMonth b k) (min_le_right _ _)
  simp only [index, hy, hm]; omega

lemma dayOfMonth_inMonth (b : LocalTime) (k : Int) : (b.inMonth k).date.dayOfMonth
    = min b.date.dayOfMonth (Date.monthLength (k / 12) (k % 12 + 1)) := by
  rw [date_inMonth]
  exact Date.dayOfMonth_ofFields (by omega) (by omega) (day_bounds_inMonth b k) (min_le_right _ _)

lemma seconds_eq_of_month {s t : LocalTime} (hm : s.index .month = t.index .month)
    (hd : s.date.dayOfMonth = t.date.dayOfMonth) (hs : s.secondOfDay = t.secondOfDay) :
    s.seconds = t.seconds := by
  have hn : s.date.number = t.date.number := by
    have hmonth : s.date.monthIndex = t.date.monthIndex := hm
    rw [s.date.number_eq, t.date.number_eq, hmonth, hd]
  rw [← s.midnight_date, ← t.midnight_date, date_eq hn, hs]

lemma eq_inMonth_iff (hb : b.IsWhole) (ht : t.IsWhole) (k : Int) : t = b.inMonth k
    ↔ t.index .month = k ∧ t.secondOfDay = b.secondOfDay
      ∧ t.date.dayOfMonth = min b.date.dayOfMonth (Date.monthLength t.date.year t.date.month) := by
  have hday : t.index .month = k →
      Date.monthLength t.date.year t.date.month = Date.monthLength (k / 12) (k % 12 + 1) := by
    rintro rfl
    rw [index, show t.date.year * 12 + (t.date.month - 1) = t.date.monthIndex from rfl,
      Date.monthIndex_div, Date.monthIndex_mod]
  constructor
  · rintro rfl
    rw [hday (index_inMonth b k)]
    exact ⟨index_inMonth b k, secondOfDay_inMonth b k, dayOfMonth_inMonth b k⟩
  · rintro ⟨hk, hs, hd⟩
    rw [hday hk] at hd
    have hseconds : t.seconds = (b.inMonth k).seconds :=
      seconds_eq_of_month (by rw [hk, index_inMonth]) (by rw [hd, dayOfMonth_inMonth])
        (by rw [hs, secondOfDay_inMonth])
    exact Time.eq_iff.mpr ⟨hseconds, ht.trans hb.symm⟩

/-! ### Units in general -/

/-- The units that keep their values when some units are added: the finer ones, and the weekday in a
week. -/
def kept : TimeUnit → List TimeUnit
  | .second | .timeZone => []
  | .minute => [.second]
  | .hour => [.minute, .second]
  | .day => [.hour, .minute, .second]
  | .week => [.hour, .minute, .second, .week]
  | .month => [.day, .hour, .minute, .second]
  | .year => [.month, .day, .hour, .minute, .second]

/-- The times have the same value of a unit, or the month of `t` is too short for that of `b`. -/
def Keeps (b t : LocalTime) (v : TimeUnit) : Prop :=
  t.part v = min (b.part v) (v.maxValueIn t.date.year t.date.month)

lemma keeps_iff {v : TimeUnit} (hd : v ≠ .day) (hy : v ≠ .year) (b t : LocalTime) :
    Keeps b t v ↔ t.part v = b.part v := by
  have hmax : b.part v ≤ v.maxValueIn t.date.year t.date.month := by
    cases v with
    | second => exact b.second_bounds.2
    | minute => exact b.minute_bounds.2
    | hour => exact b.hour_bounds.2
    | day => exact absurd rfl hd
    | week =>
      show b.date.number % 7 + 1 ≤ 7
      omega
    | month => exact b.date.field_bounds.2.1
    | year => exact absurd rfl hy
    | timeZone => exact le_refl _
  rw [Keeps, min_eq_left hmax]

lemma keeps_day_iff (ht : t.InReach) : Keeps b t .day
    ↔ t.date.dayOfMonth = min b.date.dayOfMonth (Date.monthLength t.date.year t.date.month) := by
  have hf := t.date.field_bounds
  have hmax : TimeUnit.day.maxValueIn t.date.year t.date.month
      = Date.monthLength t.date.year t.date.month := by
    rw [TimeUnit.maxValueIn, if_pos ⟨rfl, by omega⟩,
      Date.daysInMonth_eq ht.year_bounds ⟨hf.1, hf.2.1⟩]
  rw [Keeps, hmax]
  rfl

lemma secondOfDay_eq_iff {s t : LocalTime} : s.secondOfDay = t.secondOfDay
    ↔ s.part .hour = t.part .hour ∧ s.part .minute = t.part .minute
      ∧ s.part .second = t.part .second := by
  have hs := s.secondOfDay_eq
  have ht := t.secondOfDay_eq
  constructor
  · intro h
    simp only [part, h, and_self]
  · rintro ⟨h₁, h₂, h₃⟩
    omega

/-- **Some units after a time** comes the time with an index that much greater that keeps the
values of the finer units. -/
theorem eq_moved_iff (hu : u ≠ .timeZone) (hb : b.IsWhole) (ht : t.IsWhole) (hr : t.InReach)
    (m : Int) : t = b.moved m u ↔ t.index u = b.index u + m ∧ ∀ v ∈ kept u, Keeps b t v := by
  -- adding a fixed unit adds seconds, and both times are whole seconds
  have hadd : ∀ n : Int, t = b.addSeconds n ↔ t.seconds = b.seconds + n := by
    intro n
    rw [Time.eq_iff, Time.seconds_addSeconds]
    exact and_iff_left (ht.trans hb.symm)
  -- what it means to keep each of the units that may have to be kept
  have hh := keeps_iff (v := .hour) (by decide) (by decide) b t
  have hm := keeps_iff (v := .minute) (by decide) (by decide) b t
  have hs := keeps_iff (v := .second) (by decide) (by decide) b t
  have hw := keeps_iff (v := .week) (by decide) (by decide) b t
  have hnil : (∀ v ∈ ([] : List TimeUnit), Keeps b t v) ↔ True := by simp
  have hmo := keeps_iff (v := .month) (by decide) (by decide) b t
  cases u with
  | timeZone => exact absurd rfl hu
  | second =>
    rw [moved, hadd]
    simp only [kept, hnil, and_true, index]
  | minute =>
    rw [moved, hadd]
    simp only [kept, List.forall_mem_cons, hnil, hs, and_true, index, part, secondOfDay, daySeconds]
    omega
  | hour =>
    rw [moved, hadd]
    simp only [kept, List.forall_mem_cons, hnil, hm, hs, and_true, index, part, secondOfDay,
      daySeconds]
    omega
  | day =>
    rw [moved, hadd]
    simp only [kept, List.forall_mem_cons, hnil, hh, hm, hs, and_true, index, part, secondOfDay,
      date, daySeconds]
    omega
  | week =>
    rw [moved, hadd]
    simp only [kept, List.forall_mem_cons, hnil, hh, hm, hs, hw, and_true, index, part,
      secondOfDay, date, daySeconds, Date.weekday]
    omega
  -- a month has the clock and, as far as it goes, the day to keep
  | month =>
    rw [moved, eq_inMonth_iff hb ht, secondOfDay_eq_iff, ← keeps_day_iff hr]
    simp only [kept, List.forall_mem_cons, hnil, hh, hm, hs, and_true]
    exact and_congr_right fun _ => and_comm
  | year =>
    -- a year is twelve months, so it keeps the month too
    have hmonth : t.index .month = b.index .month + m * 12
        ↔ t.index .year = b.index .year + m ∧ t.part .month = b.part .month := by
      have := t.date.field_bounds
      have := b.date.field_bounds
      simp only [index, part]; omega
    rw [moved, eq_inMonth_iff hb ht, secondOfDay_eq_iff, ← keeps_day_iff hr, hmonth]
    simp only [kept, List.forall_mem_cons, hnil, hh, hm, hs, hmo, and_true]
    rw [and_assoc]
    exact and_congr_right fun _ => and_congr_right fun _ => and_comm

lemma isWhole_moved (hb : b.IsWhole) (m : Int) (u : TimeUnit) : (b.moved m u).IsWhole := by
  cases u <;> exact hb

lemma index_moved (hu : u ≠ .timeZone) (b : LocalTime) (m : Int) :
    (b.moved m u).index u = b.index u + m := by
  cases u with
  | timeZone => exact absurd rfl hu
  | month => exact index_inMonth b _
  | year =>
    have := b.date.field_bounds
    show (b.inMonth (b.index .month + m * 12)).date.year = b.date.year + m
    rw [year_inMonth]
    simp only [index]; omega
  | second => rfl
  | _ =>
    simp only [moved, index, date, Time.seconds_addSeconds, daySeconds]
    omega

lemma moved_lt_moved_iff (hu : u ≠ .timeZone) (b : LocalTime) :
    b.moved m u < b.moved m' u ↔ m < m' := by
  have hlt : ∀ {m m' : Int}, m < m' → b.moved m u < b.moved m' u := by
    intro m m' h
    by_contra hle
    have := index_mono u (not_lt.mp hle)
    rw [index_moved hu, index_moved hu] at this
    omega
  refine ⟨fun h => ?_, hlt⟩
  rcases Int.lt_trichotomy m m' with h' | rfl | h'
  · exact h'
  · exact absurd h (lt_irrefl _)
  · exact absurd h (lt_asymm (hlt h'))

lemma moved_zero (hb : b.IsWhole) (u : TimeUnit) : b.moved 0 u = b := by
  have hadd : b.addSeconds 0 = b := by simp [Time.addSeconds]
  have hmonth : b.inMonth (b.index .month) = b :=
    ((eq_inMonth_iff hb hb _).mpr ⟨rfl, rfl, (min_eq_left b.date.field_bounds.2.2.2).symm⟩).symm
  cases u <;> simp only [moved, Int.zero_mul, Int.add_zero, hadd, hmonth]

lemma on_calendar_iff (t : LocalTime) : earliest ≤ t ∧ t ≤ latest
    ↔ Date.firstYear ≤ t.date.year ∧ t.date.year ≤ Date.lastYear := by
  have hfirst : earliest ≤ t ↔ earliest.seconds ≤ t.seconds := Time.IsWhole.le_iff rfl
  have hlast : t ≤ latest ↔ t.seconds ≤ latest.seconds := by
    have := t.nanos.isLt
    have hn : latest.nanos.val = 999999999 := rfl
    rw [Time.le_def, hn]; omega
  have hnext := index_lt_iff .year t (Date.lastYear + 1)
  rw [hfirst, hlast, year_le_iff, ← seconds_earliest]
  rw [← seconds_latest] at hnext
  simp only [index] at hnext
  omega

/-- **Adding units** leads to the time that many after, or to the last time of the calendar where
that one is off it. -/
theorem shift_eq (hu : u ≠ .timeZone) (b : LocalTime) (m : Int) : b.shift m u
    = if Date.firstYear ≤ (b.moved m u).date.year ∧ (b.moved m u).date.year ≤ Date.lastYear then
        b.moved m u else latest := by
  -- units of fixed length run on until the calendar ends
  have hadd : ∀ n : Int, (b.addSeconds? n).getD latest
      = if Date.firstYear ≤ (date (b.addSeconds n)).year
          ∧ (date (b.addSeconds n)).year ≤ Date.lastYear then b.addSeconds n else latest := by
    intro n
    simp only [addSeconds?, on_calendar_iff]
    split <;> rfl
  -- a sum of months has a date exactly when its year is on the calendar
  have hmonth : ∀ n : Int, (b.addMonths? n).getD latest
      = if Date.firstYear ≤ (b.inMonth (b.index .month + n)).date.year
          ∧ (b.inMonth (b.index .month + n)).date.year ≤ Date.lastYear then
          b.inMonth (b.index .month + n) else latest := by
    intro n
    have hday := day_bounds_inMonth b (b.index .month + n)
    rw [year_inMonth]
    split
    · rename_i hy
      have hm : 1 ≤ (b.index .month + n) % 12 + 1 ∧ (b.index .month + n) % 12 + 1 ≤ 12 := by omega
      simp only [addMonths?, Date.daysInMonth_eq hy hm,
        Date.ofFields?_eq hy hm ⟨hday, min_le_right _ _⟩]
      rfl
    · rename_i hy
      simp only [addMonths?, Date.ofFields?_off fun h => hy h.1]
      rfl
  cases u with
  | timeZone => exact absurd rfl hu
  | month | year => exact hmonth _
  | _ => exact hadd _

lemma shift_year_le_iff (hu : u ≠ .timeZone) (hfirst : Date.firstYear ≤ (b.moved m u).date.year) :
    (b.shift m u).date.year ≤ 9999 ↔ (b.moved m u).date.year ≤ 9999 := by
  rw [shift_eq hu]
  split
  · rfl
  · rw [year_latest]
    have hl : Date.lastYear = 262142 := rfl
    omega

lemma shift_eq_moved (hu : u ≠ .timeZone) (h : (b.shift m u).date.year ≤ 9999) :
    b.shift m u = b.moved m u := by
  rw [shift_eq hu] at h ⊢
  split
  · rfl
  · rename_i hn
    rw [if_neg hn, year_latest] at h
    exact absurd h (by decide)

end LocalTime

end Recurrence
