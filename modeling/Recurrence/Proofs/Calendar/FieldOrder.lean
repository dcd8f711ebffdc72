import Recurrence.Proofs.Calendar.Cycles

/-!
Fields in order. The fields of a time, most significant first, compare as the times do, and the
fields coarser than a unit are the same exactly inside one cycle of the unit.

Main statements: `fields_lt_fields`, `index_eq_iff` and `sameCycle_iff`.
-/

namespace Recurrence

namespace TimeUnit

variable {u v w : TimeUnit}

lemma isFinerThan_asymm (h : u.isFinerThan v = true) :
    v.isFinerThan u = false := by
  unfold isFinerThan at *
  cases hu : u.rank? <;> cases hv : v.rank? <;> simp_all
  omega

lemma isFinerThan_trans (h₁ : u.isFinerThan v = true)
    (h₂ : v.isFinerThan w = true) : u.isFinerThan w = true := by
  unfold isFinerThan at *
  cases hu : u.rank? <;> cases hv : v.rank? <;> cases hw : w.rank? <;> simp_all
  omega

end TimeUnit

namespace Fields

def get (f : Fields) (u : TimeUnit) : Int :=
  match u with
  | .year => f.year
  | .month => f.month
  | .day => f.day
  | .hour => f.hour
  | .minute => f.minute
  | .second => f.second
  | .week | .timeZone => 0

def HasField (u : TimeUnit) : Prop := u ≠ .week ∧ u ≠ .timeZone

instance (u : TimeUnit) : Decidable (HasField u) := inferInstanceAs (Decidable (_ ∧ _))

lemma get_set {u v : TimeUnit} (hv : HasField v) (f : Fields) (x : Int) :
    (f.set u x).get v = if u = v then x else f.get v := by
  obtain ⟨h₁, h₂⟩ := hv
  cases v <;> cases u <;> first | rfl | exact absurd rfl h₁ | exact absurd rfl h₂

lemma set_get (f : Fields) (u : TimeUnit) : f.set u (f.get u) = f := by
  cases u <;> rfl

lemma ext_get {f g : Fields} (h : ∀ v, HasField v → f.get v = g.get v) : f = g := by
  obtain ⟨y, m, d, hh, mi, s⟩ := f
  obtain ⟨y', m', d', hh', mi', s'⟩ := g
  have h₁ := h .year (by decide)
  have h₂ := h .month (by decide)
  have h₃ := h .day (by decide)
  have h₄ := h .hour (by decide)
  have h₅ := h .minute (by decide)
  have h₆ := h .second (by decide)
  simp only [get] at *
  subst h₁ h₂ h₃ h₄ h₅ h₆
  rfl

lemma toList_lt_iff (f g : Fields) : f.toList < g.toList ↔
    f.year < g.year ∨ f.year = g.year ∧ (f.month < g.month ∨ f.month = g.month ∧
    (f.day < g.day ∨ f.day = g.day ∧ (f.hour < g.hour ∨ f.hour = g.hour ∧
    (f.minute < g.minute ∨ f.minute = g.minute ∧ f.second < g.second)))) := by
  simp [toList, List.cons_lt_cons_iff]

/-- Fields below a bound whose finer fields are least stay below it when only finer fields
change. -/
lemma toList_lt_of_agree {f g b : Fields} {u : TimeUnit} (hu : HasField u)
    (hagree : ∀ v, HasField v → v.isFinerThan u = false → g.get v = f.get v)
    (hleast : ∀ v, HasField v → v.isFinerThan u = true → b.get v ≤ f.get v)
    (h : f.toList < b.toList) : g.toList < b.toList := by
  have hat : ∀ v, HasField v →
      if v.isFinerThan u = true then b.get v ≤ f.get v else g.get v = f.get v := by
    intro v hv
    split
    · exact hleast v hv ‹_›
    · exact hagree v hv (Bool.eq_false_iff.mpr ‹_›)
  have h₁ := hat .year (by decide)
  have h₂ := hat .month (by decide)
  have h₃ := hat .day (by decide)
  have h₄ := hat .hour (by decide)
  have h₅ := hat .minute (by decide)
  have h₆ := hat .second (by decide)
  rw [toList_lt_iff] at h ⊢
  cases u with
  | week | timeZone => exact absurd hu (by decide)
  | _ => simp [get, TimeUnit.isFinerThan, TimeUnit.rank?] at h₁ h₂ h₃ h₄ h₅ h₆; omega

end Fields

namespace LocalTime

open Fields

variable {s t : LocalTime} {u v : TimeUnit}

lemma fields_get (hv : HasField v) (t : LocalTime) : t.fields.get v = t.part v := by
  cases v with
  | week | timeZone => exact absurd hv (by decide)
  | _ => rfl

lemma year_of_fields {f : Fields} (h : t.fields = f) : t.date.year = f.year := by
  rw [← h]; rfl

lemma seconds_eq (t : LocalTime) : t.seconds = (t.date.number - epochDay) * daySeconds
    + (t.part .hour * 3600 + t.part .minute * 60 + t.part .second) := by
  have := t.midnight_date
  have := t.secondOfDay_eq
  simp only [midnight_eq, Time.seconds_ofSeconds] at *; omega

/-- **Fields compare as times do.** -/
theorem fields_lt_fields (h : s.seconds < t.seconds) : s.fields.toList < t.fields.toList := by
  have hle : s ≤ t := Or.inl h
  -- none of the coarse indexes goes down, so the first field that differs goes up
  have h₁ := index_mono .year hle
  have h₂ := index_mono .month hle
  have h₃ := index_mono .day hle
  have ns := s.date.number_eq
  have nt := t.date.number_eq
  have hs := s.seconds_eq
  have ht := t.seconds_eq
  have := s.hour_bounds
  have := s.minute_bounds
  have := s.second_bounds
  have := t.hour_bounds
  have := t.minute_bounds
  have := t.second_bounds
  have := s.date.field_bounds
  have := t.date.field_bounds
  -- in the same month the two dates count their days from the same number
  have hk : s.date.monthIndex = t.date.monthIndex →
      Date.monthStart s.date.monthIndex = Date.monthStart t.date.monthIndex := congrArg _
  rw [toList_lt_iff]
  show s.part .year < t.part .year ∨ s.part .year = t.part .year ∧ (s.part .month < t.part .month ∨
    s.part .month = t.part .month ∧ (s.part .day < t.part .day ∨ s.part .day = t.part .day ∧
    (s.part .hour < t.part .hour ∨ s.part .hour = t.part .hour ∧
    (s.part .minute < t.part .minute ∨ s.part .minute = t.part .minute ∧
      s.part .second < t.part .second))))
  simp only [index, daySeconds, Date.monthIndex] at *
  simp only [part] at *
  omega

lemma fields_congr (h : s.seconds = t.seconds) : s.fields = t.fields := by
  unfold fields date secondOfDay
  rw [h]

lemma part_congr (h : s.seconds = t.seconds) (u : TimeUnit) : s.part u = t.part u := by
  obtain ⟨n, f⟩ := s
  obtain ⟨n', f'⟩ := t
  obtain rfl : n = n' := h
  cases u <;> rfl

lemma seconds_lt_of_fields_lt (h : s.fields.toList < t.fields.toList) : s.seconds < t.seconds := by
  by_contra hn
  rcases Int.lt_or_eq_of_le (Int.not_lt.mp hn) with hn | hn
  · exact List.lt_asymm h (fields_lt_fields hn)
  · rw [fields_congr hn] at h
    exact List.lt_irrefl _ h

lemma lt_of_fields_lt (h : s.fields.toList < t.fields.toList) : s < t :=
  Or.inl (seconds_lt_of_fields_lt h)

lemma date_addSeconds_midnight (d : Date) {n : Int} (h : 0 ≤ n ∧ n < daySeconds) :
    date ((midnight d).addSeconds n) = d := by
  obtain ⟨k⟩ := d
  simp only [date, midnight_eq, Time.seconds_addSeconds, Time.seconds_ofSeconds, daySeconds] at h ⊢
  congr 1; omega

lemma secondOfDay_addSeconds_midnight (d : Date) {n : Int} (h : 0 ≤ n ∧ n < daySeconds) :
    secondOfDay ((midnight d).addSeconds n) = n := by
  simp only [secondOfDay, midnight_eq, Time.seconds_addSeconds, Time.seconds_ofSeconds,
    daySeconds] at h ⊢
  omega

lemma fields_of_ofFields? {f : Fields} (h : ofFields? f = some t) : t.fields = f ∧ t.IsWhole := by
  unfold ofFields? Date.ofFields? at h
  split at h
  · cases h
  · rename_i d hd
    simp only [Option.ite_none_right_eq_some, Option.some.injEq, Bool.and_eq_true, Date.hasMonth,
      decide_eq_true_eq] at h hd
    obtain ⟨hc, rfl⟩ := h
    obtain ⟨⟨⟨hm, h₁⟩, h₂⟩, rfl⟩ := hd
    have hn : 0 ≤ f.hour * 3600 + f.minute * 60 + f.second
        ∧ f.hour * 3600 + f.minute * 60 + f.second < daySeconds := by
      simp only [daySeconds]; omega
    refine ⟨?_, rfl⟩
    rw [fields, date_addSeconds_midnight _ hn, secondOfDay_addSeconds_midnight _ hn, Date.fields_eq,
      Date.year_ofFields hm.1.2 hm.2 h₁ h₂, Date.month_ofFields hm.1.2 hm.2 h₁ h₂,
      Date.dayOfMonth_ofFields hm.1.2 hm.2 h₁ h₂]
    simp only
    congr 1 <;> omega

lemma exists_ofFields? {f : Fields} (hy : Date.firstYear ≤ f.year ∧ f.year ≤ Date.lastYear)
    (hm : 1 ≤ f.month ∧ f.month ≤ 12) (hd : 1 ≤ f.day ∧ f.day ≤ Date.monthLength f.year f.month)
    (hhour : 0 ≤ f.hour ∧ f.hour ≤ 23) (hminute : 0 ≤ f.minute ∧ f.minute ≤ 59)
    (hsecond : 0 ≤ f.second ∧ f.second ≤ 59) : ∃ t, ofFields? f = some t := by
  exact ⟨_, by
    rw [ofFields?, Date.ofFields?_eq hy hm hd]
    exact if_pos ⟨hhour.1, hhour.2, hminute.1, hminute.2, hsecond⟩⟩

lemma exists_midnight {y m d : Int} (hy : 0 ≤ y ∧ y ≤ 9999) (hm : 1 ≤ m ∧ m ≤ 12)
    (hd : 1 ≤ d ∧ d ≤ 28) : ∃ t : LocalTime, t.IsWhole ∧ t.fields = ⟨y, m, d, 0, 0, 0⟩ := by
  have hlength := Date.monthLength_pos y m
  obtain ⟨t, ht⟩ := exists_ofFields? (f := ⟨y, m, d, 0, 0, 0⟩)
    (by simp only [Date.firstYear, Date.lastYear]; omega) hm ⟨hd.1, by simp only; omega⟩
    (by simp) (by simp) (by simp)
  exact ⟨t, (fields_of_ofFields? ht).2, (fields_of_ofFields? ht).1⟩

/-- The units with a field that are not finer than `u` have the same values. -/
def AgreeDownTo (u : TimeUnit) (s t : LocalTime) : Prop :=
  ∀ v, HasField v → v.isFinerThan u = false → s.part v = t.part v

/-- Times in the same unit are in the same cycle of it. A week may lie in two months. -/
lemma index_parent_eq {p : TimeUnit} (hp : u.parent? = some p) (hw : u ≠ .week)
    (h : s.index u = t.index u) : s.index p = t.index p := by
  cases u <;> cases hp
  · simp only [index] at h ⊢; omega
  · simp only [index] at h ⊢; omega
  · simp only [index, date, daySeconds] at h ⊢; omega
  · have hd : s.date = t.date := date_eq h
    simp only [index, hd]
  · exact absurd rfl hw
  · exact (index_month_eq h).1

lemma index_eq_iff_part {p : TimeUnit} (hp : u.parent? = some p) (hw : u ≠ .week) :
    s.index u = t.index u ↔ s.index p = t.index p ∧ s.part u = t.part u := by
  constructor
  · intro h
    have hc := index_parent_eq hp hw h
    have := part_sub_part hp hw hc
    exact ⟨hc, by omega⟩
  · rintro ⟨hc, h⟩
    have := part_sub_part hp hw hc
    omega

lemma isFinerThan_parent {p : TimeUnit} (hu : HasField u) (hv : HasField v)
    (hp : u.parent? = some p) : v.isFinerThan p = false ↔ v.isFinerThan u = false ∧ v ≠ u := by
  revert hu hv
  cases u <;> cases hp <;> cases v <;> decide

lemma isFinerThan_total (hu : HasField u) (hv : HasField v) (h : v ≠ u) :
    u.isFinerThan v = true ∨ v.isFinerThan u = true := by
  revert hu hv h
  cases u <;> cases v <;> decide

lemma exists_parent (hu : HasField u) (h : u.isFinerThan v = true) : ∃ p, u.parent? = some p := by
  cases u with
  | year => cases v <;> cases h
  | week | timeZone => exact absurd hu (by decide)
  | _ => exact ⟨_, rfl⟩

lemma hasField_parent {p : TimeUnit} (hu : HasField u) (hp : u.parent? = some p) : HasField p := by
  revert hu
  cases u <;> cases hp <;> decide

lemma agreeDownTo_iff_part {p : TimeUnit} (hu : HasField u) (hp : u.parent? = some p) :
    AgreeDownTo u s t ↔ AgreeDownTo p s t ∧ s.part u = t.part u := by
  constructor
  · intro h
    refine ⟨fun v hv hf => h v hv ((isFinerThan_parent hu hv hp).mp hf).1, h u hu ?_⟩
    cases u <;> rfl
  · rintro ⟨h, hpart⟩ v hv hf
    by_cases huv : v = u
    · rw [huv]; exact hpart
    · exact h v hv ((isFinerThan_parent hu hv hp).mpr ⟨hf, huv⟩)

/-- **Two times are in the same unit exactly when they agree on the fields down to it.** -/
theorem index_eq_iff (hu : HasField u) : s.index u = t.index u ↔ AgreeDownTo u s t := by
  have hstep : ∀ {u p : TimeUnit}, HasField u → u.parent? = some p →
      (s.index p = t.index p ↔ AgreeDownTo p s t) →
      (s.index u = t.index u ↔ AgreeDownTo u s t) := by
    intro u p hu hp ih
    rw [index_eq_iff_part hp hu.1, agreeDownTo_iff_part hu hp, ih]
  have hyear : s.index .year = t.index .year ↔ AgreeDownTo .year s t := by
    refine ⟨fun h v hv hf => ?_, fun h => h .year (by decide) rfl⟩
    cases v with
    | year => exact h
    | week | timeZone => exact absurd hv (by decide)
    | _ => cases hf
  have hmonth := hstep (u := .month) (by decide) rfl hyear
  have hday := hstep (u := .day) (by decide) rfl hmonth
  have hhour := hstep (u := .hour) (by decide) rfl hday
  have hminute := hstep (u := .minute) (by decide) rfl hhour
  have hsecond := hstep (u := .second) (by decide) rfl hminute
  cases u with
  | week | timeZone => exact absurd hu (by decide)
  | _ => assumption

/-- A cycle of a unit is where the coarser fields keep their values. -/
lemma sameCycle_iff (hu : HasField u) : SameCycle u s t ↔
    ∀ v, HasField v → u.isFinerThan v = true → s.part v = t.part v := by
  constructor
  · intro h v hv huv
    obtain ⟨p, hp⟩ := exists_parent hu huv
    have hpf := hasField_parent hu hp
    refine (index_eq_iff hpf).mp (h p hp) v hv ((isFinerThan_parent hu hv hp).mpr ⟨?_, ?_⟩)
    · exact TimeUnit.isFinerThan_asymm huv
    · rintro rfl
      simp [TimeUnit.isFinerThan_asymm huv] at huv
  · intro h p hp
    rw [index_eq_iff (hasField_parent hu hp)]
    intro v hv hvp
    have hn := (isFinerThan_parent hu hv hp).mp hvp
    exact h v hv ((isFinerThan_total hu hv hn.2).resolve_right (by simp [hn.1]))

end LocalTime

end Recurrence
