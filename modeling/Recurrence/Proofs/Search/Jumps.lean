import Recurrence.Search.Advance
import Recurrence.Proofs.Calendar.Cycles
import Recurrence.Proofs.Resolution.Months

/-!
Safe jumps. A jump is safe for a constraint when no whole second between the time that it starts
from and the landing meets the constraint.

Main statements: `safe_toValue`, for one unit that is to have a value, and `safe_toEarliest`, for
alternatives.
-/

namespace Recurrence

open LocalTime

namespace Advance

variable {ok : LocalTime → Prop} {t : LocalTime} {u : TimeUnit}

/-- A whole second that the jump passes over: it comes before the landing, or is not after the last
year when there is no landing. -/
def PassesOver (a : Advance) (t s : LocalTime) : Prop :=
  s.IsWhole ∧ t < s ∧ match a.landing t with
    | some l => s < l
    | none => s.date.year ≤ 9999

namespace PassesOver

variable {s : LocalTime} {n : Int}

lemma index_lt (h : (units n u).PassesOver t s) (ht : earliest ≤ t) :
    s.index u < t.index u + max n 1 := by
  have hl : s < t.land (max n 1) u := h.2.2
  by_cases hu : u = .timeZone
  · -- the landing is the start of this second, so nothing lies before it
    subst hu
    rw [land_timeZone, Time.IsWhole.lt_iff (Time.isWhole_ofSeconds _), Time.seconds_ofSeconds] at hl
    have := Time.seconds_le (le_of_lt h.2.1)
    omega
  · exact index_lt_of_lt_land hu (le_max_right _ _) ht hl

/-- A jump to the next cycle passes over the rest of this one. -/
lemma sameCycle (h : (wrap u).PassesOver t s) (ht : earliest ≤ t) : SameCycle u s t := by
  cases hp : u.parent? with
  | none => exact sameCycle_of_no_parent hp
  | some p =>
    rw [wrap, hp] at h
    apply sameCycle_of_parent hp
    have := index_mono p (le_of_lt h.2.1)
    have hi := h.index_lt ht
    rw [max_self] at hi; omega

/-- A jump to a time passes over what comes before it, and from inside a second at least over the
next whole one. -/
lemma lt_or {l : LocalTime} (h : (time l).PassesOver t s) :
    s < l ∨ s.seconds = t.seconds + 1 ∧ ¬ t.IsWhole := by
  obtain ⟨hs, hts, hl⟩ := h
  refine (lt_max_iff.mp hl).imp_right fun hlt => ?_
  rw [hs.lt_iff] at hts
  rw [Time.lt_def, Time.seconds_addSeconds] at hlt
  have hn : s.nanos.val = 0 := hs
  have ha : (t.addSeconds 1).nanos = t.nanos := rfl
  rw [ha] at hlt
  refine ⟨by omega, fun htw => ?_⟩
  have htn : t.nanos.val = 0 := htw
  omega

end PassesOver

/-- The jump passes over no whole second, up to the last year, at which `ok` holds. -/
def Safe (ok : LocalTime → Prop) (a : Advance) (t : LocalTime) : Prop :=
  ∀ s : LocalTime, s.IsWhole → t < s → s.date.year ≤ 9999 → (∀ l ∈ a.landing t, s < l) → ¬ ok s

lemma safe_iff {a : Advance} :
    Safe ok a t ↔ ∀ s : LocalTime, s.date.year ≤ 9999 → a.PassesOver t s → ¬ ok s := by
  unfold Safe PassesOver
  cases a.landing t with
  | none => exact ⟨fun h s hy hp => h s hp.1 hp.2.1 hy (by simp),
      fun h s hs hts hy _ => h s hy ⟨hs, hts, hy⟩⟩
  | some l => exact ⟨fun h s hy hp => h s hp.1 hp.2.1 hy (by simpa using hp.2.2),
      fun h s hs hts hy hl => h s hy ⟨hs, hts, hl l rfl⟩⟩

lemma Safe.imp {ok' : LocalTime → Prop} {a : Advance} (h : Safe ok a t)
    (himp : ∀ s, ok' s → ok s) : Safe ok' a t :=
  fun s hs hts hy hl hok => h s hs hts hy hl (himp s hok)

lemma safe_units (ht : t.InReach) {n : Int}
    (h : ∀ s : LocalTime, t < s → s.InReach → s.index u < t.index u + max n 1 → ¬ ok s) :
    Safe ok (units n u) t :=
  safe_iff.mpr fun s hy hp => h s hp.2.1 (ht.of_le (le_of_lt hp.2.1) hy) (hp.index_lt ht.1)

lemma safe_never (ht : t.InReach) (h : ∀ s : LocalTime, t < s → s.InReach → ¬ ok s) :
    Safe ok never t :=
  fun s _ hts hy _ => h s hts (ht.of_le (le_of_lt hts) hy)

lemma safe_wrap (ht : t.InReach)
    (h : ∀ s : LocalTime, t < s → s.InReach → SameCycle u s t → ¬ ok s) :
    Safe ok (wrap u) t :=
  safe_iff.mpr fun s hy hp => h s hp.2.1 (ht.of_le (le_of_lt hp.2.1) hy) (hp.sameCycle ht.1)

lemma safe_time (htw : t.IsWhole) {l : LocalTime}
    (h : ∀ s : LocalTime, s.IsWhole → t < s → s.date.year ≤ 9999 → s < l → ¬ ok s) :
    Safe ok (time l) t :=
  safe_iff.mpr fun s hy hp =>
    h s hp.1 hp.2.1 hy (hp.lt_or.resolve_right fun hn => hn.2 htw)

/-! ### A unit that is to have a value -/

/-- What is asked of a unit as time goes on: it stays the same inside a cycle of the unit, a weekday
stays the same always, and it is meaningless always or never. -/
structure Steady (u : TimeUnit) (res : LocalTime → Resolution) : Prop where
  cycle {s t : LocalTime} : s.InReach → t.InReach →
    SameCycle u s t → res s = res t
  week {s t : LocalTime} : u = .week → res s = res t
  invalid {s t : LocalTime} : s.InReach → t.InReach → res s = .invalid → res t = .invalid

lemma month_bounds (t : LocalTime) : 1 ≤ t.date.month ∧ t.date.month ≤ 12 := by
  have := t.date.field_bounds
  omega

lemma steady_ofText (u : TimeUnit) (text : String) :
    Steady u fun t => Resolution.ofText u t.date.year t.date.month text where
  cycle {s t} _ _ hc := by
    by_cases hu : u = .day
    · subst hu
      obtain ⟨hy, hm⟩ := index_month_eq (hc .month rfl)
      simp only [hy, hm]
    · exact Resolution.ofText_eq_of_ne_day hu _ _ _ _ text
  week hu := by
    subst hu
    exact Resolution.ofText_eq_of_ne_day (by decide) _ _ _ _ text
  invalid {s t} hs ht hi := by
    by_cases hu : u = .day
    · subst hu
      exact (Resolution.ofText_day_invalid_iff hs.year_bounds (month_bounds s) ht.year_bounds
        (month_bounds t) text).mp hi
    · rw [← hi]
      exact Resolution.ofText_eq_of_ne_day hu _ _ _ _ text

lemma maxValueIn_eq_of_cycle {s t : LocalTime}
    (hc : SameCycle u s t) :
    u.maxValueIn s.date.year s.date.month = u.maxValueIn t.date.year t.date.month := by
  by_cases hu : u = .day
  · subst hu
    obtain ⟨hy, hm⟩ := index_month_eq (hc .month rfl)
    rw [hy, hm]
  · rw [TimeUnit.maxValueIn_of_ne_day hu, TimeUnit.maxValueIn_of_ne_day hu]

lemma toValue_value (hw : u ≠ .week) (hy : u ≠ .year) (target : Int) (t : LocalTime) :
    toValue u (.value target) t
      = if t.part u < target ∧ target ≤ u.maxValueIn t.date.year t.date.month then
          units (target - t.part u) u else wrap u := by
  cases u <;> first | rfl | exact absurd rfl hw | exact absurd rfl hy

lemma part_lt_of_index_lt {s : LocalTime} {n : Int} (ht : t.InReach) (hw : u ≠ .week)
    (hz : u ≠ .timeZone) (hts : t < s)
    (hn : t.part u + n ≤ u.maxValueIn t.date.year t.date.month) (hi : s.index u < t.index u + n) :
    SameCycle u s t ∧ t.part u ≤ s.part u ∧ s.part u < t.part u + n := by
  have hu := index_mono u (le_of_lt hts)
  have hc : SameCycle u s t := by
    intro p hp
    rcases Int.lt_or_eq_of_le (index_mono p (le_of_lt hts)) with h | h
    · have := index_lt_of_later_cycle hp hw ht h
      omega
    · exact h.symm
  have := part_sub_part_of_sameCycle hw hz hc
  exact ⟨hc, by omega, by omega⟩

lemma part_le_part {s : LocalTime} (hw : u ≠ .week) (hz : u ≠ .timeZone) (hts : t < s)
    (hc : SameCycle u s t) : t.part u ≤ s.part u := by
  have := index_mono u (le_of_lt hts)
  have := part_sub_part_of_sameCycle hw hz hc
  omega

lemma safe_toValue_week {res : LocalTime → Resolution} (hs : Steady .week res) (ht : t.InReach)
    {target : Int} (h : res t = .value target) (hr : res t ≠ .value (t.part .week)) :
    Safe (fun s => res s = .value (s.part .week)) (toValue .week (.value target) t) t := by
  rw [h, ne_eq, Resolution.value.injEq] at hr
  have hd : ∀ s : LocalTime, t < s → res s = .value (s.part .week) →
      t.index .day ≤ s.index .day ∧ target = s.part .week := by
    intro s hts hok
    rw [hs.week (s := s) (t := t) rfl, h, Resolution.value.injEq] at hok
    exact ⟨index_mono .day (le_of_lt hts), hok⟩
  simp only [toValue]
  split <;>
  · apply safe_units ht
    intro s hts _ hi hok
    have := hd s hts hok
    simp only [index, part, Date.weekday] at *; omega

lemma safe_toValue_year {res : LocalTime → Resolution} (hs : Steady .year res) (ht : t.InReach)
    {target : Int} (h : res t = .value target) (hr : res t ≠ .value (t.part .year)) :
    Safe (fun s => res s = .value (s.part .year)) (toValue .year (.value target) t) t := by
  have hsame : ∀ s : LocalTime, s.InReach → res s = .value target := by
    intro s hsr
    rw [hs.cycle hsr ht (sameCycle_of_no_parent rfl), h]
  rw [h, ne_eq, Resolution.value.injEq] at hr
  simp only [toValue]
  split
  · apply safe_units ht
    intro s _ hsr hi hok
    rw [hsame s hsr, Resolution.value.injEq] at hok
    simp only [index, part] at *; omega
  · apply safe_never ht
    intro s hts hsr hok
    have := index_mono .year (le_of_lt hts)
    rw [hsame s hsr, Resolution.value.injEq] at hok
    simp only [index, part] at *; omega

/-- **The jump to a value is safe.** Until the unit has the value again, or its cycle is over, no
time has it. -/
theorem safe_toValue {res : LocalTime → Resolution} (hs : Steady u res) (ht : t.InReach)
    (hr : res t ≠ .value (t.part u)) :
    Safe (fun s => res s = .value (s.part u)) (toValue u (res t) t) t := by
  cases h : res t with
  | noMatch =>
    apply safe_wrap ht
    intro s _ hsr hc hok
    rw [hs.cycle hsr ht hc, h] at hok
    cases hok
  | invalid =>
    apply safe_never ht
    intro s _ hsr hok
    rw [hs.invalid ht hsr h] at hok
    cases hok
  | value target =>
    by_cases hw : u = .week
    · subst hw; exact safe_toValue_week hs ht h hr
    by_cases hy : u = .year
    · subst hy; exact safe_toValue_year hs ht h hr
    rw [h, ne_eq, Resolution.value.injEq] at hr
    rw [toValue_value hw hy]
    by_cases hz : u = .timeZone
    · -- the zone has one value, and it is another one
      subst hz
      rw [if_neg fun hlt => hr (le_antisymm hlt.2 (le_of_lt hlt.1))]
      apply safe_wrap ht
      intro s _ hsr hc hok
      rw [hs.cycle hsr ht hc, h, Resolution.value.injEq] at hok
      exact hr hok
    split
    · -- the value comes later in this cycle
      apply safe_units ht
      intro s hts hsr hi hok
      rw [max_eq_left (by omega)] at hi
      obtain ⟨hc, -, hlt⟩ := part_lt_of_index_lt ht hw hz hts (by omega) hi
      rw [hs.cycle hsr ht hc, h, Resolution.value.injEq] at hok
      omega
    · -- the value is over in this cycle, or the cycle does not have it
      apply safe_wrap ht
      intro s hts hsr hc hok
      have hm := maxValueIn_eq_of_cycle hc
      have hle := part_le_maxValueIn u hsr
      have hge := part_le_part hw hz hts hc
      rw [hs.cycle hsr ht hc, h, Resolution.value.injEq] at hok
      omega

/-! ### Alternatives -/

lemma toEarliest_eq (as : List Advance) (t : LocalTime) :
    toEarliest as t = match (as.filterMap fun a => a.landing t).min? with
      | some landing => time landing
      | none => never := rfl

/-- **The jump to the first of several landings is safe for the alternatives together.** -/
theorem safe_toEarliest {ι : Type} (xs : List ι) (ok : ι → LocalTime → Prop) {as : List Advance}
    (htw : t.IsWhole) (h : ∀ i ∈ xs, ∃ a ∈ as, Safe (ok i) a t) :
    Safe (fun s => ∃ i ∈ xs, ok i s) (toEarliest as t) t := by
  have hstop : ∀ s : LocalTime, s.IsWhole → t < s → s.date.year ≤ 9999 →
      (∀ l ∈ as.filterMap fun a => a.landing t, s < l) → ¬ ∃ i ∈ xs, ok i s := by
    rintro s hs hts hy hl ⟨i, hi, hok⟩
    obtain ⟨a, ha, hsafe⟩ := h i hi
    exact hsafe s hs hts hy (fun l hal => hl l (List.mem_filterMap.mpr ⟨a, ha, hal⟩)) hok
  rw [toEarliest_eq]
  cases hm : (as.filterMap fun a => a.landing t).min? with
  | some m =>
    rw [List.min?_eq_some_iff] at hm
    exact safe_time htw fun s hs hts hy hlt =>
      hstop s hs hts hy fun l hl => lt_of_lt_of_le hlt (hm.2 l hl)
  | none =>
    rw [List.min?_eq_none_iff] at hm
    exact fun s hs hts hy _ => hstop s hs hts hy (by simp [hm])

/-! ### Places to land -/

/-- Where a search may stand: on a whole second, or past the last year. -/
def Standing (t : LocalTime) : Prop := t.IsWhole ∨ 9999 < t.date.year

/-- The jump leads to a place to stand that does not lie before the time. -/
def Lands (a : Advance) (t : LocalTime) : Prop := ∀ l ∈ a.landing t, Standing l ∧ t ≤ l

lemma lands_never (t : LocalTime) : Lands never t := by
  intro l hl
  cases hl

lemma lands_units (htw : t.IsWhole) (hy : t.date.year ≤ 9999) (n : Int) (u : TimeUnit) :
    Lands (units n u) t := by
  rintro l ⟨rfl⟩
  refine ⟨isWhole_land t _ u, ?_⟩
  by_cases hu : u = .timeZone
  · subst hu
    rw [land_timeZone, ← htw.eq_ofSeconds]
  · exact le_of_lt (lt_land hu (le_max_right _ _) hy)

lemma lands_wrap (htw : t.IsWhole) (hy : t.date.year ≤ 9999) (u : TimeUnit) :
    Lands (wrap u) t := by
  unfold wrap
  cases u.parent? with
  | none => exact lands_never t
  | some p => exact lands_units htw hy 1 p

lemma lands_time (htw : t.IsWhole) {m : LocalTime} (hm : Standing m) : Lands (time m) t := by
  rintro l ⟨rfl⟩
  have hnext : t ≤ t.addSeconds 1 := le_of_lt (t.lt_addSeconds (by decide))
  refine ⟨?_, le_trans hnext (le_max_right _ _)⟩
  rcases max_choice m (t.addSeconds 1) with h | h <;> rw [h]
  · exact hm
  · exact Or.inl (htw.addSeconds 1)

lemma lands_toValue (htw : t.IsWhole) (hy : t.date.year ≤ 9999) (u : TimeUnit) (r : Resolution) :
    Lands (toValue u r t) t := by
  unfold toValue
  cases r with
  | noMatch => exact lands_wrap htw hy u
  | invalid => exact lands_never t
  | value target =>
    simp only
    split
    · exact lands_units htw hy _ _
    · split
      · exact lands_units htw hy _ _
      · exact lands_never t
    · split
      · exact lands_units htw hy _ _
      · exact lands_wrap htw hy _

lemma lands_toEarliest (htw : t.IsWhole) {as : List Advance} (h : ∀ a ∈ as, Lands a t) :
    Lands (toEarliest as t) t := by
  rw [toEarliest_eq]
  split
  · rename_i m hm
    obtain ⟨a, ha, hl⟩ := List.mem_filterMap.mp (List.min?_mem hm)
    exact lands_time htw (h a ha m hl).1
  · exact lands_never t

end Advance

end Recurrence
