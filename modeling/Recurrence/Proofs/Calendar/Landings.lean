import Mathlib.Order.Bounds.Basic
import Recurrence.Proofs.Calendar.Checked

/-!
Units as stretches of time. The times of a unit with an index are those from its first second on and
before that of the next, so truncation leads to the least of them, and a landing to the least of
those of a later unit.

Main statement: `unit_landings`.
-/

namespace Recurrence

namespace LocalTime

variable {u : TimeUnit} {s t : LocalTime} {k n : Int}

/-- The times of the calendar that are in the unit with an index. -/
def timesIn (u : TimeUnit) (k : Int) : Set LocalTime :=
  {s | earliest ≤ s ∧ s ≤ latest ∧ s.index u = k}

lemma isLeast_firstSecond (h : OnCalendar (firstSecond u k)) :
    IsLeast (timesIn u k) (Time.ofSeconds (firstSecond u k)) := by
  have hwhole : (earliest : LocalTime).IsWhole := rfl
  refine ⟨⟨?_, ?_, index_firstSecond u k⟩, fun s hs => ?_⟩
  · rw [hwhole.le_iff]
    exact h.1
  · rw [Time.IsWhole.le_iff (Time.isWhole_ofSeconds _)]
    exact h.2
  · rw [Time.IsWhole.le_iff (Time.isWhole_ofSeconds _), Time.seconds_ofSeconds, ← le_index_iff,
      hs.2.2]

lemma timesIn_nonempty_iff (h : earliest.seconds ≤ firstSecond u k) :
    (timesIn u k).Nonempty ↔ OnCalendar (firstSecond u k) := by
  refine ⟨?_, fun hon => ⟨_, (isLeast_firstSecond hon).1⟩⟩
  rintro ⟨s, -, hlast, hk⟩
  refine ⟨h, ?_⟩
  calc firstSecond u k ≤ s.seconds := (le_index_iff u s k).mp hk.ge
    _ ≤ latest.seconds := Time.seconds_le hlast

lemma firstSecond_index_earliest (hw : u ≠ .week) :
    firstSecond u (earliest.index u) = earliest.seconds := by
  cases u with
  | week => exact absurd rfl hw
  | _ => decide

lemma earliest_le_firstSecond (ht : t.PastFirstWeek) (u : TimeUnit) :
    earliest.seconds ≤ firstSecond u (t.index u) := by
  by_cases hw : u = .week
  · subst hw
    exact ((index_lt_iff .week earliest _).mp ht.week).le
  · have hindex := index_mono u ht.inReach.1
    rw [← firstSecond_index_earliest hw, ← not_lt, firstSecond_lt_iff]
    omega

lemma index_eq_iff_startOf_eq (u : TimeUnit) (s t : LocalTime) :
    s.index u = t.index u ↔ s.startOf u = t.startOf u := by
  refine ⟨fun h => by rw [startOf_eq, startOf_eq, h], fun h => ?_⟩
  rw [← index_startOf u s, ← index_startOf u t, h]

/-- **Indexes, truncation and landings agree.** Past the first week of the calendar, truncation
leads to the first of the times with the same index; a landing leads to the first of those with the
index that many greater, or to the last time of the calendar when it has none of them, and always
forward; and the same index means the same start. None of the numbers, spans and dates on the way
leaves its limits. -/
theorem unit_landings (hu : u ≠ .timeZone) (ht : t.PastFirstWeek)
    (hn : 1 ≤ n ∧ n ≤ Word.unsigned32.greatest) :
    IsLeast (timesIn u (t.index u)) (t.startOf u)
      ∧ ((timesIn u (t.index u + n)).Nonempty → IsLeast (timesIn u (t.index u + n)) (t.land n u))
      ∧ (timesIn u (t.index u + n) = ∅ → t.land n u = latest)
      ∧ t < t.land n u
      ∧ (∀ s : LocalTime, s.index u = t.index u ↔ s.startOf u = t.startOf u)
      ∧ Checked.index u t = .ok (t.index u)
      ∧ Checked.startOf u t = .ok (t.startOf u)
      ∧ Checked.land t n u = .ok (t.land n u) := by
  have hstart := earliest_le_firstSecond ht u
  have hcalendar := ht.inReach.onCalendar
  have hpast : ¬ (u = .week ∧ t.index .week = earliest.index .week) := fun h => ht.week.ne' h.2
  have hlater : firstSecond u (t.index u) < firstSecond u (t.index u + n) :=
    (firstSecond_lt_iff u).mpr (by omega)
  have hin : OnCalendar (firstSecond u (t.index u)) := by
    rw [← timesIn_nonempty_iff hstart]
    exact ⟨t, ht.inReach.1, (lt_latest ht.year).le, rfl⟩
  have htimes := timesIn_nonempty_iff (hstart.trans hlater.le)
  refine ⟨?_, fun hsome => ?_, fun hnone => ?_, lt_land hu hn.1 ht.year,
    fun s => index_eq_iff_startOf_eq u s t,
    Checked.index_eq hcalendar, by rw [Checked.startOf_eq hcalendar, if_neg hpast],
    by rw [Checked.land_eq hcalendar hn, if_neg hpast]⟩
  · rw [startOf_eq]
    exact isLeast_firstSecond hin
  · rw [land_eq hu, if_pos (htimes.mp hsome)]
    exact isLeast_firstSecond (htimes.mp hsome)
  · rw [land_eq hu, if_neg (htimes.not.mp (Set.not_nonempty_iff_eq_empty.mpr hnone))]

/-- From a leap day the next year begins on a first of January, and more years than the calendar has
lead to its end. -/
theorem unit_landings_leap_day :
    ∃ t : LocalTime, t.fields = ⟨2024, 2, 29, 12, 0, 0⟩ ∧ t.PastFirstWeek
    ∧ IsLeast (timesIn .year 2025) (t.land 1 .year)
    ∧ (t.land 1 .year).fields = ⟨2025, 1, 1, 0, 0, 0⟩
    ∧ t.land 4294967295 .year = latest ∧ Checked.land t 4294967295 .year = .ok latest := by
  have ht : PastFirstWeek (Time.ofSeconds 1709208000) := ⟨by decide, by decide⟩
  have hsome : (timesIn .year 2025).Nonempty :=
    ⟨Time.ofSeconds 1735689600, by decide, by decide, by decide⟩
  have hnone : timesIn .year (2024 + 4294967295) = ∅ := by
    rw [← Set.not_nonempty_iff_eq_empty, timesIn_nonempty_iff (by decide)]
    decide
  have hnext := unit_landings (u := .year) (n := 1) (by decide) ht (by decide)
  have hfar := unit_landings (u := .year) (n := 4294967295) (by decide) ht (by decide)
  have hlatest := hfar.2.2.1 hnone
  exact ⟨_, by decide, ht, hnext.2.1 hsome, by decide, hlatest, hlatest ▸ hfar.2.2.2.2.2.2.2⟩

end LocalTime

end Recurrence
