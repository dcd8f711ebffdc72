import Recurrence.Proofs.Resolution.Extents
import Recurrence.Proofs.Search.Cadences
import Recurrence.RuleSet

/-!
Weeks with an anchor. The cadence keeps the week of the first anchor day from the base on, and weeks
start on Sunday, so the anchor day of the week of the base itself may already be over. Counted in
days the cadence is every `7 * n`-th day from that first one.

Main statements: `accepts_startingAt_iff` and `startingAt_week_exact`.
-/

namespace Recurrence

namespace Date

def onOrAfter (d : Date) (weekday : Int) : Date := ⟨d.number + (weekday - d.weekday) % 7⟩

variable {d : Date} {a : Int}

lemma le_onOrAfter (d : Date) (a : Int) : d.number ≤ (d.onOrAfter a).number := by
  simp only [onOrAfter]
  omega

lemma weekday_onOrAfter (h : 1 ≤ a ∧ a ≤ 7) : (d.onOrAfter a).weekday = a := by
  simp only [onOrAfter, weekday]
  omega

lemma onOrAfter_le {e : Date} (hle : d.number ≤ e.number) :
    (d.onOrAfter e.weekday).number ≤ e.number := by
  simp only [onOrAfter, weekday]
  omega

lemma number_sub_of_weekday_eq {e : Date} (h : d.weekday = e.weekday) :
    e.number - d.number = 7 * (e.number / 7 - d.number / 7) := by
  simp only [weekday] at h
  omega

end Date

namespace Cadence

open LocalTime Advance

variable {e : Every} {text : String} {a : Int} {base s t : LocalTime}

lemma anchorIn_startingAt (hu : e.unit = .week) (ha : e.anchor = some text)
    (hv : RuleSet.probe .week text = .value a) (t : LocalTime) :
    (startingAt e base).anchorIn t = some (.value a) := by
  have hunit : (startingAt e base).unit = .week := hu
  have hanchor : (startingAt e base).anchor = some text := ha
  rw [anchorIn, hanchor, hunit, Option.map_some, ← hv, RuleSet.probe]
  exact congrArg some (Resolution.ofText_eq_of_ne_day (by decide) _ _ _ _ text)

lemma phase_startingAt (hu : e.unit = .week) (ha : e.anchor = some text)
    (hv : RuleSet.probe .week text = .value a) :
    (startingAt e base).phase = (base.date.onOrAfter a).number / 7 := by
  have htext : Resolution.ofText .week base.date.year base.date.month text = .value a := by
    rw [← hv, RuleSet.probe]
    exact Resolution.ofText_eq_of_ne_day (by decide) _ _ _ _ text
  simp only [startingAt, hu, ha, htext, Resolution.value?, Option.getD_some, part]
  simp only [index, date, Date.onOrAfter, Time.seconds_addSeconds, daySeconds, epochDay]
  omega

/-- **The dates of an anchored week cadence** are whole multiples of its interval after the first
anchor day. -/
theorem accepts_startingAt_iff (hu : e.unit = .week) (ha : e.anchor = some text)
    (hn : 1 ≤ e.interval) (hv : RuleSet.probe .week text = .value a)
    (ht : base.date.number ≤ t.date.number) : (startingAt e base).accepts t = true ↔
      ∃ k : Nat, t.date.number = (base.date.onOrAfter a).number + 7 * e.interval * k := by
  have hweekday : (base.date.onOrAfter a).weekday = a :=
    Date.weekday_onOrAfter (Resolution.ofText_extent (by decide) hv)
  have hinterval : (startingAt e base).interval = e.interval := max_eq_left (by omega)
  have hunit : (startingAt e base).unit = .week := hu
  -- the weekday is that of the anchor, and the week is a multiple of the interval on
  have haccepts : (startingAt e base).accepts t = true ↔ t.part .week = a
      ∧ (t.date.number / 7 - (base.date.onOrAfter a).number / 7) % e.interval = 0 := by
    simp only [accepts, anchorIn_startingAt hu ha hv, hunit, if_true, Bool.and_eq_true,
      decide_eq_true_eq, offset, hinterval, phase_startingAt hu ha hv, index]
  rw [haccepts]
  constructor
  · rintro ⟨hday, hmod⟩
    replace hday : t.date.weekday = a := hday
    have hfirst := Date.onOrAfter_le ht
    rw [hday] at hfirst
    have hsub := Date.number_sub_of_weekday_eq (hweekday.trans hday.symm)
    obtain ⟨j, hj⟩ := Int.dvd_of_emod_eq_zero hmod
    -- the time is not before the base, so neither is it before the first anchor day
    have hj0 : 0 ≤ j := by
      by_contra hneg
      have : (e.interval : Int) * j < 0 := Int.mul_neg_of_pos_of_neg (by omega) (by omega)
      omega
    refine ⟨j.toNat, ?_⟩
    rw [Int.toNat_of_nonneg hj0, Int.mul_assoc, ← hj]
    omega
  · rintro ⟨k, hk⟩
    rw [Int.mul_assoc] at hk
    have hday : t.date.weekday = a := by
      rw [← hweekday]
      simp only [Date.weekday]
      omega
    refine ⟨hday, ?_⟩
    have hsub := Date.number_sub_of_weekday_eq (hweekday.trans hday.symm)
    have hweeks : t.date.number / 7 - (base.date.onOrAfter a).number / 7 = e.interval * k := by
      omega
    rw [hweeks, Int.mul_emod_right]

lemma landing_le_of_week {c : Cadence} (hc : 1 ≤ c.interval) (hu : c.unit = .week)
    (ha : ∀ s, c.anchorIn s = some (.value a)) (ht : earliest ≤ t) (hr : c.accepts t = false) :
    ∃ l, (c.advance t).landing t = some l ∧ (t.date.year ≤ 9999 → t < l)
      ∧ ∀ s, t < s → c.accepts s = true → l ≤ s := by
  obtain ⟨n, u, hadvance, hz, hle⟩ := advance_eq_units_of_week hc hu ha hr
  refine ⟨t.land (max n 1) u, by rw [hadvance]; rfl, lt_land hz (le_max_right _ _), ?_⟩
  intro s hts hs
  by_contra hlt
  have := index_lt_of_lt_land hz (le_max_right n 1) ht (lt_of_not_ge hlt)
  have := hle s hts hs
  omega

/-- **An anchored week cadence counts from the first anchor day.** From the base on it accepts the
dates that are whole multiples of its interval after that day and no others, and from a time that it
refuses it leads forward, but not past a time that it accepts. -/
theorem startingAt_week_exact (hu : e.unit = .week) (ha : e.anchor = some text)
    (hn : 1 ≤ e.interval) (hv : RuleSet.probe .week text = .value a) (hbase : earliest ≤ base) :
    ∃ first : Date,
      (base.date.number ≤ first.number ∧ first.weekday = a
        ∧ ∀ d : Date, base.date.number ≤ d.number → d.weekday = a → first.number ≤ d.number)
      ∧ (∀ t : LocalTime, base.date.number ≤ t.date.number →
        ((startingAt e base).accepts t = true ↔
          ∃ k : Nat, t.date.number = first.number + 7 * e.interval * k))
      ∧ ∀ t, base ≤ t → (startingAt e base).accepts t = false →
        ∃ l, ((startingAt e base).advance t).landing t = some l ∧ (t.date.year ≤ 9999 → t < l)
          ∧ ∀ s, t < s → (startingAt e base).accepts s = true → l ≤ s := by
  have hextent := Resolution.ofText_extent (by decide) hv
  refine ⟨base.date.onOrAfter a, ⟨base.date.le_onOrAfter a, Date.weekday_onOrAfter hextent, ?_⟩,
    fun t ht => accepts_startingAt_iff hu ha hn hv ht, fun t ht hr => ?_⟩
  · rintro d hd rfl
    exact Date.onOrAfter_le hd
  · have hinterval : 1 ≤ (startingAt e base).interval := le_max_right _ _
    exact landing_le_of_week hinterval hu (anchorIn_startingAt hu ha hv) (le_trans hbase ht) hr

/-- From Friday, 5 January 2024, every second Wednesday is the 10th and each fortnight after it. -/
theorem startingAt_week_exact_wednesdays :
    let e : Every := ⟨.week, 2, some "wednesday"⟩
    let base : LocalTime := midnight (Date.ofFields 2024 1 5)
    ∀ t : LocalTime, base.date.number ≤ t.date.number →
      ((startingAt e base).accepts t = true ↔
        ∃ k : Nat, t.date.number = (Date.ofFields 2024 1 10).number + 14 * k) := by
  intro e base t ht
  have hweek : e.unit = .week := rfl
  have hanchor : RuleSet.probe .week "wednesday" = .value 4 := by decide +kernel
  have hearliest : earliest ≤ base := by decide +kernel
  obtain ⟨first, ⟨hle, hweekday, hleast⟩, hdates, -⟩ :=
    startingAt_week_exact hweek rfl (by decide) hanchor hearliest
  have hnumber : (Date.ofFields 2024 1 10).number = 738895 := by decide
  have hbase : base.date.number = 738890 := by decide +kernel
  have hfirst := hleast (Date.ofFields 2024 1 10) (by omega) (by decide)
  have heq : first.number = 738895 := by
    rw [Date.weekday] at hweekday
    omega
  rw [hdates t ht, hnumber, heq]
  exact Iff.rfl

end Cadence

end Recurrence
