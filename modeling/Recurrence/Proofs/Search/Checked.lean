import Recurrence.Proofs.Calendar.Checked
import Recurrence.Proofs.Resolution.Extents
import Recurrence.Proofs.Search.Endings
import Recurrence.Proofs.Search.Progress
import Recurrence.Search.Checked

/-!
Searches that do not leave the calendar. A jump stops in two places only: by weeks from the week
that the calendar starts in, and to a time from the last second. So no search for the rules of a
text stops that starts after that week, and a plan is made as long as six days are left after the
seed.

Main statements: `landing_eq`, `startingAt_eq`, `conditions_eq` and `jump_of_visited`.
-/

namespace Recurrence

open LocalTime

variable {t : LocalTime} {a : Advance}

/-! ### Units of jumps -/

lemma TimeUnit.maxValueIn_le (u : TimeUnit) (year month : Int) :
    u.maxValueIn year month ≤ 9999 := by
  have hdays := Date.daysInMonth_bounds year month
  unfold maxValueIn
  split
  · omega
  · cases u <;> decide

lemma Resolution.eq_value {r : Resolution} {v : Int} (h : r.value? = some v) : r = .value v := by
  cases r with
  | value => exact congrArg Resolution.value (Option.some.inj h)
  | noMatch | invalid => cases h

namespace Advance

/-- The jump is by units counted in a word, or to a time of the calendar. -/
def Bounded : Advance → Prop
  | units n _ => n ≤ Word.unsigned32.greatest
  | time s => OnCalendar s.seconds
  | never => True

def ByWeeks : Advance → Prop
  | units _ u => u = .week
  | time _ | never => False

lemma bounded_units {n : Int} {u : TimeUnit} (h : n ≤ 1000000) : (units n u).Bounded := by
  show n ≤ 4294967295
  omega

lemma bounded_wrap (u : TimeUnit) : (wrap u).Bounded := by
  unfold wrap
  cases u.parent? with
  | none => trivial
  | some p => exact bounded_units (by decide)

lemma not_byWeeks_wrap (u : TimeUnit) : ¬ (wrap u).ByWeeks := by
  cases u <;> nofun

lemma bounded_toValue {u : TimeUnit} {r : Resolution} (ht : OnCalendar t.seconds)
    (hr : ∀ v, u = .year → r = .value v → v ≤ 9999) : (toValue u r t).Bounded := by
  unfold toValue
  cases r with
  | noMatch => exact bounded_wrap u
  | invalid => trivial
  | value target =>
    -- but for years, a jump stays in the values that the unit takes
    have hother (hy : u ≠ .year) :
        (if t.part u < target ∧ target ≤ u.maxValueIn t.date.year t.date.month then
          units (target - t.part u) u else wrap u).Bounded := by
      have hmax := u.maxValueIn_le t.date.year t.date.month
      have hpart := minValue_le_part hy t
      have hmin : 0 ≤ u.minValue := by cases u <;> decide
      split
      · exact bounded_units (by omega)
      · exact bounded_wrap u
    cases u with
    | week =>
      dsimp only
      refine bounded_units ?_
      split <;> omega
    -- years are counted from the first of the calendar to those of texts
    | year =>
      have hfirst := ht.year_bounds.1
      have hpart : t.part .year = t.date.year := rfl
      have htarget := hr target rfl rfl
      simp only [Date.firstYear] at hfirst
      dsimp only
      split
      · exact bounded_units (by omega)
      · trivial
    | _ => exact hother (by decide)

lemma not_byWeeks_toValue (u : TimeUnit) (r : Resolution) : ¬ (toValue u r t).ByWeeks := by
  unfold toValue
  cases r with
  | noMatch => exact not_byWeeks_wrap u
  | invalid => nofun
  | value target =>
    -- a weekday is reached by days
    cases u <;> dsimp only <;> (try split) <;> nofun

lemma not_byWeeks_toEarliest (as : List Advance) (t : LocalTime) :
    ¬ (toEarliest as t).ByWeeks := by
  unfold toEarliest
  split <;> nofun

end Advance

/-! ### Jumps of conditions -/

lemma Record.bounded_advance {r : Record} (ht : OnCalendar t.seconds)
    (hr : ∀ p ∈ r, ∀ v, p.1 = .year → p.2 = .value v → v ≤ 9999) : (r.advance t).Bounded := by
  unfold Record.advance
  split
  · rename_i u res hfind
    exact Advance.bounded_toValue ht (hr _ (List.mem_of_find?_eq_some hfind))
  · exact Advance.bounded_units (by decide)

lemma Record.not_byWeeks_advance (r : Record) (t : LocalTime) : ¬ (r.advance t).ByWeeks := by
  unfold Record.advance
  split
  · exact Advance.not_byWeeks_toValue _ _
  · nofun

lemma Cadence.bounded_advance {c : Cadence} (hc : 1 ≤ c.interval)
    (hinterval : c.interval ≤ Word.unsigned32.greatest) (t : LocalTime) :
    (c.advance t).Bounded := by
  -- units on the cadence are the interval apart
  have hahead : c.ahead t ≤ c.interval := by
    have := Int.emod_nonneg (t.index c.unit - c.phase) (show c.interval ≠ 0 by omega)
    unfold ahead offset
    split <;> omega
  rw [advance_eq]
  split
  · exact le_trans hahead hinterval
  · exact Advance.bounded_wrap _
  · trivial
  · rename_i anchor hanchor
    split
    · rename_i hu
      split
      -- inside a week the jump is to the weekday of the anchor
      · have hv : anchor ≤ 7 := by
          obtain ⟨text, -, htext⟩ := Option.map_eq_some_iff.mp hanchor
          rw [hu] at htext
          exact (Resolution.ofText_extent (by decide) htext).2
        have hday : 1 ≤ t.part .week := minValue_le_part (by decide) t
        exact Advance.bounded_units (by omega)
      · exact le_trans hahead hinterval
    · have := Int.emod_nonneg (t.part c.unit - anchor) (show c.interval ≠ 0 by omega)
      split
      · show c.interval - _ ≤ _
        omega
      · exact Advance.bounded_wrap _

namespace Range

variable {r : Range}

lemma onCalendar_of_ofFields? {f : Fields} (h : ofFields? f = some t) : OnCalendar t.seconds := by
  have hyear : t.date.year = f.year := congrArg Fields.year (fields_of_ofFields? h).1
  have hon : Date.hasMonth f.year f.month = true := by
    unfold ofFields? Date.ofFields? at h
    split at h
    · cases h
    · rename_i d hd
      simp only [Option.ite_none_right_eq_some, Bool.and_eq_true] at hd
      exact hd.1.1.1
  rw [Date.hasMonth_iff, ← hyear] at hon
  exact onCalendar_of_year hon.1

lemma bounded_clockCheck (h : r.clockCheck t = some a) : a.Bounded ∧ ¬ a.ByWeeks := by
  obtain ⟨coarsest, finest, hspans⟩ := spans_of_clockCheck h
  have hwrap := And.intro (Advance.bounded_wrap coarsest) (Advance.not_byWeeks_wrap coarsest)
  rw [clockCheck_eq hspans] at h
  split at h
  · cases h
    exact hwrap
  · rename_i start stop hwindow
    split_ifs at h
    · cases h
      cases hopening : ofFields? start with
      | none =>
        have hfinest := (mem_bounded.mp hspans.mem_finest).1
        exact ⟨Advance.bounded_units (by decide), hfinest.1⟩
      | some opening => exact ⟨onCalendar_of_ofFields? hopening, nofun⟩
    · cases h
      exact hwrap

lemma bounded_weekdayCheck (h : r.weekdayCheck t = some a) : a.Bounded ∧ ¬ a.ByWeeks := by
  have hday : 1 ≤ t.part .week := minValue_le_part (by decide) t
  unfold weekdayCheck at h
  split at h
  · cases h
  · split at h
    · rename_i first last hfirst hlast
      have hmax : first ≤ 7 :=
        (Resolution.ofText_extent (by decide) (Resolution.eq_value hfirst)).2
      dsimp only at h
      split_ifs at h <;> cases h <;> exact ⟨Advance.bounded_units (by omega), nofun⟩
    · cases h
      exact ⟨trivial, nofun⟩

lemma bounded_check (h : r.check t = some a) : a.Bounded ∧ ¬ a.ByWeeks := by
  rw [check] at h
  split at h
  · cases h
    exact bounded_clockCheck ‹_›
  · exact bounded_weekdayCheck h

end Range

lemma Advance.onCalendar_landing (ha : a.Bounded) (ht : OnCalendar t.seconds)
    (hlast : t.seconds < latest.seconds) : ∀ l ∈ a.landing t, OnCalendar l.seconds := by
  have hlatest : OnCalendar latest.seconds := ⟨by decide, le_rfl⟩
  rintro l hl
  cases a with
  | never => cases hl
  | units n u =>
    cases hl
    by_cases hu : u = .timeZone
    · subst hu
      exact ht
    · rw [land_eq hu]
      split
      · assumption
      · exact hlatest
  | time s =>
    cases hl
    rw [Time.seconds_max]
    rcases max_choice s.seconds (t.addSeconds 1).seconds with h | h <;> rw [h]
    · exact ha
    · have hfirst := ht.1
      rw [Time.seconds_addSeconds]
      exact ⟨by omega, by omega⟩

lemma Advance.bounded_toEarliest {as : List Advance} (has : ∀ a ∈ as, a.Bounded)
    (ht : OnCalendar t.seconds) (hlast : t.seconds < latest.seconds) :
    (toEarliest as t).Bounded := by
  unfold toEarliest
  split
  · rename_i l hl
    obtain ⟨a, ha, hal⟩ := List.mem_filterMap.mp (List.min?_mem hl)
    exact onCalendar_landing (has a ha) ht hlast l hal
  · trivial

namespace Condition

def Bounded : Condition → Prop
  | cadence c => 1 ≤ c.interval ∧ c.interval ≤ Word.unsigned32.greatest
  | _ => True

variable {c : Condition}

lemma bounded_record {columns : Columns} {r : Record} (ht : OnCalendar t.seconds)
    (hr : r ∈ columns.resolved t.date.year t.date.month) : (r.advance t).Bounded := by
  obtain ⟨texts, -, rfl⟩ := List.mem_map.mp hr
  refine Record.bounded_advance ht fun p hp v hu hv => ?_
  obtain ⟨q, -, rfl⟩ := List.mem_map.mp hp
  obtain ⟨u, text⟩ := q
  cases hu
  exact (Resolution.ofText_extent (by decide) hv).2

lemma bounded_advance (hc : c.Bounded) (ht : OnCalendar t.seconds)
    (hlast : t.seconds < latest.seconds) : (c.advance t).Bounded := by
  cases c with
  | equals u text =>
    refine Advance.bounded_toValue ht fun v hu hv => ?_
    subst hu
    exact (Resolution.ofText_extent (by decide) hv).2
  | pin u value =>
    have hvalue : pinned u value t ≤ 9999 := le_trans (min_le_right _ _) (u.maxValueIn_le _ _)
    show (Advance.toValue u (.value (pinned u value t)) t).Bounded
    refine Advance.bounded_toValue ht fun v hu hv => ?_
    cases hv
    exact hvalue
  | cadence c => exact c.bounded_advance hc.1 hc.2 t
  | oneOf columns =>
    refine Advance.bounded_toEarliest (fun a ha => ?_) ht hlast
    obtain ⟨r, hr, rfl⟩ := List.mem_map.mp ha
    exact bounded_record ht hr
  | within r =>
    show ((r.check t).getD (.units 1 .second)).Bounded
    cases h : r.check t with
    | some a => exact (Range.bounded_check h).1
    | none => exact Advance.bounded_units (by decide)
  | withinAny rs =>
    refine Advance.bounded_toEarliest (fun a ha => ?_) ht hlast
    obtain ⟨r, -, h⟩ := List.mem_filterMap.mp ha
    exact (Range.bounded_check h).1

lemma not_byWeeks_advance (hc : ∀ e, c ≠ .cadence e) (t : LocalTime) : ¬ (c.advance t).ByWeeks := by
  cases c with
  | equals u text => exact Advance.not_byWeeks_toValue _ _
  | pin u value => exact Advance.not_byWeeks_toValue u (.value (pinned u value t))
  | cadence e => exact absurd rfl (hc e)
  | oneOf | withinAny => exact Advance.not_byWeeks_toEarliest _ _
  | within r =>
    show ¬ ((r.check t).getD (.units 1 .second)).ByWeeks
    cases h : r.check t with
    | some a => exact (Range.bounded_check h).2
    | none => nofun

end Condition

/-! ### Jumps that stop -/

/-- The jump leads off the calendar: by weeks from its first one, or to a time from its last
second. -/
def Advance.Leaves (t : LocalTime) : Advance → Prop
  | units _ u => u = .week ∧ t.index .week = earliest.index .week
  | time _ => latest.seconds ≤ t.seconds
  | never => False

instance (t : LocalTime) : DecidablePred (Advance.Leaves t)
  | .units _ _ => inferInstanceAs (Decidable (_ ∧ _))
  | .time _ => inferInstanceAs (Decidable (_ ≤ _))
  | .never => inferInstanceAs (Decidable False)

namespace Checked

lemma addSeconds_eq {s : Int} (ht : OnCalendar t.seconds) (hs : 0 ≤ s ∧ s ≤ 7 * daySeconds) :
    addSeconds t s = if latest.seconds < t.seconds + s then .error .date
      else .ok (t.addSeconds s) := by
  have hfrom : earliest ≤ t.addSeconds s := by
    rw [(show earliest.IsWhole from rfl).le_iff]
    exact le_trans ht.1 (by rw [Time.seconds_addSeconds]; omega)
  -- the calendar ends with a second, so the nanoseconds do not matter
  have hto : t.addSeconds s ≤ latest ↔ ¬ latest.seconds < t.seconds + s := by
    have hnanos := t.nanos.isLt
    rw [Time.le_def]
    show t.seconds + s < _ ∨ t.seconds + s = _ ∧ t.nanos.val ≤ 999999999 ↔ _
    omega
  have hsome : addSeconds? t s = pure (t.addSeconds? s) :=
    addSeconds?_eq (by simp only [daySeconds] at hs; omega)
  unfold addSeconds
  rw [hsome, pure_bind, LocalTime.addSeconds?]
  simp only [hfrom, hto, true_and, ite_not]
  split_ifs <;> rfl

/-- **A jump stops exactly where it leaves the calendar.** -/
theorem landing_eq (ht : OnCalendar t.seconds) (ha : a.Bounded) :
    landing a t = if a.Leaves t then .error .date else .ok (a.landing t) := by
  cases a with
  | never => rfl
  | units n u =>
    have hn : n ≤ Word.unsigned32.greatest := ha
    rw [landing, land_eq ht ⟨le_max_right n 1, max_le hn (by decide)⟩]
    by_cases h : u = .week ∧ t.index .week = earliest.index .week
    · rw [if_pos h, if_pos (show (Advance.units n u).Leaves t from h)]
      rfl
    · rw [if_neg h, if_neg (show ¬ (Advance.units n u).Leaves t from h)]
      rfl
  | time s =>
    rw [landing, addSeconds_eq ht ⟨by decide, by decide⟩]
    by_cases h : latest.seconds < t.seconds + 1
    · rw [if_pos h, if_pos (show (Advance.time s).Leaves t from Int.lt_add_one_iff.mp h)]
      rfl
    · rw [if_neg h, if_neg (show ¬ (Advance.time s).Leaves t from mt Int.lt_add_one_iff.mpr h)]
      rfl

lemma landing_of_inside (ht : OnCalendar t.seconds) (ha : a.Bounded)
    (hlast : t.seconds < latest.seconds)
    (hweek : earliest.index .week < t.index .week ∨ ¬ a.ByWeeks) :
    landing a t = .ok (a.landing t) := by
  have hinside : ¬ a.Leaves t := by
    cases a with
    | never => exact id
    | units n u =>
      rintro ⟨hu, hfirst⟩
      rcases hweek with hweek | hweek
      · omega
      · exact hweek hu
    | time s => exact not_le.mpr hlast
  rw [landing_eq ht ha, if_neg hinside]

lemma mapM_of_ok {ι α : Type} {f : ι → Checked α} {g : ι → α} {l : List ι}
    (h : ∀ i ∈ l, f i = .ok (g i)) : l.mapM f = .ok (l.map g) := by
  induction l with
  | nil => rfl
  | cons i l ih =>
    obtain ⟨hi, hl⟩ := List.forall_mem_cons.mp h
    rw [List.mapM_cons, hi, ih hl]
    rfl

section Conditions

variable {c : Condition} (ht : OnCalendar t.seconds) (hlast : t.seconds < latest.seconds)
include ht hlast

lemma toEarliest_eq {as : List Advance} (has : ∀ a ∈ as, a.Bounded ∧ ¬ a.ByWeeks) :
    toEarliest as t = .ok (Advance.toEarliest as t) := by
  have hlandings : (as.mapM fun a => landing a t) = pure (as.map fun a => a.landing t) :=
    mapM_of_ok fun a ha => landing_of_inside ht (has a ha).1 hlast (Or.inr (has a ha).2)
  unfold toEarliest Advance.toEarliest
  rw [hlandings, pure_bind, List.filterMap_map]
  simp only [Function.id_comp]
  cases Advance.earliest? (as.filterMap fun a => a.landing t) <;> rfl

lemma advance_eq (c : Condition) : advance c t = .ok (c.advance t) := by
  cases c with
  | equals | pin | cadence | within => rfl
  | oneOf columns =>
    refine toEarliest_eq ht hlast fun a ha => ?_
    obtain ⟨r, hr, rfl⟩ := List.mem_map.mp ha
    exact ⟨Condition.bounded_record ht hr, r.not_byWeeks_advance t⟩
  | withinAny rs =>
    refine toEarliest_eq ht hlast fun a ha => ?_
    obtain ⟨r, -, h⟩ := List.mem_filterMap.mp ha
    exact Range.bounded_check h

/-- **The jump of a condition does not stop** before the last second, if it is in a later week than
the first one or the condition is no cadence. -/
theorem jump_eq (hc : c.Bounded)
    (hweek : earliest.index .week < t.index .week ∨ ∀ e, c ≠ .cadence e) :
    jump c t = .ok ((c.advance t).landing t) := by
  have hadvance : advance c t = pure (c.advance t) := advance_eq ht hlast c
  rw [jump, hadvance, pure_bind]
  exact landing_of_inside ht (Condition.bounded_advance hc ht hlast) hlast
    (hweek.imp_right fun hne => Condition.not_byWeeks_advance hne t)

end Conditions

/-! ### Plans that stop -/

lemma daysAhead_bounds (anchor : String) (base : LocalTime) :
    0 ≤ daysAhead anchor base ∧ daysAhead anchor base < 7 := by
  unfold daysAhead
  dsimp only
  omega

/-- The first day of weeks that are counted from an anchor is after the calendar ends. -/
def LeavesFrom (base : LocalTime) (e : Every) : Prop :=
  e.unit = .week ∧ ∃ anchor ∈ e.anchor,
    latest.seconds < base.seconds + daysAhead anchor base * daySeconds

instance (base : LocalTime) (e : Every) : Decidable (LeavesFrom base e) :=
  inferInstanceAs (Decidable (_ ∧ _))

variable {base : LocalTime}

/-- **Counting a cadence stops exactly where its first day is off the calendar**, and nowhere for
cadences other than of weeks with an anchor. -/
theorem startingAt_eq (hb : OnCalendar base.seconds) (e : Every) : startingAt e base
    = if LeavesFrom base e then .error .date else .ok (.startingAt e base) := by
  obtain ⟨u, n, anchor⟩ := e
  have hbase : index u base = pure (base.index u) := index_eq hb
  by_cases hu : u = .week
  · subst hu
    cases anchor with
    | none =>
      rw [if_neg (by rintro ⟨-, text, ⟨⟩, -⟩)]
      simp only [startingAt, hbase, pure_bind]
      rfl
    | some text =>
      obtain ⟨hfrom, hto⟩ := daysAhead_bounds text base
      have hspan : 0 ≤ daysAhead text base * daySeconds
          ∧ daysAhead text base * daySeconds ≤ 7 * daySeconds := by
        simp only [daySeconds]
        omega
      simp only [startingAt, addSeconds_eq hb hspan]
      by_cases h : latest.seconds < base.seconds + daysAhead text base * daySeconds
      · rw [if_pos h, if_pos ⟨rfl, text, rfl, h⟩]
        rfl
      -- the day that is counted from is on the calendar, so its week has an index
      · have hlater : OnCalendar (base.addSeconds (daysAhead text base * daySeconds)).seconds :=
          ⟨by rw [Time.seconds_addSeconds]; exact le_trans hb.1 (by omega), not_lt.mp h⟩
        have hindex : index .week (base.addSeconds (daysAhead text base * daySeconds)) = pure _ :=
          index_eq hlater
        rw [if_neg h, if_neg (by rintro ⟨-, _, ⟨⟩, hlt⟩; exact h hlt)]
        show (index .week (base.addSeconds (daysAhead text base * daySeconds)) >>= _) = _
        rw [hindex, pure_bind]
        rfl
  · rw [if_neg fun h => hu h.1]
    cases u with
    | week => exact absurd rfl hu
    | _ =>
      simp only [startingAt, hbase, pure_bind]
      rfl

end Checked

namespace Plan

lemma min_le_landing (a : Advance) (t : LocalTime) :
    ∀ l ∈ a.landing t, min t.seconds latest.seconds ≤ l.seconds := by
  rintro l hl
  cases a with
  | never => cases hl
  | units n u =>
    cases hl
    by_cases hu : u = .timeZone
    · subst hu
      exact min_le_left _ _
    · rw [LocalTime.land_eq hu]
      split
      · have hlater := (index_lt_iff u t (t.index u + max n 1)).mp (by omega)
        exact le_trans (min_le_left _ _) hlater.le
      · exact min_le_right _ _
  | time s =>
    cases hl
    rw [Time.seconds_max, Time.seconds_addSeconds]
    omega

lemma min_le_windowSeed (ws : List Condition) (n : Nat) (t : LocalTime) :
    min t.seconds latest.seconds ≤ (windowSeed ws n t).seconds := by
  induction n generalizing t with
  | zero => exact min_le_left _ _
  | succ n ih =>
    rw [windowSeed]
    split
    · rename_i next hnext
      obtain ⟨w, -, hw⟩ := List.mem_filterMap.mp (List.min?_mem hnext)
      have hle : min t.seconds latest.seconds ≤ next.seconds := by
        split at hw
        · cases hw
        · exact min_le_landing _ t next hw
      calc min t.seconds latest.seconds
          ≤ min next.seconds latest.seconds := le_min hle (min_le_right _ _)
        _ ≤ (windowSeed ws n next).seconds := ih next
    · exact min_le_left _ _

end Plan

namespace Checked

variable {ws : List Condition} {base : LocalTime}

lemma windowLandings_eq (hws : ∀ w ∈ ws, w.Bounded ∧ ∀ e, w ≠ .cadence e)
    (ht : OnCalendar t.seconds) (hlast : t.seconds < latest.seconds) :
    windowLandings ws t = .ok (Plan.windowLandings ws t) := by
  have hlandings : (ws.mapM fun w => if w.accepts t then return none else jump w t)
      = pure (ws.map fun w => if w.accepts t then none else (w.advance t).landing t) := by
    refine mapM_of_ok fun w hw => ?_
    split
    · rfl
    · exact jump_eq ht hlast (hws w hw).1 (Or.inr (hws w hw).2)
  unfold windowLandings
  rw [hlandings, pure_bind, List.filterMap_map]
  rfl

/-- The way from window to window does not stop, unless it leads to the last second. -/
lemma windowSeed_eq (hws : ∀ w ∈ ws, w.Bounded ∧ ∀ e, w ≠ .cadence e)
    (ht : OnCalendar t.seconds) {n : Nat}
    (hseed : (Plan.windowSeed ws n t).seconds < latest.seconds) :
    windowSeed ws n t = .ok (Plan.windowSeed ws n t) := by
  induction n generalizing t with
  | zero => rfl
  | succ n ih =>
    have hlast : t.seconds < latest.seconds := by
      have := Plan.min_le_windowSeed ws (n + 1) t
      omega
    have hlandings : windowLandings ws t = pure (Plan.windowLandings ws t) :=
      windowLandings_eq hws ht hlast
    rw [windowSeed, hlandings, pure_bind]
    rw [Plan.windowSeed] at hseed ⊢
    cases hnext : Advance.earliest? (Plan.windowLandings ws t) with
    | none => rfl
    | some next =>
      rw [hnext] at hseed
      refine ih ?_ hseed
      obtain ⟨w, hw, hl⟩ := List.mem_filterMap.mp (List.min?_mem hnext)
      split at hl
      · cases hl
      · exact Advance.onCalendar_landing (Condition.bounded_advance (hws w hw).1 ht hlast) ht hlast
          next hl

lemma bounded_windows (rules : List Rule) :
    ∀ w ∈ Plan.windows rules, w.Bounded ∧ ∀ e, w ≠ .cadence e := by
  intro w hw
  obtain ⟨r, -, hr⟩ := List.mem_filterMap.mp hw
  cases r <;> cases hr <;> exact ⟨trivial, nofun⟩

/-- **A plan is made without stopping** as long as six days are left on the calendar after the
seed. -/
theorem conditions_eq {rules : List Rule} (hb : OnCalendar base.seconds)
    (hseed : (Plan.windowSeed (Plan.windows rules) Plan.seedSteps base).seconds + 6 * daySeconds
      ≤ latest.seconds) :
    conditions rules base = .ok (Plan.conditions rules base) := by
  unfold conditions
  cases Plan.every? rules with
  | none => rfl
  | some e =>
    have hwindows := bounded_windows rules
    generalize hs : Plan.windowSeed (Plan.windows rules) Plan.seedSteps base = seed at hseed
    have hok : windowSeed (Plan.windows rules) Plan.seedSteps base = pure seed := by
      rw [← hs]
      refine windowSeed_eq hwindows hb ?_
      rw [hs]
      simp only [daySeconds] at hseed
      omega
    -- the seed is not before the base, or it would be on the last second
    have hfrom := Plan.min_le_windowSeed (Plan.windows rules) Plan.seedSteps base
    rw [hs] at hfrom
    have hon : OnCalendar seed.seconds := by
      have hfirst := hb.1
      have hlast := hb.2
      simp only [daySeconds] at hseed
      exact ⟨by omega, by omega⟩
    -- an anchor day is less than a week ahead, and six days are left
    have hinside : ¬ LeavesFrom seed e := by
      rintro ⟨-, anchor, -, hlt⟩
      have hahead := daysAhead_bounds anchor seed
      simp only [daySeconds] at hseed hlt
      omega
    have hcadence : startingAt e seed = pure (.startingAt e seed) := by
      rw [startingAt_eq hon, if_neg hinside]
      rfl
    simp only [hok, hcadence, pure_bind]
    rfl

end Checked

/-! ### Searches that do not stop -/

namespace Search

variable {cs : List Condition} {s : Search}

lemma Recalls.le_of_mem_visited (hs : s.Recalls cs) (ht : Advance.Standing t)
    (limit : Option LocalTime) (n : Nat) :
    ∀ v ∈ visited limit n s t, t ≤ v ∧ v.date.year ≤ 9999 := by
  induction n generalizing s t with
  | zero => simp [visited]
  | succ n ih =>
    rw [hs.visited_succ]
    by_cases hp : isPast limit t = true
    · rw [if_pos hp]
      simp
    rw [if_neg hp]
    obtain ⟨-, hy⟩ := isPast_eq_false.mp (Bool.eq_false_iff.mpr hp)
    refine List.forall_mem_cons.mpr ⟨⟨le_refl _, hy⟩, ?_⟩
    have hcases := Step.ofConditions_cases cs t
    cases hstep : Step.ofConditions cs t with
    | found | exhausted => simp
    | jump next =>
      rw [hstep] at hcases
      obtain ⟨c, -, -, hland⟩ := hcases
      obtain ⟨hstand, hle⟩ := c.lands_advance (ht.resolve_right (by omega)) hy next hland
      intro v hv
      obtain ⟨hnext, hyear⟩ := ih (hs.look t) hstand v hv
      exact ⟨le_trans hle hnext, hyear⟩

lemma bounded_conditions (D : Zone.Database) (text : String) (seed : LocalTime) :
    ∀ c ∈ Plan.conditions ((Parsed.ofText D text).rules.map WrittenRule.rule) seed, c.Bounded := by
  intro c hc
  cases Plan.ofRules_conditions _ seed _ hc with
  | equals | oneOf | within | withinAny | pin => trivial
  | cadence hr seed =>
    obtain ⟨w, hw, hrule⟩ := List.mem_map.mp hr
    have hformed := Parsed.formed_rules D text w hw
    rw [hrule] at hformed
    cases hformed with
    | every _ hinterval =>
      have hword : (_ : Int) ≤ Text.wordMax := Int.ofNat_le.mpr hinterval
      exact ⟨le_max_right _ _, max_le hword (by decide)⟩

/-- **No search for the rules of a text stops** that starts after the week that the calendar starts
in: at every time that it looks at the jump of every condition is on the calendar. -/
theorem jump_of_visited (D : Zone.Database) (text : String) (seed : LocalTime)
    (earlier : List Query) (limit : Option LocalTime) (ceiling : Nat) {base : LocalTime}
    (hb : earliest.index .week < base.index .week) :
    let cs := Plan.conditions ((Parsed.ofText D text).rules.map WrittenRule.rule) seed
    ∀ v ∈ visited limit ceiling ((fresh cs).after earlier) ((base.startOf .second).addSeconds 1),
      ∀ c ∈ cs, Checked.jump c v = .ok ((c.advance v).landing v) := by
  intro cs v hv c hc
  have hs : ((fresh cs).after earlier).Recalls cs := (recalls_fresh cs).after earlier
  have hstart : (base.startOf .second).addSeconds 1 = Time.ofSeconds (base.seconds + 1) := by
    rw [startOf_eq]
    rfl
  rw [hstart] at hv
  obtain ⟨hle, hyear⟩ := hs.le_of_mem_visited (Or.inl (Time.isWhole_ofSeconds _)) limit ceiling v hv
  have hlater : base ≤ v := by
    have := Time.seconds_le hle
    rw [Time.seconds_ofSeconds] at this
    exact Or.inl (by omega)
  have hweek : earliest.index .week < v.index .week := lt_of_lt_of_le hb (index_mono .week hlater)
  have hreach : v.PastFirstWeek := ⟨hweek, hyear⟩
  exact Checked.jump_eq hreach.inReach.onCalendar (seconds_lt_latest hyear)
    (bounded_conditions D text seed c hc) (Or.inl hweek)

end Search

end Recurrence
