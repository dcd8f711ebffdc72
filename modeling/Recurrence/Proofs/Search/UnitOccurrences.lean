import Recurrence.Proofs.Calendar.Shifts
import Recurrence.Proofs.Resolution.Months
import Recurrence.Proofs.Rule.Checks
import Recurrence.Proofs.Search.Walks

/-!
How often an occurrence comes in a unit of the cadence. Every unit that a second keeps when units of
the cadence are added is fixed in a plan: by a value of the rules, by a pin under the finest of
these, or by a pin under the cadence. What is fixed is the same for all times of a month, and but
for the day for all times, so that in one unit of the cadence there is one time.

Main statement: `Plan.index_ne_of_accepted`.
-/

namespace Recurrence

open LocalTime

variable {s t : LocalTime} {u v : TimeUnit}

lemma LocalTime.eq_of_kept (hs : s.IsWhole) (ht : t.IsWhole) (hi : s.index u = t.index u)
    (hk : ∀ v ∈ kept u, s.part v = t.part v) : s = t := by
  have hseconds : s.seconds = t.seconds := by
    -- the same day at the same time of day
    have hclock (h : s.secondOfDay = t.secondOfDay) (hd : s.date.number = t.date.number) :
        s.seconds = t.seconds := by
      rw [← s.midnight_date, ← t.midnight_date, date_eq hd, h]
    -- the index and what is kept make up the second
    cases u with
    | second | timeZone => exact hi
    | minute =>
      have h₁ := hk .second (by decide)
      simp only [index, part, secondOfDay, daySeconds] at hi h₁
      omega
    | hour =>
      have h₁ := hk .second (by decide)
      have h₂ := hk .minute (by decide)
      simp only [index, part, secondOfDay, daySeconds] at hi h₁ h₂
      omega
    | day =>
      exact hclock (secondOfDay_eq_iff.2
        ⟨hk .hour (by decide), hk .minute (by decide), hk .second (by decide)⟩) hi
    | week =>
      refine hclock (secondOfDay_eq_iff.2
        ⟨hk .hour (by decide), hk .minute (by decide), hk .second (by decide)⟩) ?_
      have h₁ := hk .week (by decide)
      simp only [index, part, Date.weekday] at hi h₁
      omega
    -- a month with the day and the clock, and a year with the month too
    | month =>
      exact seconds_eq_of_month hi (hk .day (by decide)) (secondOfDay_eq_iff.2
        ⟨hk .hour (by decide), hk .minute (by decide), hk .second (by decide)⟩)
    | year =>
      have h₁ := hk .month (by decide)
      refine seconds_eq_of_month ?_ (hk .day (by decide)) (secondOfDay_eq_iff.2
        ⟨hk .hour (by decide), hk .minute (by decide), hk .second (by decide)⟩)
      simp only [index, part] at hi h₁ ⊢
      omega
  exact Time.eq_iff.2 ⟨hseconds, hs.trans ht.symm⟩

/-! ### Fixed units -/

namespace Condition

/-- The condition leaves the unit one value in a month. -/
inductive Fixes (u : TimeUnit) : Condition → Prop
  | equals (text : String) : Fixes u (.equals u text)
  | pin (value : Int) : Fixes u (.pin u value)

/-- The times have the same month, if that counts for the unit. -/
def Comparable (u : TimeUnit) (s t : LocalTime) : Prop :=
  u = .day → s.date.year = t.date.year ∧ s.date.month = t.date.month

lemma Fixes.part_eq {c : Condition} (hc : c.Fixes u) (hs : c.accepts s = true)
    (ht : c.accepts t = true) (hmonth : Comparable u s t) : s.part u = t.part u := by
  cases hc with
  | equals text =>
    have htext : Resolution.ofText u s.date.year s.date.month text
        = Resolution.ofText u t.date.year t.date.month text := by
      by_cases hu : u = .day
      · rw [(hmonth hu).1, (hmonth hu).2]
      · exact Resolution.ofText_eq_of_ne_day hu ..
    have hsv : Resolution.ofText u s.date.year s.date.month text = .value (s.part u) :=
      of_decide_eq_true hs
    have htv : Resolution.ofText u t.date.year t.date.month text = .value (t.part u) :=
      of_decide_eq_true ht
    refine Resolution.value.inj ?_
    calc Resolution.value (s.part u)
        = Resolution.ofText u s.date.year s.date.month text := hsv.symm
      _ = Resolution.ofText u t.date.year t.date.month text := htext
      _ = .value (t.part u) := htv
  | pin value =>
    have hmax : u.maxValueIn s.date.year s.date.month = u.maxValueIn t.date.year t.date.month := by
      by_cases hu : u = .day
      · rw [(hmonth hu).1, (hmonth hu).2]
      · rw [TimeUnit.maxValueIn_of_ne_day hu, TimeUnit.maxValueIn_of_ne_day hu]
    have hsv : s.part u = pinned u value s := of_decide_eq_true hs
    have htv : t.part u = pinned u value t := of_decide_eq_true ht
    rw [hsv, htv, pinned, pinned, hmax]

end Condition

namespace Plan

variable {rules : List Rule} {base : LocalTime} {value : TimeUnit → Int} {blocked taken : UnitSet}
  {us : List TimeUnit} {e : Every}

/-- Some of the conditions leaves the unit one value in a month. -/
def Fixed (cs : List Condition) (u : TimeUnit) : Prop := ∃ c ∈ cs, c.Fixes u

lemma fixed_of_taken (h : (addPins value blocked taken us).2.has u = true) :
    taken.has u = true ∨ u ∈ us ∧ Fixed (addPins value blocked taken us).1 u := by
  induction us generalizing taken with
  | nil => exact Or.inl h
  | cons v us ih =>
    rw [addPins] at h ⊢
    split at h
    · rename_i hfree
      rw [if_pos hfree]
      by_cases hv : v = u
      · exact Or.inr ⟨hv ▸ List.mem_cons_self, _, List.mem_cons_self, hv ▸ .pin _⟩
      · rcases ih h with htaken | ⟨hmem, c, hc, hfix⟩
        · simp only [UnitSet.has_union, UnitSet.has_single, hv, decide_false, Bool.false_and,
            Bool.or_false] at htaken
          exact Or.inl htaken
        · exact Or.inr ⟨List.mem_cons_of_mem _ hmem, c, List.mem_cons_of_mem _ hc, hfix⟩
    · rename_i hfree
      rw [if_neg hfree]
      exact (ih h).imp_right fun h => ⟨List.mem_cons_of_mem _ h.1, h.2⟩

lemma fixed_addPins (hu : u ∈ us) (hweek : .week ∉ us) (hday : u = .day → taken.has .week = false) :
    taken.has u = true ∨ Fixed (addPins value ∅ taken us).1 u := by
  induction us generalizing taken with
  | nil => cases hu
  | cons v us ih =>
    by_cases htaken : taken.has u = true
    · exact Or.inl htaken
    have hrest : .week ∉ us := fun h => hweek (List.mem_cons_of_mem _ h)
    rw [addPins]
    rcases List.mem_cons.1 hu with rfl | hmem
    -- nothing blocks the unit, but for a day that the week decides
    · have hfree : isFree u (taken ∪ ∅) = true := by
        simp only [isFree, UnitSet.has_union, UnitSet.has_empty, Bool.or_false, htaken]
        by_cases hd : u = .day
        · simp [hday hd]
        · simp [hd]
      rw [if_pos hfree]
      exact Or.inr ⟨_, List.mem_cons_self, .pin _⟩
    · split
      -- another unit is pinned first, which is not the week
      · by_cases hv : v = u
        · exact Or.inr ⟨_, List.mem_cons_self, hv ▸ .pin _⟩
        have hv' : v ≠ .week := fun h => hweek (h ▸ List.mem_cons_self)
        have hday' : u = .day → (taken ∪ UnitSet.single v).has .week = false := by
          simpa [hv'] using hday
        rcases ih hmem hrest hday' with h | ⟨c, hc, hfix⟩
        · simp [hv, htaken] at h
        · exact Or.inr ⟨c, List.mem_cons_of_mem _ hc, hfix⟩
      · exact ih hmem hrest hday

lemma Fixed.mono {cs ds : List Condition} (h : Fixed cs u) (hsub : ∀ c ∈ cs, c ∈ ds) :
    Fixed ds u := h.imp fun _ h => ⟨hsub _ h.1, h.2⟩

lemma equals_of_fixedUnits (hlist : ∀ c, .oneOf c ∉ rules) (h : (fixedUnits rules).has u = true) :
    ∃ text, .equals u text ∈ rules := by
  simp only [fixedUnits, UnitSet.has_unions, List.any_map, List.any_eq_true, List.mem_filter] at h
  obtain ⟨r, ⟨hr, hfixed⟩, hu⟩ := h
  cases r with
  | equals v text =>
    have hv : v = u := by
      have : (UnitSet.single v).has u = true := hu
      simp only [UnitSet.has_single, Bool.and_eq_true, decide_eq_true_eq] at this
      exact this.1
    exact ⟨text, hv ▸ hr⟩
  | oneOf c => exact absurd hr (hlist c)
  | every _ | within _ | withinAny _ | zone _ => cases hfixed

lemma mem_fixedValues {text : String} (h : .equals u text ∈ rules) :
    .equals u text ∈ fixedValues rules := List.mem_filterMap.2 ⟨_, h, rfl⟩

lemma every?_eq (hone : (RuleSet.everys rules).length ≤ 1) (he : .every e ∈ rules) :
    every? rules = some e := by
  have hmem : e ∈ RuleSet.everys rules := List.mem_filterMap.2 ⟨_, he, rfl⟩
  have hevery : RuleSet.everys rules = [e] := by
    rcases h : RuleSet.everys rules with _ | ⟨f, _ | ⟨g, fs⟩⟩
    · rw [h] at hmem; cases hmem
    · rw [h] at hmem; rw [List.mem_singleton.1 hmem]
    · rw [h] at hone; simp at hone
  show (RuleSet.everys rules).getLast? = some e
  rw [hevery]
  rfl

/-- A unit that is taken after the minimum pins is one that rules fix, or has a pin; then it is
finer than the finest of these, and the cadence is not. -/
lemma fixed_of_minimumPins (h : (minimumPins rules).2.has u = true) :
    (fixedUnits rules).has u = true ∨ u ∈ pinnable ∧ Fixed (minimumPins rules).1 u
      ∧ ∃ finest, u.isFinerThan finest = true
        ∧ ∀ e ∈ every? rules, e.unit.isFinerThan finest = false := by
  cases hf : (fixedUnits rules).finest? with
  | none =>
    simp only [minimumPins, hf] at h
    exact Or.inl h
  | some finest =>
    simp only [minimumPins, hf] at h ⊢
    split at h
    · exact Or.inl h
    · rename_i hevery
      rw [if_neg hevery]
      refine (fixed_of_taken h).imp_right fun htaken => ?_
      obtain ⟨hmem, hfix⟩ := htaken
      rw [List.mem_filter] at hmem
      refine ⟨hmem.1, hfix, finest, hmem.2, fun e he => ?_⟩
      rw [Option.mem_def] at he
      simpa [he] using hevery

lemma equals_week_of_minimumPins (hlist : ∀ c, .oneOf c ∉ rules)
    (h : (minimumPins rules).2.has .week = true) : ∃ text, .equals .week text ∈ rules := by
  rcases fixed_of_minimumPins h with hfixed | ⟨hmem, -⟩
  · exact equals_of_fixedUnits hlist hfixed
  · exact absurd hmem (by decide)

lemma equals_day_of_minimumPins (hlist : ∀ c, .oneOf c ∉ rules) (he : every? rules = some e)
    (hweek : e.unit = .week) (h : (minimumPins rules).2.has .day = true) :
    ∃ text, .equals .day text ∈ rules := by
  rcases fixed_of_minimumPins h with hfixed | ⟨-, -, finest, hfiner, hevery⟩
  · exact equals_of_fixedUnits hlist hfixed
  · have hcoarse := hevery e he
    rw [hweek] at hcoarse
    cases finest <;> simp [TimeUnit.isFinerThan, TimeUnit.rank?] at hfiner hcoarse

/-- The units that have a pin under a cadence if they are not fixed by then. -/
def under (e : Every) : List TimeUnit := pinnable.filter fun u => u.isFinerThan e.unit

lemma week_not_mem_under (e : Every) : .week ∉ under e := fun h =>
  absurd (List.mem_filter.1 h).1 (by decide)

lemma mem_under_of_kept (hu : u ∈ kept e.unit) (hw : u ≠ .week) : u ∈ under e := by
  unfold under
  revert hu hw
  generalize e.unit = v
  cases u <;> cases v <;> decide

def pinsUnder (e : Every) (seed : LocalTime) (fixed : UnitSet) : List Condition × UnitSet :=
  addPins (fun u => seed.part u) ∅ fixed (under e)

lemma everyConditions_eq (e : Every) (seed : LocalTime) (fixed : UnitSet) :
    everyConditions e seed fixed = .cadence (.startingAt e seed) :: ((pinsUnder e seed fixed).1
      ++ if e.unit = .week ∧ e.anchor = none ∧ (pinsUnder e seed fixed).2.has .day = false
          ∧ (pinsUnder e seed fixed).2.has .week = false then
        [Condition.pin .week (seed.part .week)]
      else []) := rfl

lemma conditions_of_every (he : every? rules = some e) (base : LocalTime) :
    conditions rules base = fixedValues rules ++ (minimumPins rules).1
      ++ everyConditions e (windowSeed (windows rules) seedSteps base) (minimumPins rules).2
      ++ windows rules := by
  unfold conditions
  rw [he]

section

variable (he : every? rules = some e) (hlist : ∀ c, .oneOf c ∉ rules)

include he

lemma mem_conditions {c : Condition} {base : LocalTime}
    (h : c ∈ everyConditions e (windowSeed (windows rules) seedSteps base) (minimumPins rules).2) :
    c ∈ conditions rules base := by
  rw [conditions_of_every he]
  exact List.mem_append_left _ (List.mem_append_right _ h)

include hlist

lemma fixed_of_taken_before (h : (minimumPins rules).2.has u = true) (base : LocalTime) :
    Fixed (conditions rules base) u := by
  rw [conditions_of_every he, List.append_assoc]
  rcases fixed_of_minimumPins h with hfixed | ⟨-, hpin, -⟩
  · obtain ⟨text, htext⟩ := equals_of_fixedUnits hlist hfixed
    exact ⟨_, List.mem_append_left _ (List.mem_append_left _ (mem_fixedValues htext)), .equals text⟩
  · exact hpin.mono fun c hc => List.mem_append_left _ (List.mem_append_right _ hc)

/-- **Under a cadence every unit is fixed,** unless the weekday decides the day. -/
lemma fixed_under (hu : u ∈ under e) (hday : u = .day → ∀ text, .equals .week text ∉ rules)
    (base : LocalTime) : Fixed (conditions rules base) u := by
  have hfree : u = .day → (minimumPins rules).2.has .week = false := by
    intro hd
    by_contra hweek
    obtain ⟨text, htext⟩ := equals_week_of_minimumPins hlist (Bool.not_eq_false _ ▸ hweek)
    exact hday hd text htext
  set seed := windowSeed (windows rules) seedSteps base
  have hpins : (minimumPins rules).2.has u = true
      ∨ Fixed (addPins (fun u => seed.part u) ∅ (minimumPins rules).2 (under e)).1 u :=
    fixed_addPins hu (week_not_mem_under e) hfree
  rcases hpins with htaken | hpin
  · exact fixed_of_taken_before he hlist htaken base
  · refine hpin.mono fun c hc => mem_conditions he ?_
    rw [everyConditions_eq]
    exact List.mem_cons_of_mem _ (List.mem_append_left _ hc)

lemma fixed_week (hweek : e.unit = .week) (hanchor : e.anchor = none)
    (hday : ∀ text, .equals .day text ∉ rules) (base : LocalTime) :
    Fixed (conditions rules base) .week := by
  set seed := windowSeed (windows rules) seedSteps base
  set pins := pinsUnder e seed (minimumPins rules).2 with hpins
  have hd : pins.2.has .day = false := by
    by_contra h
    rcases fixed_of_taken (Bool.not_eq_false _ ▸ h) with htaken | ⟨hmem, -⟩
    · obtain ⟨text, htext⟩ := equals_day_of_minimumPins hlist he hweek htaken
      exact hday text htext
    · rw [under, List.mem_filter, hweek] at hmem
      exact absurd hmem.2 (by decide)
  by_cases hw : pins.2.has .week = true
  · rcases fixed_of_taken hw with htaken | ⟨hmem, -⟩
    · exact fixed_of_taken_before he hlist htaken base
    · exact absurd hmem (week_not_mem_under e)
  · have hpin : Condition.pin .week (seed.part .week)
        ∈ everyConditions e seed (minimumPins rules).2 := by
      rw [everyConditions_eq, if_pos ⟨hweek, hanchor, hd, Bool.not_eq_true _ ▸ hw⟩]
      simp
    exact ⟨_, mem_conditions he hpin, .pin _⟩

end

lemma part_week_eq_of_anchor {c : Cadence} (hweek : c.unit = .week) (hanchor : c.anchor ≠ none)
    (hs : c.accepts s = true) (ht : c.accepts t = true) : s.part .week = t.part .week := by
  obtain ⟨text, htext⟩ := Option.ne_none_iff_exists'.1 hanchor
  have hres : c.anchorIn s = c.anchorIn t := by
    rw [Cadence.anchorIn, Cadence.anchorIn, htext, Option.map_some, Option.map_some,
      Resolution.ofText_eq_of_ne_day (by rw [hweek]; decide)]
  unfold Cadence.accepts at hs ht
  rw [← hres] at ht
  cases hc : c.anchorIn s with
  | none => simp [Cadence.anchorIn, htext] at hc
  | some r =>
    rw [hc] at hs ht
    cases r with
    | value a =>
      simp only [hweek, if_true, Bool.and_eq_true, decide_eq_true_eq] at hs ht
      rw [hs.1, ht.1]
    | noMatch => cases hs
    | invalid => cases hs

lemma dvd_of_accepts {c : Cadence} (hanchor : c.anchor = none) (hs : c.accepts s = true)
    (ht : c.accepts t = true) : c.interval ∣ s.index c.unit - t.index c.unit := by
  have hoffset {r : LocalTime} (h : c.accepts r = true) : c.offset r = 0 := by
    rw [Cadence.accepts, Cadence.anchorIn, hanchor] at h
    exact of_decide_eq_true h
  have hdvd := Int.dvd_sub (Int.dvd_of_emod_eq_zero (hoffset hs))
    (Int.dvd_of_emod_eq_zero (hoffset ht))
  rwa [show s.index c.unit - c.phase - (t.index c.unit - c.phase)
    = s.index c.unit - t.index c.unit by omega] at hdvd

/-- **At most one occurrence comes in a unit of the cadence.** Of rules without lists that stand
together, two whole seconds that the plan accepts are in different units of the cadence; without an
anchor these are intervals apart. A weekday does not go with months and years here, nor a day with
weeks. -/
theorem index_ne_of_accepted {D : Zone.Database} (hrules : RuleSet.conflict? D rules = none)
    (he : .every e ∈ rules) (hlist : ∀ c, .oneOf c ∉ rules)
    (hweek : e.unit = .month ∨ e.unit = .year → ∀ text, .equals .week text ∉ rules)
    (hday : e.unit = .week → ∀ text, .equals .day text ∉ rules) {base : LocalTime}
    (hs : s.IsWhole) (ht : t.IsWhole) (hst : s ≠ t) (hsa : Accepted (conditions rules base) s)
    (hta : Accepted (conditions rules base) t) :
    s.index e.unit ≠ t.index e.unit
      ∧ (e.anchor = none → (e.interval : Int) ∣ s.index e.unit - t.index e.unit) := by
  have hstands := RuleSet.conflict?_eq_none_iff.1 hrules
  have hevery := every?_eq hstands.cadences he
  set c := Cadence.startingAt e (windowSeed (windows rules) seedSteps base)
  have hcadence : .cadence c ∈ conditions rules base :=
    mem_conditions hevery (by rw [everyConditions_eq]; exact List.mem_cons_self)
  have hcs : c.accepts s = true := hsa _ hcadence
  have hct : c.accepts t = true := hta _ hcadence
  constructor
  · intro hi
    have heq {v : TimeUnit} (hv : v ∈ under e) (hmonth : Condition.Comparable v s t) :
        s.part v = t.part v := by
      obtain ⟨d, hd, hfix⟩ := fixed_under hevery hlist hv (fun hd => hweek (by
        rw [hd, under, List.mem_filter] at hv
        revert hv
        cases e.unit <;> decide)) base
      exact hfix.part_eq (hsa d hd) (hta d hd) hmonth
    refine hst (eq_of_kept hs ht hi fun v hv => ?_)
    by_cases hvw : v = .week
    · subst hvw
      have hunit : e.unit = .week := by
        revert hv
        cases e.unit <;> decide
      by_cases hanchor : e.anchor = none
      · obtain ⟨d, hd, hfix⟩ := fixed_week hevery hlist hunit hanchor (hday hunit) base
        exact hfix.part_eq (hsa d hd) (hta d hd) nofun
      · exact part_week_eq_of_anchor (c := c) hunit hanchor hcs hct
    · -- the day is fixed in a month, which is the unit of the cadence or is fixed in the year
      refine heq (mem_under_of_kept hv hvw) fun hd => ?_
      have hunit : e.unit = .month ∨ e.unit = .year := by
        rw [hd] at hv
        revert hv
        cases e.unit <;> decide
      rcases hunit with hunit | hunit
      · rw [hunit] at hi
        exact index_month_eq hi
      · have hmonth :=
          heq (v := .month) (mem_under_of_kept (by rw [hunit]; decide) (by decide)) nofun
        rw [hunit] at hi
        exact ⟨hi, hmonth⟩
  · intro hanchor
    have hinterval : c.interval = e.interval := by
      have hpos : e.interval ≠ 0 := by
        intro h0
        have hconflict := hstands.cadence e (List.mem_filterMap.2 ⟨_, he, rfl⟩)
        simp [RuleSet.everyConflict, h0] at hconflict
      show max (e.interval : Int) 1 = e.interval
      omega
    have hdvd := dvd_of_accepts (c := c) hanchor hcs hct
    rwa [hinterval] at hdvd

/-- Every second month in the windows from nine to five, at half past, from 1 January 2024 on. -/
theorem index_ne_of_accepted_months :
    let rules : List Rule := [.every ⟨.month, 2, none⟩, .equals .minute "30",
      .within ⟨UnitMap.ofList [(.hour, ("9", "17"))]⟩]
    let base : LocalTime := Time.ofSeconds 1704067200
    let s : LocalTime := Time.ofSeconds 1704101400
    let t : LocalTime := Time.ofSeconds 1709285400
    RuleSet.conflict? .empty rules = none ∧ Accepted (conditions rules base) s
      ∧ Accepted (conditions rules base) t ∧ s ≠ t
      ∧ (2 : Int) ∣ s.index .month - t.index .month := by
  intro rules base s t
  have hrules : RuleSet.conflict? .empty rules = none := by decide +kernel
  have hs : Accepted (conditions rules base) s := by unfold Accepted; decide +kernel
  have ht : Accepted (conditions rules base) t := by unfold Accepted; decide +kernel
  have hst : s ≠ t := by decide
  have hapart := index_ne_of_accepted (e := ⟨.month, 2, none⟩) hrules (by simp [rules])
    (by simp [rules]) (by simp [rules]) (by simp [rules]) (Time.isWhole_ofSeconds _)
    (Time.isWhole_ofSeconds _) hst hs ht
  exact ⟨hrules, hs, ht, hst, hapart.2 rfl⟩

end Plan

end Recurrence
