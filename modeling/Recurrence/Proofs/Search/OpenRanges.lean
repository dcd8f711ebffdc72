import Recurrence.Proofs.Resolution.Extents
import Recurrence.Proofs.Rule.Forms
import Recurrence.Proofs.Search.Intervals

/-!
Ranges with one side. The other side is written out, unit by unit, as the first or the last that the
unit can be. It is read in a year and a month of its own, and still it never refuses a time.

Main statements: `sideHolds_given`, `sideHolds_open`, `accepts_halfOpen_iff` and
`Rule.open_ranges_exact`.
-/

namespace Recurrence

/-! ### What values stand for at a time -/

namespace Values

/-- The number that the text of a unit stands for in a month, cut to the range of the unit there. -/
def numberIn (vs : Values) (year month : Int) (u : TimeUnit) : Option Int :=
  (vs.lookup u).bind fun text =>
    (Resolution.ofText u year month text).value?.map (u.clampIn year month)

/-- The year of the values, or that of the time where they have none. -/
def yearAt (vs : Values) (t : LocalTime) : Int :=
  (vs.numberIn t.date.year t.date.month .year).getD t.date.year

/-- The month of the values, or that of the time where they have none. -/
def monthAt (vs : Values) (t : LocalTime) : Int :=
  (vs.numberIn t.date.year t.date.month .month).getD t.date.month

/-- In their own year and month all values stand for numbers, and `n` are these. -/
def StandFor (vs : Values) (t : LocalTime) (n : TimeUnit → Int) : Prop :=
  ∀ u ∈ vs.units.units, vs.numberIn (vs.yearAt t) (vs.monthAt t) u = some (n u)

end Values

namespace Range

open LocalTime TimeUnit

variable {r : Range} {given : Side} {vs : Values} {u : TimeUnit} {t : LocalTime}

/-! ### The sides of a range, apart -/

namespace Side

def other : Side → Side
  | start => stop
  | stop => start

def Admits (parts bound : List Int) : Side → Prop
  | start => ¬ parts < bound
  | stop => ¬ bound < parts

/-- Both bounds of a unit, given the one on a side and the other. -/
def bounds (given other : String) : Side → String × String
  | start => (given, other)
  | stop => (other, given)

def openText (u : TimeUnit) : Side → String
  | start => Rule.openStart u
  | stop => Rule.openEnd u

@[simp] lemma text_bounds (given : Side) (a b : String) : given.text (given.bounds a b) = a := by
  cases given <;> rfl

@[simp] lemma text_other_bounds (given : Side) (a b : String) :
    given.other.text (given.bounds a b) = b := by
  cases given <;> rfl

end Side

/-- The bounds on a side have values, and the parts of the time are on the inner side of them. -/
def SideHolds (r : Range) (side : Side) (t : LocalTime) : Prop :=
  ∃ n : TimeUnit → Int, (∀ u ∈ r.bounded, r.sideValue side t u = some (n u))
    ∧ side.Admits (r.bounded.map t.part) (r.bounded.map n)

lemma between_iff_sides (side : Side) :
    r.Between t ↔ r.SideHolds side t ∧ r.SideHolds side.other t := by
  have hboth : r.Between t ↔ r.SideHolds .start t ∧ r.SideHolds .stop t := by
    constructor
    · rintro ⟨low, high, hval, hlow, hhigh⟩
      exact ⟨⟨low, fun u hu => (hval u hu).1, hlow⟩, ⟨high, fun u hu => (hval u hu).2, hhigh⟩⟩
    · rintro ⟨⟨low, hl, hlow⟩, ⟨high, hh, hhigh⟩⟩
      exact ⟨low, high, fun u hu => ⟨hl u hu, hh u hu⟩, hlow, hhigh⟩
  cases side with
  | start => exact hboth
  | stop => exact hboth.trans and_comm

/-! ### A range that is open on one side -/

def halfOpen (given : Side) (vs : Values) : Range :=
  ⟨UnitMap.ofList (vs.map fun p => (p.1, given.bounds p.2 (given.other.openText p.1)))⟩

lemma get?_halfOpen (h : vs.Formed) (given : Side) (u : TimeUnit) :
    (halfOpen given vs).bounds.get? u
      = (vs.lookup u).map fun text => given.bounds text (given.other.openText u) := by
  have hkeys : (vs.map fun p => (p.1, given.bounds p.2 (given.other.openText p.1))).map Prod.fst
      = vs.map Prod.fst := by
    rw [List.map_map]
    rfl
  rw [halfOpen, UnitMap.get?_ofList (hkeys ▸ h.nodup)]
  exact Values.lookup_map (fun u text => given.bounds text (given.other.openText u)) vs u

lemma bounded_halfOpen (h : vs.Formed) (hw : vs.lookup .week = none) (given : Side) :
    (halfOpen given vs).bounded = vs.units.units := by
  have hclock : clockOrder = descending.filter (· ≠ .week) := by decide
  rw [bounded, UnitSet.units, hclock, List.filter_filter]
  apply List.filter_congr
  intro u hu
  have hzone := (mem_descending_iff u).mp hu
  rw [get?_halfOpen h, Option.isSome_map, Values.has_units]
  by_cases huw : u = .week
  · subst huw
    simp [hw]
  · simp [huw, hzone]

lemma boundIn_given (h : vs.Formed) (y m : Int) (u : TimeUnit) :
    (halfOpen given vs).boundIn given y m u = vs.numberIn y m u := by
  rw [boundIn, get?_halfOpen h, Values.numberIn]
  cases vs.lookup u <;> simp

lemma sideValue_given (h : vs.Formed) (t : LocalTime) (u : TimeUnit) :
    (halfOpen given vs).sideValue given t u = vs.numberIn (vs.yearAt t) (vs.monthAt t) u := by
  simp only [sideValue, sideYear, sideMonth, boundIn_given h, Values.yearAt, Values.monthAt]

/-- **On the side of the values a range asks for their numbers**, in their own year and month. -/
theorem sideHolds_given (h : vs.Formed) (hw : vs.lookup .week = none) :
    (halfOpen given vs).SideHolds given t ↔ ∃ n, vs.StandFor t n
      ∧ given.Admits (vs.units.units.map t.part) (vs.units.units.map n) := by
  simp only [SideHolds, bounded_halfOpen h hw, sideValue_given h, Values.StandFor]

/-! ### The open side -/

lemma ofText_number (hu : u ≠ .timeZone) {n : Int} (h₁ : u.minValue ≤ n) (h₂ : n ≤ u.maxValue)
    (y m : Int) : Resolution.ofText u y m (toString n) = .value n := by
  have hmin : 0 ≤ u.minValue := by cases u <;> decide
  obtain ⟨k, rfl⟩ := Int.eq_ofNat_of_zero_le (hmin.trans h₁)
  have htext : toString (k : Int) = toString k := rfl
  rw [htext, Resolution.ofText_toString hu, Resolution.ofNumber, if_pos ⟨h₁, h₂⟩]

lemma ofText_openText (side : Side) (hu : u ≠ .timeZone) (y : Int) {m : Int}
    (hm : 1 ≤ m ∧ m ≤ 12) :
    Resolution.ofText u y m (side.openText u) = .value (side.edge u y m) := by
  cases side with
  | start => exact ofText_number hu le_rfl u.minValue_le_maxValue y m
  | stop =>
    by_cases hd : u = .day
    · subst hd
      have hedge : Resolution.ofText .day y m "Last"
          = Resolution.ofEdge .day y m ⟨.last, false, none⟩ := rfl
      have hmax := TimeUnit.day.minValue_le_maxValueIn y hm
      show Resolution.ofText .day y m "Last" = _
      rw [hedge, Resolution.ofEdge, if_neg (by simp), if_neg (by omega)]
      simp only [EdgeText.shift, Int.add_zero]
      rw [clampIn_eq hmax le_rfl]
      rfl
    · have htext : Side.stop.openText u = toString u.maxValue := by
        cases u <;> first | rfl | exact absurd rfl hd
      rw [htext, Side.edge, maxValueIn_of_ne_day hd]
      exact ofText_number hu u.minValue_le_maxValue le_rfl y m

lemma clampIn_edge (side : Side) (u : TimeUnit) (y : Int) {m : Int} (hm : 1 ≤ m ∧ m ≤ 12) :
    u.clampIn y m (side.edge u y m) = side.edge u y m := by
  have hle := u.minValue_le_maxValueIn y hm
  cases side with
  | start => exact clampIn_eq le_rfl hle
  | stop => exact clampIn_eq hle le_rfl

lemma boundIn_open (h : vs.Formed) (hs : (vs.lookup u).isSome = true) (y : Int) {m : Int}
    (hm : 1 ≤ m ∧ m ≤ 12) :
    (halfOpen given vs).boundIn given.other y m u = some (given.other.edge u y m) := by
  obtain ⟨text, htext⟩ := Option.isSome_iff_exists.mp hs
  have hu : u ≠ .timeZone := by
    rintro rfl
    rw [h.zone] at htext
    cases htext
  rw [boundIn, get?_halfOpen h, htext]
  simp only [Option.map_some, Option.bind_some, Side.text_other_bounds]
  rw [ofText_openText given.other hu y hm]
  exact congrArg some (clampIn_edge given.other u y hm)

lemma getD_boundIn_open (h : vs.Formed) (given : Side) (u : TimeUnit) (y : Int) {m : Int}
    (hm : 1 ≤ m ∧ m ≤ 12) (x : Int) : ((halfOpen given vs).boundIn given.other y m u).getD x
      = if (vs.lookup u).isSome = true then given.other.edge u y m else x := by
  by_cases hs : (vs.lookup u).isSome = true
  · rw [boundIn_open h hs y hm, if_pos hs]
    rfl
  · have hnone : (halfOpen given vs).bounds.get? u = none := by
      rw [get?_halfOpen h, Option.not_isSome_iff_eq_none.mp hs]
      rfl
    rw [boundIn_eq_none hnone, if_neg hs]
    rfl

lemma sideMonth_open (h : vs.Formed) (given : Side) (t : LocalTime) :
    1 ≤ (halfOpen given vs).sideMonth given.other t
      ∧ (halfOpen given vs).sideMonth given.other t ≤ 12 := by
  have hf := t.date.field_bounds
  rw [sideMonth, getD_boundIn_open h given _ _ ⟨hf.1, hf.2.1⟩]
  split
  · cases given <;> simp [Side.other, Side.edge, maxValueIn, minValue, maxValue]
  · omega

/-- The last day of an open side is not before that of a time in the same year: either the month is
open too, and then it is December, or it is the month of the time. -/
lemma day_le_open (h : vs.Formed)
    (hyear : (vs.lookup .year).isSome = true → t.part .year = TimeUnit.year.maxValue) :
    t.part .day ≤ TimeUnit.day.maxValueIn ((halfOpen .start vs).sideYear .stop t)
      ((halfOpen .start vs).sideMonth .stop t) := by
  have hf := t.date.field_bounds
  have hy := getD_boundIn_open h .start .year t.date.year ⟨hf.1, hf.2.1⟩ t.date.year
  have hm := getD_boundIn_open h .start .month t.date.year ⟨hf.1, hf.2.1⟩ t.date.month
  apply day_le_maxValueIn
  rw [sideYear, sideMonth]
  by_cases hmonth : (vs.lookup .month).isSome = true
  · rw [if_pos hmonth] at hm
    exact Or.inl hm
  · rw [if_neg hmonth] at hm
    refine Or.inr ⟨?_, hm⟩
    by_cases hs : (vs.lookup .year).isSome = true
    · rw [if_pos hs] at hy
      exact hy.trans (hyear hs).symm
    · rw [if_neg hs] at hy
      exact hy

lemma isSome_lookup_of_mem_bounded (h : vs.Formed) (hu : u ∈ (halfOpen given vs).bounded) :
    (vs.lookup u).isSome = true := by
  have hs := (mem_bounded.mp hu).2
  rwa [get?_halfOpen h, Option.isSome_map] at hs

/-- **The open side refuses no time** of the years that a year can be. -/
theorem sideHolds_open (h : vs.Formed) (given : Side) (hy : 1 ≤ t.date.year)
    (hy' : t.date.year ≤ 9999) : (halfOpen given vs).SideHolds given.other t := by
  have hmonth := sideMonth_open h given t
  refine ⟨fun u => given.other.edge u ((halfOpen given vs).sideYear given.other t)
    ((halfOpen given vs).sideMonth given.other t), fun u hu => ?_, ?_⟩
  · exact boundIn_open h (isSome_lookup_of_mem_bounded h hu) _ hmonth
  cases given with
  | stop =>
    -- each unit starts at its least value
    apply not_map_lt_map
    intro u _
    by_cases hu : u = .year
    · subst hu
      exact hy
    · exact minValue_le_part hu t
  | start =>
    apply not_map_lt_map_of_agree
    intro front u back hsplit hfront
    by_cases hd : u = .day
    · subst hd
      apply day_le_open h
      intro hs
      -- the year is before the day, and so among the parts that are equal
      have hyear : TimeUnit.year ∈ (halfOpen .start vs).bounded := by
        rw [mem_bounded, get?_halfOpen h, Option.isSome_map]
        exact ⟨by decide, hs⟩
      have hpair := (halfOpen .start vs).pairwise_bounded
      rw [hsplit] at hyear hpair
      have hback := (List.pairwise_cons.mp (List.pairwise_append.mp hpair).2.1).1
      have hmem : TimeUnit.year ∈ front := by
        rcases List.mem_append.mp hyear with hfront | hcons
        · exact hfront
        · rcases List.mem_cons.mp hcons with heq | hlater
          · cases heq
          · cases hback _ hlater
      have heq : TimeUnit.year.maxValueIn _ _ = t.part .year := hfront .year hmem
      rw [maxValueIn_of_ne_day (by decide)] at heq
      exact heq.symm
    · show t.part u ≤ u.maxValueIn _ _
      rw [maxValueIn_of_ne_day hd]
      by_cases hu : u = .year
      · subst hu
        exact hy'
      · exact part_le_maxValue hd hu t

/-! ### Weekdays -/

lemma units_week (text : String) : (Values.units [(.week, text)]).units = [.week] := by
  have hunits : (UnitSet.ofList [.week]).units = [.week] := by decide
  exact hunits

lemma standFor_week {text : String} {n : TimeUnit → Int} :
    Values.StandFor [(.week, text)] t n ↔
      (Resolution.ofText .week t.date.year t.date.month text).value? = some (n .week) := by
  have hnumber (y m : Int) : Values.numberIn [(.week, text)] y m .week
      = (Resolution.ofText .week t.date.year t.date.month text).value? := by
    rw [Resolution.ofText_eq_of_ne_day (by decide) t.date.year t.date.month y m]
    exact Resolution.map_clampIn_value? (by decide) y m text
  rw [Values.StandFor, units_week, List.forall_mem_singleton, hnumber]

lemma admits_singleton (side : Side) (x y : Int) :
    side.Admits [x] [y] ↔ match side with | .start => y ≤ x | .stop => x ≤ y := by
  cases side <;> simp [Side.Admits, List.cons_lt_cons_iff]

lemma bounded_week {text : String} (h : Values.Formed [(.week, text)]) (given : Side) :
    (halfOpen given [(.week, text)]).bounded = [] := by
  rw [bounded, List.filter_eq_nil_iff]
  intro u hu
  have hne : u ≠ .week := (mem_clockOrder_iff.mp hu).1
  rw [get?_halfOpen h, Option.isSome_map, List.lookup_cons, beq_eq_false_iff_ne.mpr hne]
  exact Bool.false_ne_true

lemma onWeekdays_halfOpen {text : String} (h : Values.Formed [(.week, text)]) (given : Side) :
    (halfOpen given [(.week, text)]).OnWeekdays t ↔
      ∃ n, Values.StandFor [(.week, text)] t n
        ∧ given.Admits ([TimeUnit.week].map t.part) ([TimeUnit.week].map n) := by
  have hf := t.date.field_bounds
  have hopen := ofText_openText given.other (u := .week) (by decide) t.date.year ⟨hf.1, hf.2.1⟩
  have hfirst : TimeUnit.week.minValue ≤ t.part .week := minValue_le_part (by decide) t
  have hlast : t.part .week ≤ TimeUnit.week.maxValue := part_le_maxValue (by decide) (by decide) t
  have hget : (halfOpen given [(.week, text)]).bounds.get? .week
      = some (given.bounds text (given.other.openText .week)) := get?_halfOpen h given .week
  simp only [OnWeekdays, hget, Option.some.injEq, forall_eq', standFor_week, List.map_cons,
    List.map_nil, admits_singleton]
  cases given with
  | start =>
    constructor
    · rintro ⟨low, high, hlow, -, hle, -⟩
      exact ⟨fun _ => low, hlow, hle⟩
    · rintro ⟨n, hn, hle⟩
      exact ⟨n .week, TimeUnit.week.maxValue, hn, congrArg Resolution.value? hopen, hle, hlast⟩
  | stop =>
    constructor
    · rintro ⟨low, high, -, hhigh, -, hle⟩
      exact ⟨fun _ => high, hhigh, hle⟩
    · rintro ⟨n, hn, hle⟩
      exact ⟨TimeUnit.week.minValue, n .week, congrArg Resolution.value? hopen, hn, hfirst, hle⟩

/-- **A range with one side accepts what is on the inner side of its values.** -/
theorem accepts_halfOpen_iff (h : vs.Formed) (given : Side) (hy : 1 ≤ t.date.year)
    (hy' : t.date.year ≤ 9999) : (halfOpen given vs).accepts t = true ↔
      ∃ n, vs.StandFor t n ∧ given.Admits (vs.units.units.map t.part) (vs.units.units.map n) := by
  rw [accepts_iff]
  by_cases hw : vs.lookup .week = none
  · have hweek : (halfOpen given vs).OnWeekdays t := by
      intro b hb
      rw [get?_halfOpen h, hw] at hb
      cases hb
    rw [between_iff_sides given, and_iff_left hweek, and_iff_left (sideHolds_open h given hy hy'),
      sideHolds_given h hw]
  · rcases h with ⟨u, text, rfl, hsole⟩ | h
    · have hu : u = .week := by
        by_contra hne
        exact hw (by rw [List.lookup_cons, beq_eq_false_iff_ne.mpr (Ne.symm hne)]; rfl)
      subst hu
      have hweek : Values.Formed [(.week, text)] := Or.inl ⟨_, _, rfl, hsole⟩
      have hclock := clockCheck_of_bounded_eq_nil (bounded_week hweek given) t
      rw [and_iff_right ((clockCheck_eq_none_iff _ t).mp hclock), units_week]
      exact onWeekdays_halfOpen hweek given
    · exact absurd h.week hw

end Range

namespace Rule

open Range

/-- **A clause with one side accepts exactly the times on its inner side.** Whatever value it reads,
of every time in the years that a year can be it accepts those for which the value stands for
numbers, in its own year and month, and whose parts, most significant first, are not before the
numbers of a start or not after those of an end. So where the value stands for numbers one of the
two clauses accepts the time, and both do exactly when its parts are those numbers. -/
theorem open_ranges_exact {x : List Token} {vs : Values} (hx : ∀ t ∈ x, t.Genuine)
    (hread : Value.read x none = .ok vs) :
    ∃ onward upto : Range, readOnward x = .ok [.within onward] ∧ readUpto x = .ok [.within upto]
      ∧ ∀ t : LocalTime, 1 ≤ t.date.year → t.date.year ≤ 9999 →
        (onward.accepts t = true ↔ ∃ n, vs.StandFor t n
          ∧ ¬ vs.units.units.map t.part < vs.units.units.map n)
        ∧ (upto.accepts t = true ↔ ∃ n, vs.StandFor t n
          ∧ ¬ vs.units.units.map n < vs.units.units.map t.part)
        ∧ ∀ n, vs.StandFor t n →
          (onward.accepts t = true ∨ upto.accepts t = true)
          ∧ (onward.accepts t = true ∧ upto.accepts t = true ↔
            ∀ u ∈ vs.units.units, t.part u = n u) := by
  have h := formed_of_value hx (by simp) hread
  refine ⟨halfOpen .start vs, halfOpen .stop vs, ?_, ?_, fun t hy hy' => ?_⟩
  · rw [readOnward, hread]
    rfl
  · rw [readUpto, hread]
    rfl
  have honward := accepts_halfOpen_iff h .start hy hy'
  have hupto := accepts_halfOpen_iff h .stop hy hy'
  refine ⟨honward, hupto, fun n hn => ?_⟩
  -- the numbers at a time are the only ones
  have hunique {m : TimeUnit → Int} (hm : vs.StandFor t m) :
      vs.units.units.map m = vs.units.units.map n := List.map_congr_left fun u hu =>
    Option.some.inj ((hm u hu).symm.trans (hn u hu))
  have honward' : (halfOpen .start vs).accepts t = true
      ↔ ¬ vs.units.units.map t.part < vs.units.units.map n := by
    rw [honward]
    constructor
    · rintro ⟨m, hm, hin⟩
      exact hunique hm ▸ hin
    · exact fun hin => ⟨n, hn, hin⟩
  have hupto' : (halfOpen .stop vs).accepts t = true
      ↔ ¬ vs.units.units.map n < vs.units.units.map t.part := by
    rw [hupto]
    constructor
    · rintro ⟨m, hm, hin⟩
      exact hunique hm ▸ hin
    · exact fun hin => ⟨n, hn, hin⟩
  rw [honward', hupto']
  refine ⟨?_, fun hboth => ?_, fun hall => ?_⟩
  · rw [← not_and_or]
    exact fun hlt => List.lt_asymm hlt.1 hlt.2
  · have hle := List.not_lt.mp hboth.1
    have hge := List.not_lt.mp hboth.2
    exact List.map_inj_left.mp (List.le_antisymm hge hle)
  · rw [List.map_congr_left hall]
    exact ⟨List.lt_irrefl _, List.lt_irrefl _⟩

/-- Half past nine on leap day is both the first time from the value and the last upto it. -/
theorem open_ranges_exact_leap_day :
    let t : LocalTime := (LocalTime.midnight (Date.ofFields 2024 2 29)).addSeconds 34200
    ∃ (x : List Token) (vs : Values) (onward upto : Range), (∀ t ∈ x, t.Genuine)
      ∧ Value.read x none = .ok vs ∧ vs.units.units = [.year, .month, .day, .hour, .minute]
      ∧ readOnward x = .ok [.within onward] ∧ readUpto x = .ok [.within upto]
      ∧ onward.accepts t = true ∧ upto.accepts t = true := by
  intro t
  have hany : ((Clause.split
    ((Token.scan .empty "@from 2024-02-Last 9:30").takeWhile fun _ => true)).2.any
      fun c => c.keyword = .onward && (Value.read c.body none).toOption.any fun vs =>
        vs.units.units = [.year, .month, .day, .hour, .minute] && vs.units.units.all fun u =>
          vs.numberIn (vs.yearAt t) (vs.monthAt t) u = some (t.part u)) = true := by decide +kernel
  obtain ⟨c, hc, hc'⟩ := List.any_eq_true.mp hany
  rw [Bool.and_eq_true, decide_eq_true_eq] at hc'
  obtain ⟨hk, hvalue⟩ := hc'
  have hx := (genuine_of_split_scan hc).2 (by rw [hk]; decide)
  cases hread : Value.read c.body none with
  | error => rw [hread] at hvalue; cases hvalue
  | ok vs =>
    rw [hread] at hvalue
    simp only [Except.toOption, Option.any_some, Bool.and_eq_true, decide_eq_true_eq,
      List.all_eq_true] at hvalue
    obtain ⟨onward, upto, honward, hupto, h⟩ := open_ranges_exact hx hread
    have hboth := ((h t (by decide +kernel) (by decide +kernel)).2.2 t.part hvalue.2).2.mpr
      fun _ _ => rfl
    exact ⟨c.body, vs, onward, upto, hx, hread, hvalue.1, honward, hupto, hboth⟩

end Rule

end Recurrence
