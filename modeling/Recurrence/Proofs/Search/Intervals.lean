import Recurrence.Proofs.Search.Windows

/-!
Ranges as intervals. The window of a time fills all six fields, the ones without bounds from the
time or with the whole extent of the unit; a time is inside it exactly when its values of the
bounded units lie between the bounds, each side resolved in its own year and month.

Main statements: `fillSide_eq_some_iff`, `clockCheck_eq_none_iff`, `accepts_congr` and
`accepts_iff_between`.
-/

namespace Recurrence

namespace Range

open LocalTime Fields TimeUnit

/-- The sides of a range. -/
inductive Side
  | start
  | stop

namespace Side

def text : Side → String × String → String
  | start, b => b.1
  | stop, b => b.2

def edge (u : TimeUnit) (year month : Int) : Side → Int
  | start => u.minValue
  | stop => u.maxValueIn year month

end Side

/-- The value of a unit's bound in a month, cut to the range of the unit there. -/
def boundIn (r : Range) (side : Side) (year month : Int) (u : TimeUnit) : Option Int :=
  (r.bounds.get? u).bind fun b =>
    (Resolution.ofText u year month (side.text b)).value?.map (u.clampIn year month)

/-- The year of a side: its own where the year has bounds, the time's otherwise. -/
def sideYear (r : Range) (side : Side) (t : LocalTime) : Int :=
  (r.boundIn side t.date.year t.date.month .year).getD t.date.year

/-- The month of a side: its own where the month has bounds, the time's otherwise. -/
def sideMonth (r : Range) (side : Side) (t : LocalTime) : Int :=
  (r.boundIn side t.date.year t.date.month .month).getD t.date.month

/-- The value of a unit's bound in the year and month of its side. -/
def sideValue (r : Range) (side : Side) (t : LocalTime) (u : TimeUnit) : Option Int :=
  r.boundIn side (r.sideYear side t) (r.sideMonth side t) u

/-- All bounds of date and clock have values, and the parts of the time, most significant first,
come neither before those of the start nor after those of the end. -/
def Between (r : Range) (t : LocalTime) : Prop :=
  ∃ low high : TimeUnit → Int,
    (∀ u ∈ r.bounded, r.sideValue .start t u = some (low u) ∧ r.sideValue .stop t u = some (high u))
    ∧ ¬ r.bounded.map t.part < r.bounded.map low ∧ ¬ r.bounded.map high < r.bounded.map t.part

/-- Where weekdays have bounds, these have values and the weekday lies between them. -/
def OnWeekdays (r : Range) (t : LocalTime) : Prop :=
  ∀ b, r.bounds.get? .week = some b → ∃ low high : Int,
    (Resolution.ofText .week t.date.year t.date.month b.1).value? = some low
    ∧ (Resolution.ofText .week t.date.year t.date.month b.2).value? = some high
    ∧ low ≤ t.part .week ∧ t.part .week ≤ high

variable {r : Range} {side : Side} {coarsest finest u : TimeUnit} {f g a b : Fields}
  {s t : LocalTime}

/-! ### Bounds in a month -/

lemma boundIn_of_ne_day (hu : u ≠ .day) (y m y' m' : Int) :
    r.boundIn side y m u = r.boundIn side y' m' u := by
  unfold boundIn clampIn
  simp only [Resolution.ofText_eq_of_ne_day hu y m y' m', maxValueIn_of_ne_day hu]

lemma sideValue_of_ne_day (hu : u ≠ .day) (y m : Int) :
    r.sideValue side t u = r.boundIn side y m u :=
  boundIn_of_ne_day hu _ _ _ _

lemma boundIn_eq_none (h : r.bounds.get? u = none) (y m : Int) : r.boundIn side y m u = none := by
  rw [boundIn, h]; rfl

/-! ### One side of a window -/

/-- The field of a unit on one side of a window, where the time has the value `x`. -/
def fieldIn (r : Range) (side : Side) (finest : TimeUnit) (year month x : Int) (u : TimeUnit) :
    Option Int :=
  if (r.bounds.get? u).isSome then r.boundIn side year month u
  else some (if u.isFinerThan finest then side.edge u year month else x)

/-- One side of a window, with the units from `us` still to be filled in. -/
def fillSide (r : Range) (side : Side) (finest : TimeUnit) (f : Fields) :
    List TimeUnit → Option Fields
  | [] => some f
  | u :: us => (r.fieldIn side finest f.year f.month (f.get u) u).bind fun x =>
    r.fillSide side finest (f.set u x) us

lemma fieldIn_of_ne_day (hu : u ≠ .day) (y m y' m' x : Int) :
    r.fieldIn side finest y m x u = r.fieldIn side finest y' m' x u := by
  have hedge : side.edge u y m = side.edge u y' m' := by
    cases side
    · rfl
    · simp only [Side.edge, maxValueIn_of_ne_day hu]
  rw [fieldIn, fieldIn, boundIn_of_ne_day hu y m y' m', hedge]

lemma fieldIn_of_bounds (h : (r.bounds.get? u).isSome) (y m x : Int) :
    r.fieldIn side finest y m x u = r.boundIn side y m u :=
  if_pos h

lemma fieldIn_of_none (h : r.bounds.get? u = none) (y m x : Int) :
    r.fieldIn side finest y m x u
      = some (if u.isFinerThan finest then side.edge u y m else x) :=
  if_neg (by simp [h])

/-- **The two sides of a window are filled in apart.** -/
theorem fillBounds_eq (r : Range) (finest : TimeUnit) (f g : Fields) (us : List TimeUnit) :
    r.fillBounds finest f g us = (r.fillSide .start finest f us).bind fun a =>
      (r.fillSide .stop finest g us).map fun b => (a, b) := by
  induction us generalizing f g with
  | nil => rfl
  | cons u us ih =>
    simp only [fillBounds, fillSide]
    cases hb : r.bounds.get? u with
    | none =>
      simp only [fieldIn_of_none hb, Option.bind_some]
      split
      · exact ih _ _
      · rw [set_get, set_get]; exact ih _ _
    | some p =>
      have hs : (r.bounds.get? u).isSome := by rw [hb]; rfl
      simp only [fieldIn_of_bounds hs, boundIn, hb, Option.bind_some, Side.text]
      cases (Resolution.ofText u f.year f.month p.1).value? with
      | none => rfl
      | some l =>
        cases (Resolution.ofText u g.year g.month p.2).value? with
        | none => simp
        | some h => simp only [Option.map_some, Option.bind_some]; exact ih _ _

lemma fieldIn_settled {us : List TimeUnit} (hus : ∀ v ∈ us, v.isFinerThan u = true)
    (h : ∀ v, HasField v → v ∉ u :: us → a.get v = f.get v) (x : Int) :
    r.fieldIn side finest a.year a.month x u = r.fieldIn side finest f.year f.month x u := by
  by_cases hu : u = .day
  · subst hu
    have hout : ∀ v, v ≠ .day → v.isFinerThan .day = false → v ∉ TimeUnit.day :: us := by
      intro v hv hf hm
      rcases List.mem_cons.mp hm with rfl | hm
      · exact hv rfl
      · rw [hus v hm] at hf; cases hf
    have hy : a.year = f.year := h .year (by decide) (hout _ (by decide) rfl)
    have hm : a.month = f.month := h .month (by decide) (hout _ (by decide) rfl)
    rw [hy, hm]
  · exact fieldIn_of_ne_day hu _ _ _ _ _

/-- **One side of a window, field by field**: the rest is as it was, and each unit from `us` has its
value in the year and month that the side comes to. -/
theorem fillSide_eq_some_iff {us : List TimeUnit}
    (hus : us.Pairwise fun u v => v.isFinerThan u = true) (hf : ∀ u ∈ us, HasField u) :
    r.fillSide side finest f us = some a ↔
      (∀ v, HasField v → v ∉ us → a.get v = f.get v)
      ∧ ∀ u ∈ us, r.fieldIn side finest a.year a.month (f.get u) u = some (a.get u) := by
  induction us generalizing f with
  | nil =>
    simp only [fillSide, Option.some.injEq, List.not_mem_nil, not_false_eq_true, forall_true_left,
      false_imp_iff, implies_true, and_true]
    exact ⟨fun h v _ => h ▸ rfl, fun h => (ext_get h).symm⟩
  | cons u us ih =>
    rw [List.pairwise_cons] at hus
    rw [List.forall_mem_cons] at hf
    -- each unit is set once, since those after it are finer
    have hnot : u ∉ us := fun hm => by
      have := hus.1 u hm
      rw [isFinerThan_asymm this] at this; cases this
    have hne : ∀ v ∈ us, u ≠ v := fun v hv huv => hnot (huv ▸ hv)
    rw [fillSide, Option.bind_eq_some_iff]
    constructor
    · rintro ⟨x, hx, h⟩
      obtain ⟨hrest, hall⟩ := (ih hus.2 hf.2).mp h
      have hau : a.get u = x := by rw [hrest u hf.1 hnot, get_set hf.1, if_pos rfl]
      -- so the years and months that later units look at are those of the result
      have hout : ∀ v, HasField v → v ∉ u :: us → a.get v = f.get v := by
        intro v hv hm
        rw [List.mem_cons, not_or] at hm
        rw [hrest v hv hm.2, get_set hv, if_neg (Ne.symm hm.1)]
      refine ⟨hout, fun v hv => ?_⟩
      rcases List.mem_cons.mp hv with rfl | hv
      · rw [fieldIn_settled hus.1 hout, hx, hau]
      · have := hall v hv
        rwa [get_set (hf.2 v hv), if_neg (hne v hv)] at this
    · rintro ⟨hout, hall⟩
      rw [List.forall_mem_cons] at hall
      refine ⟨a.get u, by rw [← fieldIn_settled hus.1 hout, hall.1], (ih hus.2 hf.2).mpr ⟨?_, ?_⟩⟩
      · intro v hv hm
        rw [get_set hv]
        split
        · rename_i huv; rw [huv]
        · rename_i huv
          exact hout v hv (by simp [hm, Ne.symm huv])
      · intro v hv
        rw [get_set (hf.2 v hv), if_neg (hne v hv)]
        exact hall.2 v hv

/-! ### Comparing lists of parts -/

lemma map_lt_map_iff_filter {us : List TimeUnit} {p : TimeUnit → Bool} {x y : TimeUnit → Int}
    (h : ∀ u ∈ us, p u = false → x u = y u) :
    us.map x < us.map y ↔ (us.filter p).map x < (us.filter p).map y := by
  induction us with
  | nil => rfl
  | cons u us ih =>
    rw [List.forall_mem_cons] at h
    cases hp : p u with
    | true => simp only [List.filter_cons, hp, if_true, List.map_cons, List.cons_lt_cons_iff,
      ih h.2]
    | false => simp [hp, h.1 hp, ih h.2]

/-- Where parts that are equal so far never grow past the bound, they are not after it. -/
lemma not_map_lt_map_of_agree {us : List TimeUnit} {x y : TimeUnit → Int}
    (h : ∀ front u back, us = front ++ u :: back → (∀ v ∈ front, x v = y v) → y u ≤ x u) :
    ¬ us.map x < us.map y := by
  induction us with
  | nil => simp
  | cons u us ih =>
    have hu : y u ≤ x u := h [] u us rfl (by simp)
    rw [List.map_cons, List.map_cons, List.cons_lt_cons_iff]
    rintro (hlt | ⟨heq, hlt⟩)
    · omega
    · refine ih (fun front v back hus hfront => ?_) hlt
      exact h (u :: front) v back (congrArg (u :: ·) hus) (List.forall_mem_cons.mpr ⟨heq, hfront⟩)

lemma not_map_lt_map {us : List TimeUnit} {x y : TimeUnit → Int} (h : ∀ u ∈ us, y u ≤ x u) :
    ¬ us.map x < us.map y :=
  not_map_lt_map_of_agree fun front u back hus _ => h u (by simp [hus])

lemma map_append_lt_map_append_iff {us vs : List TimeUnit} {x y : TimeUnit → Int}
    (h : (∀ u ∈ us, x u = y u) → ∀ u ∈ vs, y u ≤ x u) :
    (us ++ vs).map x < (us ++ vs).map y ↔ us.map x < us.map y := by
  induction us with
  | nil => simpa using not_map_lt_map (h (by simp))
  | cons u us ih =>
    simp only [List.cons_append, List.map_cons, List.cons_lt_cons_iff]
    refine or_congr_right (and_congr_right fun hu => ih fun hus => h ?_)
    exact List.forall_mem_cons.mpr ⟨hu, hus⟩

/-! ### The sides of the window of a time -/

def IsSide (r : Range) (side : Side) (finest : TimeUnit) (t : LocalTime) (a : Fields) : Prop :=
  ∀ u, HasField u → r.fieldIn side finest a.year a.month (t.part u) u = some (a.get u)

lemma fillSide_clockOrder_iff :
    r.fillSide side finest t.fields clockOrder = some a ↔ r.IsSide side finest t a := by
  rw [fillSide_eq_some_iff pairwise_clockOrder fun u hu => mem_clockOrder_iff.mp hu]
  constructor
  · intro h u hu
    rw [← fields_get hu]
    exact h.2 u (mem_clockOrder_iff.mpr hu)
  · refine fun h => ⟨fun v hv hn => absurd (mem_clockOrder_iff.mpr hv) hn, fun u hu => ?_⟩
    rw [fields_get (mem_clockOrder_iff.mp hu)]
    exact h u (mem_clockOrder_iff.mp hu)

lemma windowAt_eq_some_iff : r.windowAt finest t = some (a, b) ↔
    r.IsSide .start finest t a ∧ r.IsSide .stop finest t b := by
  rw [windowAt, fillBounds_eq, Option.bind_eq_some_iff]
  simp only [Option.map_eq_some_iff, Prod.mk.injEq, fillSide_clockOrder_iff]
  constructor
  · rintro ⟨a', ha, b', hb, rfl, rfl⟩
    exact ⟨ha, hb⟩
  · rintro ⟨ha, hb⟩
    exact ⟨a, ha, b, hb, rfl, rfl⟩

lemma getD_boundIn {y m x v : Int} (hu : u.isFinerThan finest = false)
    (h : r.fieldIn side finest y m x u = some v) : (r.boundIn side y m u).getD x = v := by
  cases hb : r.bounds.get? u with
  | none =>
    rw [fieldIn_of_none hb, hu, Option.some.injEq] at h
    rw [boundIn_eq_none hb]
    exact h
  | some p =>
    rw [fieldIn_of_bounds (by rw [hb]; rfl)] at h
    rw [h]; rfl

lemma sideYear_eq {y m v : Int} (h : r.fieldIn side finest y m t.date.year .year = some v) :
    r.sideYear side t = v := by
  rw [fieldIn_of_ne_day (by decide) y m t.date.year t.date.month] at h
  exact getD_boundIn (by cases finest <;> rfl) h

lemma sideMonth_eq {y m v : Int} (hm : TimeUnit.month.isFinerThan finest = false)
    (h : r.fieldIn side finest y m t.date.month .month = some v) : r.sideMonth side t = v := by
  rw [fieldIn_of_ne_day (by decide) y m t.date.year t.date.month] at h
  exact getD_boundIn hm h

lemma Spans.month_of_day (h : r.Spans coarsest finest) (hd : TimeUnit.day ∈ r.bounded) :
    TimeUnit.month.isFinerThan finest = false := by
  rcases h.coarser_of_mem hd with rfl | hf
  · rfl
  · exact isFinerThan_asymm (isFinerThan_trans hf rfl)

namespace IsSide

variable (hs : r.IsSide side finest t a)

include hs

lemma get_of_keeps (hu : HasField u) (hk : r.Keeps finest u) : a.get u = t.part u := by
  have := hs u hu
  rw [fieldIn_of_none hk.1, hk.2, Option.some.injEq] at this
  exact this.symm

lemma get_of_finer (h : r.Spans coarsest finest) (hu : HasField u)
    (hf : u.isFinerThan finest = true) : a.get u = side.edge u a.year a.month := by
  have := hs u hu
  rw [fieldIn_of_none (h.get?_eq_none hu hf), if_pos hf, Option.some.injEq] at this
  exact this.symm

lemma sideValue_eq (h : r.Spans coarsest finest) (hu : u ∈ r.bounded) :
    r.sideValue side t u = some (a.get u) := by
  obtain ⟨hfield, hb⟩ := mem_bounded.mp hu
  have hval := hs u hfield
  rw [fieldIn_of_bounds hb] at hval
  by_cases hday : u = .day
  · subst hday
    rw [sideValue, sideYear_eq (hs .year (by decide)),
      sideMonth_eq (h.month_of_day hu) (hs .month (by decide))]
    exact hval
  · rw [sideValue_of_ne_day hday]; exact hval

end IsSide

lemma exists_isSide (h : r.Spans coarsest finest) {x : TimeUnit → Int}
    (hx : ∀ u ∈ r.bounded, r.sideValue side t u = some (x u)) : ∃ a, r.IsSide side finest t a := by
  -- a bound has its value in the year and month of the side
  have hfield : ∀ (u : TimeUnit) (y m : Int), HasField u →
      (u = .day → u ∈ r.bounded → y = r.sideYear side t ∧ m = r.sideMonth side t) →
      ∃ v, r.fieldIn side finest y m (t.part u) u = some v := by
    intro u y m hu hday
    cases hb : r.bounds.get? u with
    | none => exact ⟨_, fieldIn_of_none hb _ _ _⟩
    | some p =>
      have hs : (r.bounds.get? u).isSome := by rw [hb]; rfl
      have hm := mem_bounded.mpr ⟨hu, hs⟩
      refine ⟨x u, ?_⟩
      rw [fieldIn_of_bounds hs, ← hx u hm]
      by_cases hd : u = .day
      · rw [(hday hd hm).1, (hday hd hm).2]; rfl
      · exact (sideValue_of_ne_day hd _ _).symm
  -- the year and the month look at nothing, the day at both, the rest at nothing again
  obtain ⟨y, hy⟩ := hfield .year 0 0 (by decide) (by simp)
  obtain ⟨m, hm⟩ := hfield .month 0 0 (by decide) (by simp)
  have hrest := fun (u : TimeUnit) (hu : HasField u) => hfield u y m hu fun hd hu => by
    subst hd
    exact ⟨(sideYear_eq hy).symm, (sideMonth_eq (h.month_of_day hu) hm).symm⟩
  obtain ⟨d, hd⟩ := hrest .day (by decide)
  obtain ⟨hh, hhour⟩ := hrest .hour (by decide)
  obtain ⟨mi, hminute⟩ := hrest .minute (by decide)
  obtain ⟨sec, hsecond⟩ := hrest .second (by decide)
  refine ⟨⟨y, m, d, hh, mi, sec⟩, fun u hu => ?_⟩
  cases u with
  | week | timeZone => exact absurd hu (by decide)
  | year => rw [fieldIn_of_ne_day (by decide) _ _ 0 0]; exact hy
  | month => rw [fieldIn_of_ne_day (by decide) _ _ 0 0]; exact hm
  | day => exact hd
  | hour => exact hhour
  | minute => exact hminute
  | second => exact hsecond

/-! ### Between the sides -/

lemma clockOrder_split (hf : HasField finest) :
    clockOrder = (clockOrder.filter fun u => !u.isFinerThan finest)
      ++ clockOrder.filter fun u => u.isFinerThan finest := by
  revert hf
  cases finest <;> decide

/-- The bounded units decide a comparison when the kept ones are equal and the finer ones cannot. -/
lemma clockOrder_lt_iff (h : r.Spans coarsest finest) {x y : TimeUnit → Int}
    (hkeeps : ∀ u, HasField u → r.Keeps finest u → x u = y u)
    (hfiner : (∀ u, HasField u → u.isFinerThan finest = false → x u = y u) →
      ∀ u, HasField u → u.isFinerThan finest = true → y u ≤ x u) :
    clockOrder.map x < clockOrder.map y ↔ r.bounded.map x < r.bounded.map y := by
  have hbounded : (clockOrder.filter fun u => !u.isFinerThan finest).filter
      (fun u => (r.bounds.get? u).isSome) = r.bounded := by
    rw [List.filter_filter, bounded]
    refine List.filter_congr fun u hu => ?_
    cases hf : u.isFinerThan finest with
    | false => simp
    | true => simp [h.get?_eq_none (mem_clockOrder_iff.mp hu) hf]
  rw [clockOrder_split (mem_bounded.mp h.mem_finest).1, map_append_lt_map_append_iff,
    map_lt_map_iff_filter (p := fun u => (r.bounds.get? u).isSome), hbounded]
  · intro u hu hn
    simp only [List.mem_filter, mem_clockOrder_iff, Bool.not_eq_true'] at hu
    exact hkeeps u hu.1 ⟨by simpa using hn, hu.2⟩
  · intro hall u hu
    simp only [List.mem_filter, mem_clockOrder_iff] at hu
    refine hfiner (fun v hv hf => hall v ?_) u hu.1 hu.2
    simpa [List.mem_filter, mem_clockOrder_iff] using ⟨hv, hf⟩

lemma day_le_maxValueIn {y m : Int} (h : m = 12 ∨ y = t.date.year ∧ m = t.date.month) :
    t.part .day ≤ TimeUnit.day.maxValueIn y m := by
  have hf := t.date.field_bounds
  have hm : 1 ≤ m ∧ m ≤ 12 := by omega
  have hmax : TimeUnit.day.maxValueIn y m = Date.daysInMonth y m := if_pos ⟨rfl, by omega⟩
  have hle := Date.monthLength_le_daysInMonth y hm
  have hpart : t.part .day ≤ Date.monthLength y m := by
    rcases h with rfl | ⟨rfl, rfl⟩
    · have : Date.monthLength t.date.year t.date.month ≤ 31 := by
        unfold Date.monthLength
        split_ifs <;> omega
      exact hf.2.2.2.trans this
    · exact hf.2.2.2
  omega

namespace IsSide

lemma lt_start_iff (h : r.Spans coarsest finest) (hs : r.IsSide .start finest t a) :
    t.fields.toList < a.toList ↔ r.bounded.map t.part < r.bounded.map a.get := by
  refine clockOrder_lt_iff h (fun u hu hk => (hs.get_of_keeps hu hk).symm) fun _ u hu hf => ?_
  rw [hs.get_of_finer h hu hf]
  exact t.minValue_le_part fun hy => by subst hy; cases finest <;> cases hf

lemma stop_lt_iff (h : r.Spans coarsest finest) (hs : r.IsSide .stop finest t b) :
    b.toList < t.fields.toList ↔ r.bounded.map b.get < r.bounded.map t.part := by
  refine clockOrder_lt_iff h (fun u hu hk => hs.get_of_keeps hu hk) fun hall u hu hf => ?_
  rw [hs.get_of_finer h hu hf]
  by_cases hd : u = .day
  · subst hd
    have hy : b.year = t.date.year := hall .year (by decide) (by cases finest <;> rfl)
    apply day_le_maxValueIn
    cases hm : TimeUnit.month.isFinerThan finest with
    | true => exact Or.inl (hs.get_of_finer h (by decide) hm)
    | false => exact Or.inr ⟨hy, hall .month (by decide) hm⟩
  · rw [Side.edge, maxValueIn_of_ne_day hd]
    exact part_le_maxValue hd (fun hy => by subst hy; cases finest <;> cases hf) t

end IsSide

/-- **A time is inside its window exactly when its parts lie between the bounds.** -/
theorem clockCheck_eq_none_iff (r : Range) (t : LocalTime) :
    r.clockCheck t = none ↔ r.Between t := by
  by_cases hnil : r.bounded = []
  · simp [clockCheck_of_bounded_eq_nil hnil, Between, hnil]
  · obtain ⟨coarsest, finest, h⟩ := exists_spans hnil
    rw [clockCheck_eq h]
    constructor
    · intro hn
      obtain ⟨a, b, hw, hlow, hhigh⟩ := clockCheck_eq_none h ((clockCheck_eq h t).trans hn)
      obtain ⟨ha, hb⟩ := windowAt_eq_some_iff.mp hw
      rw [ha.lt_start_iff h] at hlow
      rw [hb.stop_lt_iff h] at hhigh
      exact ⟨a.get, b.get, fun u hu => ⟨ha.sideValue_eq h hu, hb.sideValue_eq h hu⟩, hlow, hhigh⟩
    · rintro ⟨low, high, hval, hlow, hhigh⟩
      obtain ⟨a, ha⟩ := exists_isSide h fun u hu => (hval u hu).1
      obtain ⟨b, hb⟩ := exists_isSide h fun u hu => (hval u hu).2
      have hla : r.bounded.map low = r.bounded.map a.get := List.map_congr_left fun u hu =>
        Option.some.inj ((hval u hu).1.symm.trans (ha.sideValue_eq h hu))
      have hhb : r.bounded.map high = r.bounded.map b.get := List.map_congr_left fun u hu =>
        Option.some.inj ((hval u hu).2.symm.trans (hb.sideValue_eq h hu))
      simp only [windowAt_eq_some_iff.mpr ⟨ha, hb⟩]
      rw [if_neg, if_neg]
      · rw [hb.stop_lt_iff h, ← hhb]; exact hhigh
      · rw [ha.lt_start_iff h, ← hla]; exact hlow

/-- **A weekday is not refused exactly when it lies between the bounds.** -/
theorem weekdayCheck_eq_none_iff (r : Range) (t : LocalTime) :
    r.weekdayCheck t = none ↔ r.OnWeekdays t := by
  unfold weekdayCheck OnWeekdays
  cases r.bounds.get? .week with
  | none => simp
  | some p =>
    simp only [Option.some.injEq, forall_eq']
    cases (Resolution.ofText .week t.date.year t.date.month p.1).value? with
    | none => simp
    | some l =>
      cases (Resolution.ofText .week t.date.year t.date.month p.2).value? with
      | none => simp
      | some h =>
        simp only [Option.some.injEq]
        constructor
        · intro hn
          split_ifs at hn
          exact ⟨l, h, rfl, rfl, by omega, by omega⟩
        · rintro ⟨_, _, rfl, rfl, hl, hh⟩
          rw [if_neg (by omega), if_neg (by omega)]

lemma accepts_iff (r : Range) (t : LocalTime) :
    r.accepts t = true ↔ r.Between t ∧ r.OnWeekdays t := by
  rw [accepts_eq_true_iff, clockCheck_eq_none_iff, weekdayCheck_eq_none_iff]

/-! ### What a range looks at -/

/-- The times agree on the units that are not finer than every unit with bounds. -/
def AgreeOn (r : Range) (s t : LocalTime) : Prop :=
  ∀ u v, r.units.has v = true → u.isFinerThan v = false → s.part u = t.part u

lemma AgreeOn.symm (h : r.AgreeOn s t) : r.AgreeOn t s :=
  fun u v hv hu => (h u v hv hu).symm

lemma has_units_of_mem_bounded (hu : u ∈ r.bounded) : r.units.has u = true := by
  obtain ⟨hf, hs⟩ := mem_bounded.mp hu
  rw [units, UnitMap.has_units, hs, decide_eq_true hf.2]; rfl

lemma AgreeOn.sideValue_eq (h : r.AgreeOn s t) (hu : u ∈ r.bounded) (side : Side) :
    r.sideValue side s u = r.sideValue side t u := by
  by_cases hd : u = .day
  · subst hd
    have hb := has_units_of_mem_bounded hu
    have hy : s.date.year = t.date.year := h .year .day hb rfl
    have hm : s.date.month = t.date.month := h .month .day hb rfl
    simp only [sideValue, sideYear, sideMonth, hy, hm]
  · rw [sideValue_of_ne_day hd 0 0, sideValue_of_ne_day hd 0 0]

lemma Between.of_agreeOn (h : r.AgreeOn s t) (hs : r.Between s) : r.Between t := by
  obtain ⟨low, high, hval, hlow, hhigh⟩ := hs
  have hpart : r.bounded.map s.part = r.bounded.map t.part := List.map_congr_left fun u hu =>
    h u u (has_units_of_mem_bounded hu) (by cases u <;> rfl)
  rw [hpart] at hlow hhigh
  refine ⟨low, high, fun u hu => ?_, hlow, hhigh⟩
  rw [← h.sideValue_eq hu, ← h.sideValue_eq hu]
  exact hval u hu

lemma OnWeekdays.of_agreeOn (h : r.AgreeOn s t) (hs : r.OnWeekdays s) : r.OnWeekdays t := by
  intro p hp
  have hb : r.units.has .week = true := by rw [units, UnitMap.has_units, hp]; rfl
  obtain ⟨low, high, hlow, hhigh, hl, hh⟩ := hs p hp
  have hy : s.date.year = t.date.year := h .year .week hb rfl
  have hm : s.date.month = t.date.month := h .month .week hb rfl
  rw [hy, hm] at hlow hhigh
  rw [h .week .week hb rfl] at hl hh
  exact ⟨low, high, hlow, hhigh, hl, hh⟩

/-- **Units finer than all bounded ones never matter.** -/
theorem accepts_congr (h : r.AgreeOn s t) : r.accepts s = r.accepts t := by
  rw [Bool.eq_iff_iff, accepts_iff, accepts_iff]
  exact ⟨fun hs => ⟨hs.1.of_agreeOn h, hs.2.of_agreeOn h⟩,
    fun ht => ⟨ht.1.of_agreeOn h.symm, ht.2.of_agreeOn h.symm⟩⟩

/-- **A range accepts exactly the lexicographic interval** between its bounds, on the weekdays
between theirs, and does not look at units finer than all it bounds. -/
theorem accepts_iff_between (r : Range) (t : LocalTime) :
    (r.accepts t = true ↔ r.Between t ∧ r.OnWeekdays t)
    ∧ ∀ s, r.AgreeOn s t → r.accepts s = r.accepts t :=
  ⟨r.accepts_iff t, fun _ => accepts_congr⟩

/-- Days past the end of February are cut to its last: its 28th day is between the 30th and the
31st, and its 27th is not. -/
example :
    let r : Range := ⟨UnitMap.ofList [(.day, ("30th", "31st"))]⟩
    r.accepts (midnight (Date.ofFields 2023 2 28)) = true
      ∧ r.accepts (midnight (Date.ofFields 2023 2 27)) = false := by
  decide +kernel

end Range

end Recurrence
