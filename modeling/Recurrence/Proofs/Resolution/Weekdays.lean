import Recurrence.Proofs.Resolution.Forms

/-!
The weekdays of a month. Its days are numbered and its weekdays repeat every seven of them, so that
the days of one weekday are a list, and counting weekdays from an edge of the month is looking them
up in it.

Main statement: `Resolution.ofText_weekdays`.
-/

namespace Recurrence

namespace Date

variable {y m : Int}

def daysOf (year month : Int) : List Int :=
  (List.range (monthLength year month).toNat).map fun (i : Nat) => (i : Int) + 1

def weekdaysOf (year month : Int) (w : Weekday) : List Int :=
  (daysOf year month).filter fun d => (ofFields year month d).weekday = w.number

def IsWorking (d : Date) : Prop :=
  Weekday.monday.number ≤ d.weekday ∧ d.weekday ≤ Weekday.friday.number

instance (d : Date) : Decidable d.IsWorking := inferInstanceAs (Decidable (_ ∧ _))

def workingDaysOf (year month : Int) : List Int :=
  (daysOf year month).filter fun d => (ofFields year month d).IsWorking

lemma mem_daysOf {d : Int} : d ∈ daysOf y m ↔ 1 ≤ d ∧ d ≤ monthLength y m := by
  simp only [daysOf, List.mem_map, List.mem_range]
  constructor
  · rintro ⟨i, hi, rfl⟩
    omega
  · exact fun hd => ⟨(d - 1).toNat, by omega, by omega⟩

lemma number_ofFields (y m d : Int) :
    (ofFields y m d).number = (ofFields y m 1).number + (d - 1) := by
  simp only [ofFields]
  omega

lemma ofFields_add (y m k : Int) :
    (⟨(ofFields y m 1).number + k⟩ : Date) = ofFields y m (k + 1) := by
  apply congrArg Date.mk
  simp only [ofFields]
  omega

lemma isWorking_iff {d : Date} : d.IsWorking ↔ d.number % 7 ≠ 0 ∧ d.number % 7 ≠ 6 := by
  simp only [IsWorking, weekday, Weekday.number]
  omega

lemma mem_workingDaysOf {d : Int} :
    d ∈ workingDaysOf y m ↔ (1 ≤ d ∧ d ≤ monthLength y m) ∧ (ofFields y m d).IsWorking := by
  rw [workingDaysOf, List.mem_filter, mem_daysOf, decide_eq_true_eq]

lemma inMonth_iff (hm : 1 ≤ m ∧ m ≤ 12) (k : Int) :
    ((⟨(ofFields y m 1).number + k⟩ : Date).month = (ofFields y m 1).month
      ∧ (⟨(ofFields y m 1).number + k⟩ : Date).year = (ofFields y m 1).year) ↔ 0 ≤ k
        ∧ k < monthLength y m := by
  have hlength := monthLength_pos y m
  rw [month_ofFields hm.1 hm.2 (by omega) (by omega), year_ofFields hm.1 hm.2 (by omega) (by omega)]
  constructor
  · rintro ⟨hmonth, hyear⟩
    have hnumber := congrArg number (⟨(ofFields y m 1).number + k⟩ : Date).ofFields_fields
    have hbounds := (⟨(ofFields y m 1).number + k⟩ : Date).field_bounds
    rw [hmonth, hyear] at hnumber hbounds
    rw [number_ofFields] at hnumber
    dsimp only at hnumber
    omega
  · intro hk
    rw [ofFields_add]
    exact ⟨month_ofFields hm.1 hm.2 (by omega) (by omega),
      year_ofFields hm.1 hm.2 (by omega) (by omega)⟩

lemma dayOfMonth_add (hm : 1 ≤ m ∧ m ≤ 12) {k : Int} (hk : 0 ≤ k ∧ k < monthLength y m) :
    (⟨(ofFields y m 1).number + k⟩ : Date).dayOfMonth = k + 1 := by
  rw [ofFields_add]
  exact dayOfMonth_ofFields hm.1 hm.2 (by omega) (by omega)

/-! ### The days of one weekday -/

lemma filter_mod_range {s : Nat} (hs : s < 7) (n : Nat) :
    (List.range n).filter (fun k => k % 7 = s) = (List.range ((n + 6 - s) / 7)).map fun i =>
      7 * i + s := by
  induction n with
  | zero => rw [show (0 + 6 - s) / 7 = 0 by omega]; rfl
  | succ n ih =>
    rw [List.range_succ, List.filter_append, ih]
    by_cases h : n % 7 = s
    · rw [show (n + 1 + 6 - s) / 7 = (n + 6 - s) / 7 + 1 by omega, List.range_succ, List.map_append,
        List.filter_cons_of_pos (by simpa using h)]
      have hn : n = 7 * ((n + 6 - s) / 7) + s := by omega
      exact congrArg (_ ++ [·]) hn
    · rw [show (n + 1 + 6 - s) / 7
        = (n + 6 - s) / 7 by omega, List.filter_cons_of_neg (by simpa using h)]
      simp

/-- How far the first day of a weekday is from the first of the month. -/
def firstGap (year month : Int) (w : Weekday) : Nat :=
  (Resolution.weekdayGap (ofFields year month 1).weekday w.number).toNat

lemma firstGap_lt (y m : Int) (w : Weekday) : firstGap y m w < 7 := by
  unfold firstGap Resolution.weekdayGap
  omega

lemma weekdaysOf_eq (y m : Int) (w : Weekday) :
    weekdaysOf y m w = (List.range (((monthLength y m).toNat + 6 - firstGap y m w) / 7)).map
      fun (i : Nat) => ((7 * i + firstGap y m w : Nat) : Int) + 1 := by
  have hweekday (i : Nat) :
      decide ((ofFields y m (i + 1)).weekday = w.number) = decide (i % 7 = firstGap y m w) := by
    have hw := w.number_bounds
    rw [decide_eq_decide, weekday, number_ofFields, firstGap, Resolution.weekdayGap, weekday]
    omega
  rw [weekdaysOf, daysOf, List.filter_map]
  simp only [Function.comp_def, hweekday]
  rw [filter_mod_range (firstGap_lt y m w), List.map_map]
  rfl

lemma length_weekdaysOf (y m : Int) (w : Weekday) :
    (weekdaysOf y m w).length = ((monthLength y m).toNat + 6 - firstGap y m w) / 7 := by
  rw [weekdaysOf_eq, List.length_map, List.length_range]

/-- A month has too few of a weekday when weeks on from the first of them its days run out. -/
lemma length_weekdaysOf_lt_iff {w : Weekday} {nth : Int} (hn : 1 ≤ nth) :
    ((weekdaysOf y m w).length : Int) < nth
      ↔ monthLength y m ≤ Resolution.weekdayGap (ofFields y m 1).weekday w.number + 7 *
        (nth - 1) := by
  have hlength := monthLength_pos y m
  rw [length_weekdaysOf, firstGap, Resolution.weekdayGap]
  omega

lemma length_weekdaysOf_lt_iff_last {w : Weekday} {nth : Int} (hn : 1 ≤ nth) :
    ((weekdaysOf y m w).length : Int) < nth
      ↔ monthLength y m ≤ Resolution.weekdayGap w.number
        (⟨(ofFields y m 1).number + (monthLength y m - 1)⟩ : Date).weekday + 7 * (nth - 1) := by
  have hlength := monthLength_pos y m
  rw [length_weekdaysOf, firstGap, Resolution.weekdayGap, Resolution.weekdayGap, weekday, weekday]
  dsimp only
  omega

lemma getElem?_weekdaysOf {w : Weekday} {i : Nat} {k : Int} (hk : k = 7 * i + firstGap y m w) :
    (weekdaysOf y m w)[i]? = if k < monthLength y m then some (k + 1) else none := by
  have hlength := monthLength_pos y m
  have hgap := firstGap_lt y m w
  split_ifs with h
  · rw [weekdaysOf_eq, List.getElem?_map, List.getElem?_range (by omega), Option.map_some]
    congr 1
    omega
  · rw [List.getElem?_eq_none_iff, length_weekdaysOf]
    omega

lemma getElem?_reverse_weekdaysOf {w : Weekday} {i : Nat} {k : Int}
    (hk : k = 7 * i + (monthLength y m - 1 - firstGap y m w) % 7) :
    (weekdaysOf y m w).reverse[i]? = if k < monthLength y m then some (monthLength y m - k)
      else none := by
  have hlength := monthLength_pos y m
  have hgap := firstGap_lt y m w
  have hcount := length_weekdaysOf y m w
  split_ifs with h
  · rw [List.getElem?_reverse (by omega), getElem?_weekdaysOf rfl, if_pos (by omega)]
    congr 1
    omega
  · rw [List.getElem?_eq_none_iff, List.length_reverse]
    omega

end Date

/-- The days that an n-th weekday is counted among, from its edge of the month on. -/
def NthWeekday.countedIn (n : NthWeekday) (year month : Int) : List Int :=
  match n.edge with
  | .first => Date.weekdaysOf year month n.weekday
  | .last => (Date.weekdaysOf year month n.weekday).reverse

namespace SpecialDay

lemma nth_bounds {w : String} {n : NthWeekday} (h : nthWeekday? w = some n) :
    1 ≤ n.nth ∧ n.nth ≤ 5 := by
  -- the words that are spelled out count up to five
  have word {cs rest : List Char} {k : Int} (h : dropOrdinalWord? cs = some (k, rest)) :
      1 ≤ k ∧ k ≤ 5 := by
    have hwords : ∀ p ∈ ordinalWords, 1 ≤ p.2 ∧ p.2 ≤ 5 := by decide
    obtain ⟨p, hp, hd⟩ := List.exists_of_findSome?_eq_some h
    obtain ⟨rest', -, heq⟩ := Option.map_eq_some_iff.1 hd
    obtain rfl := (Prod.mk.inj heq).1
    have := hwords p hp
    split <;> omega
  have digit {tail rest : List Char} {j k : Int} (hj : 1 ≤ j ∧ j ≤ 5)
      (h : (dropEnding? tail).map (fun r => (j, r)) = some (k, rest)) : 1 ≤ k ∧ k ≤ 5 := by
    obtain ⟨r, -, heq⟩ := Option.map_eq_some_iff.1 h
    obtain rfl := (Prod.mk.inj heq).1
    exact hj
  -- and so do the five digits that are read
  have number {cs rest : List Char} {k : Int} (h : dropNth? cs = some (k, rest)) :
      1 ≤ k ∧ k ≤ 5 := by
    unfold dropNth? at h
    split at h
    · exact digit (by decide) h
    · exact digit (by decide) h
    · exact digit (by decide) h
    · exact digit (by decide) h
    · exact digit (by decide) h
    · exact word h
  unfold nthWeekday? at h
  dsimp only at h
  split at h
  · obtain ⟨d, -, rfl⟩ := Option.map_eq_some_iff.1 h
    exact (by decide : (1 : Int) ≤ 1 ∧ (1 : Int) ≤ 5)
  · split at h
    · cases h
    · rename_i k rest hnth
      split at h
      all_goals
        obtain ⟨d, -, rfl⟩ := Option.map_eq_some_iff.1 h
        exact number hnth

end SpecialDay

namespace Resolution

variable {y m : Int}

lemma value_add_eq (hm : 1 ≤ m ∧ m ≤ 12) {first found : Date} {k : Int}
    (hfirst : first = Date.ofFields y m 1) (hfound : found = ⟨first.number + k⟩) :
    (if found.month = first.month ∧ found.year = first.year then value found.dayOfMonth
      else noMatch)
      = if 0 ≤ k ∧ k < Date.monthLength y m then value (k + 1) else noMatch := by
  subst hfirst hfound
  rw [if_congr (Date.inMonth_iff hm k) rfl rfl]
  split_ifs with hk
  · rw [Date.dayOfMonth_add hm hk]
  · rfl

lemma ofNthWeekday_eq (hm : 1 ≤ m ∧ m ≤ 12) {n : NthWeekday} (hn : 1 ≤ n.nth) :
    ofNthWeekday (Date.ofFields y m 1) ⟨(Date.ofFields y m 1).number + (Date.monthLength y m - 1)⟩ n
      = ((n.countedIn y m)[(n.nth - 1).toNat]?).elim noMatch value := by
  obtain ⟨nth, edge, w⟩ := n
  dsimp only at hn
  have hw := w.number_bounds
  have hlength := Date.monthLength_pos y m
  generalize hk : weekdayGap (Date.ofFields y m 1).weekday w.number + 7 * (nth - 1) = k
  generalize hl : weekdayGap w.number
    (⟨(Date.ofFields y m 1).number + (Date.monthLength y m - 1)⟩ : Date).weekday
    + 7 * (nth - 1) = l
  cases edge with
  | first =>
    -- weeks after the first of the weekday, and that is less than a week into the month
    have hpos : k = 7 * (nth - 1).toNat + Date.firstGap y m w ∧ 0 ≤ k := by
      simp only [Date.firstGap, weekdayGap] at hk ⊢
      omega
    simp only [ofNthWeekday, NthWeekday.countedIn]
    rw [value_add_eq hm rfl (congrArg Date.mk (by rw [hk])), Date.getElem?_weekdaysOf hpos.1]
    split_ifs <;> first | rfl | omega
  | last =>
    -- counted from the end, the last of the weekday is less than a week away from it
    have hpos : l = 7 * (nth - 1).toNat + (Date.monthLength y m - 1 - Date.firstGap y m w) % 7
        ∧ 0 ≤ l := by
      simp only [Date.firstGap, weekdayGap, Date.weekday] at hl ⊢
      omega
    simp only [ofNthWeekday, NthWeekday.countedIn]
    rw [hl, value_add_eq hm rfl (k := Date.monthLength y m - 1 - l) (congrArg Date.mk (by omega)),
      Date.getElem?_reverse_weekdaysOf hpos.1]
    split_ifs
    · exact congrArg value (by omega)
    · omega
    · omega
    · rfl

/-! ### Working days -/

lemma workingDayFrom_spec (d : Date) :
    (workingDayFrom d).IsWorking ∧ d.number ≤ (workingDayFrom d).number
    ∧ (workingDayFrom d).number ≤ d.number + 2
    ∧ ∀ e : Date, e.IsWorking → d.number ≤ e.number → (workingDayFrom d).number ≤ e.number := by
  unfold workingDayFrom Date.weekday
  split_ifs <;> simp only [Date.isWorking_iff]
    <;> exact ⟨by omega, by omega, by omega, fun e he hle => by omega⟩

lemma workingDayUpto_spec (d : Date) :
    (workingDayUpto d).IsWorking ∧ (workingDayUpto d).number ≤ d.number
    ∧ d.number - 2 ≤ (workingDayUpto d).number
    ∧ ∀ e : Date, e.IsWorking → e.number ≤ d.number → e.number ≤ (workingDayUpto d).number := by
  unfold workingDayUpto Date.weekday
  split_ifs <;> simp only [Date.isWorking_iff]
    <;> exact ⟨by omega, by omega, by omega, fun e he hle => by omega⟩

lemma closestWeekday_spec (hy : Date.firstYear ≤ y ∧ y ≤ Date.lastYear) (hm : 1 ≤ m ∧ m ≤ 12)
    {n : Int} (hn : 1 ≤ n ∧ n ≤ Date.monthLength y m) :
    closestWeekday y m n ∈ Date.workingDaysOf y m
      ∧ ∀ e ∈ Date.workingDaysOf y m, e ≠ closestWeekday y m n →
        (closestWeekday y m n - n).natAbs < (e - n).natAbs := by
  have hlength := Date.monthLength_pos y m
  have mem (d : Int) : d ∈ Date.workingDaysOf y m ↔ (1 ≤ d ∧ d ≤ Date.monthLength y m)
      ∧ ((Date.ofFields y m 1).number + (d - 1)) % 7 ≠ 0
      ∧ ((Date.ofFields y m 1).number + (d - 1)) % 7 ≠ 6 := by
    rw [Date.mem_workingDaysOf, Date.isWorking_iff, Date.number_ofFields]
  have hday : (Date.ofFields y m n).weekday = ((Date.ofFields y m 1).number + (n - 1)) % 7 + 1 := by
    rw [Date.weekday, Date.number_ofFields]
  simp only [mem, closestWeekday, hday, Date.daysInMonth_eq hy hm]
  split_ifs <;> exact ⟨by omega, fun e he hne => by omega⟩

lemma mem_workingDaysOf_dayOfMonth (hm : 1 ≤ m ∧ m ≤ 12) {d : Date} (hd : d.IsWorking)
    (hin : (Date.ofFields y m 1).number ≤ d.number
      ∧ d.number < (Date.ofFields y m 1).number + Date.monthLength y m) :
    d.dayOfMonth ∈ Date.workingDaysOf y m
      ∧ d.dayOfMonth = d.number - (Date.ofFields y m 1).number + 1 := by
  obtain ⟨k, hk⟩ : ∃ k, d.number = (Date.ofFields y m 1).number + k :=
    ⟨d.number - (Date.ofFields y m 1).number, by omega⟩
  have heq : d = ⟨(Date.ofFields y m 1).number + k⟩ := congrArg Date.mk hk
  have hday : d.dayOfMonth = k + 1 := by rw [heq, Date.dayOfMonth_add hm (by omega)]
  rw [Date.mem_workingDaysOf, hday, ← Date.ofFields_add, ← heq]
  exact ⟨⟨by omega, hd⟩, by omega⟩

lemma workingDayFrom_first (hm : 1 ≤ m ∧ m ≤ 12) :
    (workingDayFrom (Date.ofFields y m 1)).dayOfMonth ∈ Date.workingDaysOf y m
      ∧ ∀ e ∈ Date.workingDaysOf y m, (workingDayFrom (Date.ofFields y m 1)).dayOfMonth ≤ e := by
  have hlength := Date.monthLength_pos y m
  obtain ⟨hwork, hfrom, hto, hleast⟩ := workingDayFrom_spec (Date.ofFields y m 1)
  obtain ⟨hmem, hday⟩ := mem_workingDaysOf_dayOfMonth (y := y) hm hwork (by omega)
  refine ⟨hmem, fun e he => ?_⟩
  obtain ⟨hin, hework⟩ := Date.mem_workingDaysOf.1 he
  have hnumber := Date.number_ofFields y m e
  have := hleast _ hework (by omega)
  omega

lemma workingDayUpto_last (hm : 1 ≤ m ∧ m ≤ 12) {last : Date}
    (hlast : last.number = (Date.ofFields y m 1).number + (Date.monthLength y m - 1)) :
    (workingDayUpto last).dayOfMonth ∈ Date.workingDaysOf y m
      ∧ ∀ e ∈ Date.workingDaysOf y m, e ≤ (workingDayUpto last).dayOfMonth := by
  have hlength := Date.monthLength_pos y m
  obtain ⟨hwork, hto, hfrom, hgreatest⟩ := workingDayUpto_spec last
  obtain ⟨hmem, hday⟩ := mem_workingDaysOf_dayOfMonth (y := y) hm hwork (by omega)
  refine ⟨hmem, fun e he => ?_⟩
  obtain ⟨hin, hework⟩ := Date.mem_workingDaysOf.1 he
  have hnumber := Date.number_ofFields y m e
  have := hgreatest _ hework (by omega)
  omega

open SpecialDay Text in
/-- **The weekday forms of a day are exact.** An n-th weekday is the n-th of the days of that
weekday, counted from its edge of the month, and matches nothing when there are fewer; the first and
the last working day are the least and the greatest of the days from Monday to Friday; and the
working day closest to a day, cut to the month, is the one of them that is nearer to it than every
other. -/
theorem ofText_weekdays (hy : Date.firstYear ≤ y ∧ y ≤ Date.lastYear) (hm : 1 ≤ m ∧ m ≤ 12)
    (text : String) :
    (∀ n, nthWeekday? (.ofList (smallChars text)) = some n →
      (1 ≤ n.nth ∧ n.nth ≤ 5)
        ∧ (∀ d, ofText .day y m text = value d ↔ (n.countedIn y m)[(n.nth - 1).toNat]? = some d)
        ∧ (ofText .day y m text = noMatch ↔ (n.countedIn y m).length < n.nth))
    ∧ (smallChars text = "firstweekday".toList → ∃ d ∈ Date.workingDaysOf y m,
        ofText .day y m text = value d ∧ ∀ e ∈ Date.workingDaysOf y m, d ≤ e)
    ∧ (smallChars text = "lastweekday".toList → ∃ d ∈ Date.workingDaysOf y m,
        ofText .day y m text = value d ∧ ∀ e ∈ Date.workingDaysOf y m, e ≤ d)
    ∧ (∀ ds, closestNumber? (smallChars text) = some ds → 1 ≤ digitsValue ds → digitsValue ds ≤ 31 →
        ∃ d ∈ Date.workingDaysOf y m, ofText .day y m text = value d
          ∧ ∀ e ∈ Date.workingDaysOf y m, e ≠ d →
            (d - min (digitsValue ds : Int) (Date.monthLength y m)).natAbs
              < (e - min (digitsValue ds : Int) (Date.monthLength y m)).natAbs) := by
  have hlength := Date.monthLength_pos y m
  refine ⟨fun n hn => ?_, fun h => ?_, fun h => ?_, fun ds hds hlo hhi => ?_⟩
  -- an n-th weekday is looked up in the list of the days it is counted among
  · have hbounds := nth_bounds hn
    rw [ofText_of_nthWeekday hy hm hn, Date.daysInMonth_eq hy hm, ofNthWeekday_eq hm hbounds.1]
    refine ⟨hbounds, fun d => ?_, ?_⟩
    · cases (n.countedIn y m)[(n.nth - 1).toNat]? with
      | none => simp
      | some e => simp
    · have hcount :
          (n.countedIn y m).length < n.nth ↔ (n.countedIn y m)[(n.nth - 1).toNat]? = none := by
        rw [List.getElem?_eq_none_iff]
        omega
      rw [hcount]
      cases (n.countedIn y m)[(n.nth - 1).toNat]? with
      | none => simp
      | some e => simp
  -- the first and the last working day
  · obtain ⟨hmem, hleast⟩ := workingDayFrom_first (y := y) hm
    exact ⟨_, hmem, ofText_of_firstWeekday hy hm h, hleast⟩
  · obtain ⟨hmem, hgreatest⟩ := workingDayUpto_last (y := y) hm rfl
    refine ⟨_, hmem, ?_, hgreatest⟩
    rw [ofText_of_lastWeekday hy hm h, Date.daysInMonth_eq hy hm]
  -- the working day next to a day
  · obtain ⟨w, hw, rest, heq⟩ := exists_of_closestNumber? hds
    obtain ⟨hmem, hnearest⟩ :=
      closestWeekday_spec hy hm (n := min (digitsValue ds) (Date.monthLength y m)) (by omega)
    refine ⟨_, hmem, ?_, hnearest⟩
    rw [ofText_of_closest hy hm hw heq, hds, Date.daysInMonth_eq hy hm]
    exact if_pos (by omega)

/-- June 2024 begins on a Saturday and ends on a Sunday. -/
theorem ofText_weekdays_june :
    (Date.firstYear ≤ 2024 ∧ 2024 ≤ Date.lastYear) ∧ ((1 : Int) ≤ 6 ∧ (6 : Int) ≤ 12)
    ∧ ofText .day 2024 6 "5thSaturday" = value 29 ∧ ofText .day 2024 6 "5thLastFriday" = noMatch
    ∧ (∃ d ∈ Date.workingDaysOf 2024 6, ofText .day 2024 6 " FirstWeekday" = value d
      ∧ ∀ e ∈ Date.workingDaysOf 2024 6, d ≤ e)
    ∧ (∃ d ∈ Date.workingDaysOf 2024 6, ofText .day 2024 6 "ClosestWeekdayTo 31" = value d
      ∧ ∀ e ∈ Date.workingDaysOf 2024 6, e ≠ d → (d - 30).natAbs < (e - 30).natAbs) := by
  have june (text : String) := ofText_weekdays (y := 2024) (m := 6) (by decide) (by decide) text
  refine ⟨by decide, by decide, ?_, ?_, ?_, ?_⟩
  · exact (((june "5thSaturday").1 ⟨5, .first, .saturday⟩ (by decide +kernel)).2.1 29).2
      (by decide +kernel)
  · exact ((june "5thLastFriday").1 ⟨5, .last, .friday⟩ (by decide +kernel)).2.2.2
      (by decide +kernel)
  · exact (june " FirstWeekday").2.1 (by decide +kernel)
  · exact (june "ClosestWeekdayTo 31").2.2.2 ['3', '1'] (by decide +kernel) (by decide) (by decide)

end Resolution

end Recurrence
