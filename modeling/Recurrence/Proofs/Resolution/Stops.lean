import Recurrence.Proofs.Calendar.Checked
import Recurrence.Proofs.Resolution.Offsets
import Recurrence.Proofs.Resolution.Weekdays
import Recurrence.Proofs.Text.Numerals
import Recurrence.Resolution.Checked

/-!
Where the resolution of a text stops. The numbers and the dates on the way to a value fit, in all
months that words hold, with two exceptions at the ends of the ranges. An edge of the days of a
month asks how long the month is, on the calendar or not, and the year after the last December of a
word has no number. And a weekday that its month has too few of is looked for beyond the month,
where there is no date when the calendar ends or begins there. Everywhere else the words make no
difference.

Main statements: `Resolution.resolve_stops_iff` and `Memory.answer_error_iff`.
-/

namespace Recurrence

open SpecialDay Text

/-! ### Edges -/

namespace EdgeText

variable {cs ds : List Char} {e : EdgeText}

lemma length_of_offset? {dir : Direction} (h : offset? cs = some (some (dir, ds))) :
    ds.length ≤ 6 := by
  have digits {rest : List Char} {dir' : Direction}
      (h : (digits? rest).map (fun ds => some (dir', ds)) = some (some (dir, ds))) :
      ds.length ≤ 6 := by
    obtain ⟨ds', hds, heq⟩ := Option.map_eq_some_iff.1 h
    cases heq
    unfold digits? at hds
    dsimp only at hds
    split at hds
    · rename_i hlength
      cases hds
      exact hlength.2.1
    · cases hds
  unfold offset? at h
  split at h
  · cases h
  · exact digits h
  · exact digits h
  · cases h

lemma shift_bounds (h : ofChars? cs = some e) : -999999 ≤ e.shift ∧ e.shift ≤ 999999 := by
  obtain ⟨w, -, d, -, tail, -, ho⟩ := ofChars?_eq_some h
  have amount_bounds {dir : Direction} {ds : List Char} (hds : e.offset = some (dir, ds)) :
      0 ≤ amount ds ∧ amount ds ≤ 999999 := by
    rw [hds] at ho
    have hlength := length_of_offset? ho
    unfold amount
    split
    · rename_i hdigits
      have hlt := digitsValue_lt hdigits
      have hpow : 10 ^ ds.length ≤ 10 ^ 6 := Nat.pow_le_pow_right (by decide) hlength
      omega
    · decide
  unfold shift
  split
  · decide
  · rename_i ds hds
    exact ⟨by have := amount_bounds hds; omega, (amount_bounds hds).2⟩
  · rename_i ds hds
    have := amount_bounds hds
    omega

end EdgeText

/-- Where an n-th weekday is looked for off the calendar: the month has too few of the weekday, and
the calendar ends or begins where the count leaves the month. -/
def NthWeekday.OffCalendar (n : NthWeekday) (year month : Int) : Prop :=
  (n.countedIn year month).length < n.nth
    ∧ (n.edge = .first ∧ year = Date.lastYear ∧ month = 12
      ∨ n.edge = .last ∧ year = Date.firstYear ∧ month = 1)

instance (n : NthWeekday) (year month : Int) : Decidable (n.OffCalendar year month) :=
  inferInstanceAs (Decidable (_ ∧ _))

/-- Where the resolution of a text stops, and at what. -/
inductive Resolution.Stops (u : TimeUnit) (year month : Int) (text : String) : Overflow → Prop
  /-- The year after the last December of a word is asked for. -/
  | year {e : EdgeText} (hday : u = .day) (hyear : year = Word.signed32.greatest)
    (hmonth : 12 ≤ month)
      (hedge : EdgeText.ofChars? (smallChars text) = some e) : Stops u year month text .number
  /-- A weekday is looked for off the calendar. -/
  | weekday {n : NthWeekday} (hday : u = .day)
    (hnth : nthWeekday? (.ofList (smallChars text)) = some n)
      (hoff : n.OffCalendar year month) : Stops u year month text .date

lemma TimeUnit.maxValueIn_bounds (u : TimeUnit) (y m : Int) :
    0 ≤ u.minValue ∧ u.minValue ≤ u.maxValueIn y m ∧ u.maxValueIn y m ≤ 9999 := by
  have hdays := Date.daysInMonth_bounds y m
  unfold maxValueIn
  split
  · rename_i h
    rw [h.1]
    simp only [minValue]
    omega
  · cases u <;> decide

namespace Checked

variable {u : TimeUnit} {y m : Int}

section Words

variable (hy : Word.signed32.least ≤ y ∧ y ≤ Word.signed32.greatest)
  (hm : 0 ≤ m ∧ m ≤ Word.unsigned32.greatest)
include hy hm

/-- Only for days does the greatest value of a unit stop, and then where the length of the month
does. -/
lemma maxValueIn_eq (u : TimeUnit) : maxValueIn u y m
    = if u = .day ∧ y = Word.signed32.greatest ∧ 12 ≤ m then .error .number
      else .ok (u.maxValueIn y m) := by
  unfold maxValueIn TimeUnit.maxValueIn
  by_cases hday : u = .day ∧ m ≠ 0
  · rw [if_pos hday, if_pos hday, daysInMonth_eq hy hm]
    exact if_congr (by simp [hday.1]) rfl rfl
  · rw [if_neg hday, if_neg hday, if_neg fun h => hday ⟨h.1, by omega⟩]

/-- An edge stops where the length of its month does: its offset and its range always fit. -/
lemma ofEdge_eq {cs : List Char} {e : EdgeText} (he : EdgeText.ofChars? cs = some e) :
    ofEdge u y m e
    = if u = .day ∧ y = Word.signed32.greatest ∧ 12 ≤ m then .error .number
      else .ok (Resolution.ofEdge u y m e) := by
  have hshift := EdgeText.shift_bounds he
  have hrange := u.maxValueIn_bounds y m
  by_cases hmonth : e.ofMonth = true ∧ u ≠ .day
  · rw [ofEdge, Resolution.ofEdge, if_pos hmonth, if_pos hmonth, if_neg fun h => hmonth.2 h.1]
  by_cases hnone : u = .day ∧ m = 0
  · rw [ofEdge, Resolution.ofEdge, if_neg hmonth, if_neg hmonth, if_pos hnone, if_pos hnone,
      if_neg fun h => by omega]
  rw [ofEdge, if_neg hmonth, if_neg hnone, maxValueIn_eq hy hm u]
  split
  · rfl
  · have hbase : 0 ≤ e.base u y m ∧ e.base u y m ≤ 9999 := by
      unfold EdgeText.base
      split <;> omega
    have hshifted : Word.signed32.hold (e.base u y m + e.shift) = pure (e.base u y m + e.shift) :=
      Word.hold_eq (by simp only [Word.least, Word.greatest]; omega)
    show Word.signed32.hold (e.base u y m + e.shift) >>= (fun shifted =>
      clamp u.minValue (u.maxValueIn y m) shifted >>= fun v => pure (Resolution.value v)) = _
    rw [hshifted, pure_bind, clamp, if_pos hrange.2.1, Resolution.ofEdge, if_neg hmonth,
      if_neg hnone]
    rfl

end Words

/-! ### Weekdays -/

section Month

variable (hy : Date.firstYear ≤ y ∧ y ≤ Date.lastYear) (hm : 1 ≤ m ∧ m ≤ 12)
include hy hm

lemma ofNthWeekday_eq {n : NthWeekday} (hn : 1 ≤ n.nth ∧ n.nth ≤ 5) :
    ofNthWeekday (Date.ofFields y m 1) ⟨(Date.ofFields y m 1).number + (Date.monthLength y m - 1)⟩ n
      = if n.OffCalendar y m then .error .date
        else .ok (Resolution.ofNthWeekday (Date.ofFields y m 1)
        ⟨(Date.ofFields y m 1).number + (Date.monthLength y m - 1)⟩ n) := by
  obtain ⟨nth, edge, w⟩ := n
  dsimp only at hn
  -- from either edge: where the date is on the calendar, the rest goes as without limits
  have look {found : Date} {c : Prop} [Decidable c]
      (hc : NthWeekday.OffCalendar ⟨nth, edge, w⟩ y m ↔ c) :
      ((if c then .error .date else .ok found : Checked Date) >>= fun found =>
        if found.month = (Date.ofFields y m 1).month ∧ found.year = (Date.ofFields y m 1).year then
          pure (Resolution.value found.dayOfMonth) else pure .noMatch)
      = if NthWeekday.OffCalendar ⟨nth, edge, w⟩ y m then .error .date else .ok
        (if found.month = (Date.ofFields y m 1).month ∧ found.year = (Date.ofFields y m 1).year then
          .value found.dayOfMonth else .noMatch) := by
    rw [if_congr hc rfl rfl]
    split
    · rfl
    · exact (apply_ite pure _ _ _).symm
  cases edge with
  -- the days of a month that fall on a weekday run out exactly when the weeks leave it
  | first =>
    simp only [ofNthWeekday, Resolution.ofNthWeekday]
    rw [addDays_first hy hm (by simp only [Resolution.weekdayGap]; omega)]
    refine look ?_
    rw [← Date.length_weekdaysOf_lt_iff hn.1]
    simp [NthWeekday.OffCalendar, NthWeekday.countedIn, and_comm]
  | last =>
    simp only [ofNthWeekday, Resolution.ofNthWeekday]
    rw [addDays_last hy hm (by simp only [Resolution.weekdayGap]; omega)]
    refine look ?_
    rw [← Date.length_weekdaysOf_lt_iff_last hn.1]
    simp [NthWeekday.OffCalendar, NthWeekday.countedIn, and_comm]

/-! ### Working days -/

lemma workingDayFrom_eq : workingDayFrom (Date.ofFields y m 1)
    = .ok (Resolution.workingDayFrom (Date.ofFields y m 1)) := by
  have hlength := Date.monthLength_pos y m
  unfold workingDayFrom Resolution.workingDayFrom
  split_ifs
  · rw [addDays_first hy hm (by decide), if_neg (by omega)]
  · rw [addDays_first hy hm (by decide), if_neg (by omega)]
  · rw [addDays_first hy hm (by decide), if_neg (by omega), Int.add_zero]

lemma workingDayUpto_eq :
    workingDayUpto ⟨(Date.ofFields y m 1).number + (Date.monthLength y m - 1)⟩
      = .ok (Resolution.workingDayUpto
        ⟨(Date.ofFields y m 1).number + (Date.monthLength y m - 1)⟩) := by
  have hlength := Date.monthLength_pos y m
  unfold workingDayUpto Resolution.workingDayUpto
  split_ifs
  · rw [addDays_last hy hm (k := 1) (by decide), if_neg (by omega)]
  · rw [addDays_last hy hm (k := 2) (by decide), if_neg (by omega)]
  · have h := addDays_last hy hm (k := 0) (by decide)
    rwa [if_neg (by omega), Int.neg_zero, Int.sub_zero] at h

lemma closestWeekday_eq {n : Int} (hn : 1 ≤ n ∧ n ≤ Date.monthLength y m) :
    closestWeekday y m n = .ok (Resolution.closestWeekday y m n) := by
  have hlength := Date.monthLength_pos y m
  have hold {k : Int} (hk : 0 ≤ k ∧ k ≤ 33) : Word.unsigned32.hold k = .ok k :=
    Word.hold_eq (by simp only [Word.least, Word.greatest]; omega)
  unfold closestWeekday Resolution.closestWeekday
  rw [daysInMonth_on hy hm, pure_bind, Date.ofFields?_eq hy hm hn, Date.daysInMonth_eq hy hm]
  dsimp only
  split_ifs <;> first | rfl | exact hold (by omega)

/-! ### Day forms -/

lemma ofDayForm_eq (word : String) : ofDayForm y m word = match nthWeekday? word with
    | some n => if n.OffCalendar y m then .error .date else .ok (Resolution.ofDayForm y m word)
    | none => .ok (Resolution.ofDayForm y m word) := by
  have hlength := Date.monthLength_pos y m
  -- the last day of a month of the calendar is on it
  have hlast : addDays (Date.ofFields y m 1) (Date.monthLength y m - 1)
      = pure ⟨(Date.ofFields y m 1).number + (Date.monthLength y m - 1)⟩ := by
    rw [addDays_first hy hm (by omega), if_neg (by omega)]
    rfl
  unfold ofDayForm Resolution.ofDayForm
  rw [Date.ofFields?_first hy hm, Date.daysInMonth_eq hy hm]
  dsimp only
  rw [daysInMonth_on hy hm, pure_bind, hlast, pure_bind]
  cases hnth : nthWeekday? word with
  | some n => exact ofNthWeekday_eq hy hm (nth_bounds hnth)
  | none =>
    dsimp only
    -- no other form leaves the month
    by_cases hfirst : word = "firstweekday"
    · rw [if_pos hfirst, if_pos hfirst, workingDayFrom_eq hy hm]
      rfl
    by_cases hupto : word = "lastweekday"
    · rw [if_neg hfirst, if_neg hfirst, if_pos hupto, if_pos hupto, workingDayUpto_eq hy hm]
      rfl
    rw [if_neg hfirst, if_neg hfirst, if_neg hupto, if_neg hupto]
    cases Resolution.closestNumber? word.toList with
    | some ds =>
      dsimp only
      split
      · rw [closestWeekday_eq hy hm (by omega)]
        rfl
      · rfl
    | none =>
      cases ordinalDay? word <;> rfl

end Month

/-! ### Texts -/

variable {text : String}

lemma ofText_day_eq (hdigits : ¬ (smallChars text).all Char.isDigit = true) : ofText .day y m text
    = match EdgeText.ofChars? (smallChars text) with
      | some e => ofEdge .day y m e
      | none => ofDayForm y m (.ofList (smallChars text)) := by
  rw [Resolution.all_isDigit_smallChars] at hdigits
  have hne : trimChars text.toList ≠ [] := fun hnil => hdigits (by rw [hnil]; rfl)
  unfold ofText
  dsimp only
  rw [if_neg (not_or.2 ⟨by decide, hne⟩), if_neg hdigits]
  show (match EdgeText.ofChars? (smallChars text) with
    | some e => ofEdge .day y m e
    | none => if TimeUnit.day = TimeUnit.day then ofDayForm y m (.ofList (smallChars text))
      else .ok .invalid) = _
  rw [if_pos rfl]

lemma ofText_stops {o : Overflow} (hm : m ≤ Word.unsigned32.greatest)
    (h : Resolution.Stops u y m text o) :
    ofText u y m text = .error o := by
  cases h with
  | year hday hyear hmonth hedge =>
    rw [hday, ofText_day_eq (EdgeText.not_all_isDigit hedge), hedge]
    dsimp only
    rw [ofEdge_eq (by rw [hyear]; decide) ⟨by omega, hm⟩ hedge, if_pos ⟨rfl, hyear, hmonth⟩]
  | weekday hday hnth hoff =>
    have hmonth : (Date.firstYear ≤ y ∧ y ≤ Date.lastYear) ∧ 1 ≤ m ∧ m ≤ 12 := by
      have hcalendar : Date.firstYear ≤ Date.lastYear := by decide
      rcases hoff.2 with ⟨-, hyear, hmonth⟩ | ⟨-, hyear, hmonth⟩ <;> omega
    rw [hday, ofText_day_eq (not_all_isDigit_of_nthWeekday? hnth),
      EdgeText.ofChars?_of_nthWeekday? hnth]
    dsimp only
    rw [ofDayForm_eq hmonth.1 hmonth.2, hnth]
    exact if_pos hoff

lemma ofText_runs (hy : Word.signed32.least ≤ y ∧ y ≤ Word.signed32.greatest)
    (hm : 0 ≤ m ∧ m ≤ Word.unsigned32.greatest) (h : ∀ o, ¬ Resolution.Stops u y m text o) :
    ofText u y m text = .ok (Resolution.ofText u y m text) := by
  unfold ofText Resolution.ofText
  dsimp only
  by_cases hnone : u = .timeZone ∨ trimChars text.toList = []
  · rw [if_pos hnone, if_pos hnone]
  rw [if_neg hnone, if_neg hnone]
  by_cases hdigits : (trimChars text.toList).all Char.isDigit = true
  · rw [if_pos hdigits, if_pos hdigits]
  rw [if_neg hdigits, if_neg hdigits]
  cases Resolution.ofName? u (String.ofList (trimChars text.toList)) with
  | some v => rfl
  | none =>
    dsimp only
    cases hedge : EdgeText.ofChars? ((trimChars text.toList).map Char.toLower) with
    | some e =>
      dsimp only
      rw [ofEdge_eq hy hm hedge, if_neg fun hstop => h _ (.year hstop.1 hstop.2.1 hstop.2.2 hedge)]
    | none =>
      dsimp only
      by_cases hday : u = .day
      · rw [if_pos hday, if_pos hday]
        -- off the calendar no day form is read
        by_cases hmonth : (Date.firstYear ≤ y ∧ y ≤ Date.lastYear) ∧ 1 ≤ m ∧ m ≤ 12
        · rw [ofDayForm_eq hmonth.1 hmonth.2]
          split
          · rename_i n hnth
            exact if_neg fun hoff => h _ (.weekday hday hnth hoff)
          · rfl
        · unfold ofDayForm Resolution.ofDayForm
          rw [Date.ofFields?_off hmonth]
      · rw [if_neg hday, if_neg hday]

end Checked

namespace Resolution

section

variable {u : TimeUnit} {year : Int32} {month : UInt32} {text : String}

lemma resolve_of_stops {o : Overflow} (h : Stops u year.toInt month.toNat text o) :
    resolve u year month text = .error o := by
  have := month.toNat_lt
  exact Checked.ofText_stops (by simp only [Word.greatest]; omega) h

lemma resolve_of_runs (h : ∀ o, ¬ Stops u year.toInt month.toNat text o) :
    resolve u year month text = .ok (ofText u year.toInt month.toNat text) := by
  have hleast := year.le_toInt
  have hgreatest := year.toInt_lt
  have hmonth := month.toNat_lt
  exact Checked.ofText_runs (by simp only [Word.least, Word.greatest]; omega)
    (by simp only [Word.greatest]; omega) h

end

/-- **The resolution of a text stops in two cases and in no others**: an edge of the days of a
December, or of what comes after it, in the last year of a word; and an n-th weekday that the last
month of the calendar has too few of, or the first month when they are counted from its end. In all
other cases, for every unit, year, month and text that there is, the result is what the text stands
for without limits. -/
theorem resolve_stops_iff (u : TimeUnit) (year : Int32) (month : UInt32) (text : String) :
    (∀ o, resolve u year month text = .error o ↔ Stops u year.toInt month.toNat text o)
      ∧ ∀ r, resolve u year month text = .ok r
        ↔ r = ofText u year.toInt month.toNat text
          ∧ ∀ o, ¬ Stops u year.toInt month.toNat text o := by
  by_cases h : ∃ o, Stops u year.toInt month.toNat text o
  · obtain ⟨o, ho⟩ := h
    have hstops := resolve_of_stops ho
    refine ⟨fun o' => ⟨fun herror => ?_, resolve_of_stops⟩,
      fun r => ⟨fun hok => ?_, fun hr => absurd ho (hr.2 o)⟩⟩
    · rw [hstops] at herror
      cases herror
      exact ho
    · rw [hstops] at hok
      cases hok
  · have hruns := resolve_of_runs (not_exists.1 h)
    refine ⟨fun o => ⟨fun herror => ?_, resolve_of_stops⟩, fun r => ⟨fun hok => ?_, fun hr => ?_⟩⟩
    · rw [hruns] at herror
      cases herror
    · rw [hruns] at hok
      cases hok
      exact ⟨rfl, not_exists.1 h⟩
    · rw [hruns, hr.1]

/-- The last day of the last December of a word, a fifth Tuesday of the last month of the calendar
and a fifth last Monday of the first one are looked for in vain. -/
theorem resolve_stops_at_the_ends :
    (resolve .day 2147483647 12 "Last" = .error .number
      ∧ ofText .day 2147483647 12 "Last" = value 31)
    ∧ (resolve .day 262142 12 "5thTuesday" = .error .date
      ∧ ofText .day 262142 12 "5thTuesday" = noMatch)
    ∧ resolve .day (-262143) 1 "5thLastMonday" = .error .date
    ∧ ofText .day (-262143) 1 "5thLastMonday" = noMatch := by
  decide +kernel

end Resolution

/-! ### Memories -/

namespace Memory

variable {m : Memory} {u : TimeUnit} {year : Int32} {month : UInt32} {text : String}

/-- A memory that does not stop answers as it does without limits, and keeps the same. -/
theorem eq_resolve_of_answer {r : Resolution × Memory} (h : m.answer u year month text = .ok r) :
    r = m.resolve u year.toInt month.toNat text := by
  obtain ⟨kept, m', hget⟩ : ∃ kept m', m.get (.of u year.toInt month.toNat text) = (kept, m') :=
    ⟨_, _, rfl⟩
  unfold answer at h
  unfold resolve
  dsimp only at h ⊢
  rw [hget] at h ⊢
  cases kept with
  | some hit =>
    cases h
    rfl
  | none =>
    by_cases hstops : ∃ o, Resolution.Stops u year.toInt month.toNat text o
    · obtain ⟨o, ho⟩ := hstops
      rw [Resolution.resolve_of_stops ho] at h
      cases h
    · rw [Resolution.resolve_of_runs (not_exists.1 hstops)] at h
      cases h
      rfl

/-- **A memory stops exactly where it has no answer yet and the resolution stops.** -/
theorem answer_error_iff {o : Overflow} : m.answer u year month text = .error o
    ↔ (m.get (.of u year.toInt month.toNat text)).1 = none
      ∧ Resolution.Stops u year.toInt month.toNat text o := by
  obtain ⟨kept, m', hget⟩ : ∃ kept m', m.get (.of u year.toInt month.toNat text) = (kept, m') :=
    ⟨_, _, rfl⟩
  unfold answer
  dsimp only
  rw [hget]
  cases kept with
  | some hit => exact iff_of_false (fun h => by cases h) fun h => by cases h.1
  | none =>
    by_cases hstops : ∃ o, Resolution.Stops u year.toInt month.toNat text o
    · obtain ⟨o', ho'⟩ := hstops
      have hresolve := Resolution.resolve_of_stops ho'
      rw [hresolve]
      constructor
      · rintro ⟨⟩
        exact ⟨rfl, ho'⟩
      · rintro ⟨-, ho⟩
        rw [Resolution.resolve_of_stops ho] at hresolve
        cases hresolve
        rfl
    · rw [Resolution.resolve_of_runs (not_exists.1 hstops)]
      exact iff_of_false (fun h => by cases h) fun h => hstops ⟨o, h.2⟩

end Memory

end Recurrence
