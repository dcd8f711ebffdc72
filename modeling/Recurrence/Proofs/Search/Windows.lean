import Recurrence.Search.Window
import Recurrence.Proofs.Calendar.FieldOrder
import Recurrence.Proofs.Search.Jumps

/-!
Jumps into windows. When the bounded units of a range are next to each other its window is the same
for all times of one cycle of the coarsest of them, and a jump to its start or past its end is safe.

Main statements: `fillBounds_congr`, `eq_opening_of_accepts` and `safe_check`.
-/

namespace Recurrence

namespace Range

open LocalTime Fields TimeUnit

/-- The units of date and clock that have bounds are next to each other. -/
def InARow (r : Range) : Prop := r.bounded <:+: clockOrder

instance (r : Range) : Decidable r.InARow := inferInstanceAs (Decidable (_ <:+: _))

variable {r : Range} {finest : TimeUnit}

lemma pairwise_clockOrder : clockOrder.Pairwise fun u v => v.isFinerThan u = true := by decide

lemma mem_clockOrder_iff {u : TimeUnit} : u ∈ clockOrder ↔ HasField u := by
  cases u <;> decide

/-! ### The window of a time -/

def Keeps (r : Range) (finest u : TimeUnit) : Prop :=
  r.bounds.get? u = none ∧ u.isFinerThan finest = false

lemma ofText_congr {u : TimeUnit} {f g : Fields}
    (h : u = .day → f.year = g.year ∧ f.month = g.month) (text : String) :
    Resolution.ofText u f.year f.month text = Resolution.ofText u g.year g.month text := by
  by_cases hu : u = .day
  · rw [(h hu).1, (h hu).2]
  · exact Resolution.ofText_eq_of_ne_day hu _ _ _ _ text

lemma maxValueIn_congr {u : TimeUnit} {f g : Fields}
    (h : u = .day → f.year = g.year ∧ f.month = g.month) :
    u.maxValueIn f.year f.month = u.maxValueIn g.year g.month := by
  by_cases hu : u = .day
  · rw [(h hu).1, (h hu).2]
  · rw [TimeUnit.maxValueIn_of_ne_day hu, TimeUnit.maxValueIn_of_ne_day hu]

/-- The fields have the same values wherever filling in from `us` on leaves them. -/
def AgreeOutside (r : Range) (finest : TimeUnit) (us : List TimeUnit) (f g : Fields) : Prop :=
  ∀ v, HasField v → v ∉ us ∨ r.Keeps finest v → f.get v = g.get v

lemma AgreeOutside.set {u : TimeUnit} {us : List TimeUnit} {f g : Fields}
    (h : r.AgreeOutside finest (u :: us) f g) (x : Int) :
    r.AgreeOutside finest us (f.set u x) (g.set u x) := by
  intro v hv ho
  rw [get_set hv, get_set hv]
  split
  · rfl
  · rename_i huv
    exact h v hv (ho.imp_left fun hn => by simp [hn, Ne.symm huv])

lemma AgreeOutside.keep {u : TimeUnit} {us : List TimeUnit} {f g : Fields}
    (h : r.AgreeOutside finest (u :: us) f g) (hk : r.Keeps finest u) :
    r.AgreeOutside finest us f g := by
  intro v hv ho
  by_cases huv : v = u
  · exact h v hv (Or.inr (huv ▸ hk))
  · exact h v hv (ho.imp_left fun hn => by simp [hn, huv])

lemma AgreeOutside.month {u : TimeUnit} {us : List TimeUnit} {f g : Fields}
    (h : r.AgreeOutside finest (u :: us) f g) (hus : ∀ v ∈ us, v.isFinerThan u = true)
    (hu : u = .day) : f.year = g.year ∧ f.month = g.month := by
  subst hu
  have hn : ∀ v, v ≠ .day → v.isFinerThan .day = false → v ∉ TimeUnit.day :: us := by
    intro v hv hf hm
    rcases List.mem_cons.mp hm with rfl | hm
    · exact hv rfl
    · rw [hus v hm] at hf; cases hf
  exact ⟨h .year (by decide) (Or.inl (hn _ (by decide) rfl)),
    h .month (by decide) (Or.inl (hn _ (by decide) rfl))⟩

/-- **The window depends only on the fields that it keeps.** -/
theorem fillBounds_congr {us : List TimeUnit} {f f' g g' : Fields}
    (hus : us.Pairwise fun u v => v.isFinerThan u = true) (hf : r.AgreeOutside finest us f f')
    (hg : r.AgreeOutside finest us g g') :
    r.fillBounds finest f g us = r.fillBounds finest f' g' us := by
  induction us generalizing f f' g g' with
  | nil =>
    rw [ext_get fun v hv => hf v hv (by simp), ext_get fun v hv => hg v hv (by simp)]
  | cons u us ih =>
    rw [List.pairwise_cons] at hus
    have hmf := hf.month hus.1
    have hmg := hg.month hus.1
    simp only [fillBounds, ofText_congr hmf, ofText_congr hmg, TimeUnit.clampIn,
      maxValueIn_congr hmf, maxValueIn_congr hmg]
    cases hb : r.bounds.get? u with
    | some b =>
      simp only
      split
      · exact ih hus.2 (hf.set _) (hg.set _)
      · rfl
    | none =>
      simp only
      split
      · exact ih hus.2 (hf.set _) (hg.set _)
      · rename_i hn
        have hk : r.Keeps finest u := ⟨hb, Bool.eq_false_iff.mpr hn⟩
        exact ih hus.2 (hf.keep hk) (hg.keep hk)

/-- Filling in one unit keeps the first fields or sets one of them, without bounds to its least
value. -/
lemma fillBounds_cons {u : TimeUnit} {us : List TimeUnit} {f g a b : Fields}
    (h : r.fillBounds finest f g (u :: us) = some (a, b)) :
    (∃ x g', ¬ r.Keeps finest u ∧ (r.bounds.get? u = none → x = u.minValue)
      ∧ r.fillBounds finest (f.set u x) g' us = some (a, b))
    ∨ r.Keeps finest u ∧ r.fillBounds finest f g us = some (a, b) := by
  rw [fillBounds] at h
  cases hb : r.bounds.get? u with
  | some p =>
    have hk : ¬ r.Keeps finest u := fun hk => by simp [hk.1] at hb
    simp only [hb] at h
    split at h
    · exact Or.inl ⟨_, _, hk, by simp, h⟩
    · cases h
  | none =>
    simp only [hb] at h
    split at h
    · rename_i hf
      exact Or.inl ⟨_, _, fun hk => by simp [hk.2] at hf, fun _ => rfl, h⟩
    · rename_i hf
      exact Or.inr ⟨⟨hb, Bool.eq_false_iff.mpr hf⟩, h⟩

lemma fillBounds_outside {us : List TimeUnit} {f g a b : Fields}
    (h : r.fillBounds finest f g us = some (a, b)) : r.AgreeOutside finest us a f := by
  induction us generalizing f g with
  | nil =>
    simp only [fillBounds, Option.some.injEq, Prod.mk.injEq] at h
    intro v _ _
    rw [h.1]
  | cons u us ih =>
    intro v hv ho
    rcases fillBounds_cons h with ⟨x, g', hk, -, h'⟩ | ⟨-, h'⟩
    · have huv : u ≠ v := by
        rintro rfl
        exact ho.elim (fun hn => hn (by simp)) hk
      rw [ih h' v hv (ho.imp_left fun hn hm => hn (List.mem_cons_of_mem _ hm)), get_set hv,
        if_neg huv]
    · exact ih h' v hv (ho.imp_left fun hn hm => hn (List.mem_cons_of_mem _ hm))

lemma fillBounds_least {us : List TimeUnit} {f g a b : Fields} (hus : us.Nodup)
    (h : r.fillBounds finest f g us = some (a, b)) {v : TimeUnit} (hv : HasField v) (hm : v ∈ us)
    (hb : r.bounds.get? v = none) (hf : v.isFinerThan finest = true) : a.get v = v.minValue := by
  induction us generalizing f g with
  | nil => cases hm
  | cons u us ih =>
    rw [List.nodup_cons] at hus
    rcases List.mem_cons.mp hm with rfl | hm
    · rcases fillBounds_cons h with ⟨x, g', -, hx, h'⟩ | ⟨hk, -⟩
      · rw [fillBounds_outside h' v hv (Or.inl hus.1), get_set hv, if_pos rfl, hx hb]
      · rw [hk.2] at hf; cases hf
    · rcases fillBounds_cons h with ⟨x, g', -, -, h'⟩ | ⟨-, h'⟩
      · exact ih hus.2 h' hm
      · exact ih hus.2 h' hm

/-! ### The bounded units -/

lemma mem_bounded {u : TimeUnit} : u ∈ r.bounded ↔ HasField u ∧ (r.bounds.get? u).isSome := by
  rw [bounded, List.mem_filter, mem_clockOrder_iff]

lemma get?_eq_none_of_not_mem {u : TimeUnit} (hu : HasField u) (h : u ∉ r.bounded) :
    r.bounds.get? u = none := by
  by_contra hn
  exact h (mem_bounded.mpr ⟨hu, Option.isSome_iff_ne_none.mpr hn⟩)

lemma pairwise_bounded (r : Range) : r.bounded.Pairwise fun u v => v.isFinerThan u = true :=
  pairwise_clockOrder.sublist List.filter_sublist

/-- The range has bounds for date or clock, the first and the last of them these. -/
structure Spans (r : Range) (coarsest finest : TimeUnit) : Prop where
  head : r.bounded.head? = some coarsest
  last : r.bounded.getLast? = some finest

variable {coarsest : TimeUnit} {s t : LocalTime}

lemma exists_spans (h : r.bounded ≠ []) : ∃ coarsest finest, r.Spans coarsest finest :=
  ⟨_, _, List.head?_eq_some_head h, List.getLast?_eq_some_getLast h⟩

namespace Spans

lemma mem_coarsest (h : r.Spans coarsest finest) : coarsest ∈ r.bounded :=
  List.mem_of_mem_head? h.head

lemma mem_finest (h : r.Spans coarsest finest) : finest ∈ r.bounded :=
  List.mem_of_mem_getLast? h.last

lemma finer_of_mem (h : r.Spans coarsest finest) {v : TimeUnit} (hm : v ∈ r.bounded) :
    v = coarsest ∨ v.isFinerThan coarsest = true := by
  have hp := r.pairwise_bounded
  obtain ⟨us, hus⟩ := List.head?_eq_some_iff.mp h.head
  rw [hus] at hm hp
  rw [List.pairwise_cons] at hp
  exact (List.mem_cons.mp hm).imp_right (hp.1 v)

lemma coarser_of_mem (h : r.Spans coarsest finest) {v : TimeUnit} (hm : v ∈ r.bounded) :
    v = finest ∨ finest.isFinerThan v = true := by
  have hp := r.pairwise_bounded
  obtain ⟨us, hus⟩ := List.getLast?_eq_some_iff.mp h.last
  rw [hus] at hm hp
  rw [List.pairwise_append] at hp
  rcases List.mem_append.mp hm with hm | hm
  · exact Or.inr (hp.2.2 v hm finest (by simp))
  · exact Or.inl (List.mem_singleton.mp hm)

lemma get?_eq_none (h : r.Spans coarsest finest) {v : TimeUnit} (hv : HasField v)
    (hf : v.isFinerThan finest = true) : r.bounds.get? v = none := by
  refine get?_eq_none_of_not_mem hv fun hm => ?_
  rcases h.coarser_of_mem hm with rfl | hc
  · simp [isFinerThan_asymm hf] at hf
  · simp [isFinerThan_asymm hc] at hf

lemma keeps (h : r.Spans coarsest finest) {u v : TimeUnit} (hb : r.bounds.get? u = none)
    (hv : v ∈ r.bounded) (hf : u.isFinerThan v = false) : r.Keeps finest u := by
  refine ⟨hb, Bool.eq_false_iff.mpr fun hn => ?_⟩
  rcases h.coarser_of_mem hv with rfl | hc
  · rw [hn] at hf; cases hf
  · rw [isFinerThan_trans hn hc] at hf; cases hf

/-- A window keeps the fields that are coarser than the bounded ones, and no others when these are
next to each other. -/
lemma keeps_iff (h : r.Spans coarsest finest) (hr : r.InARow) {v : TimeUnit} (hv : HasField v) :
    r.Keeps finest v ↔ coarsest.isFinerThan v = true := by
  constructor
  · rintro ⟨hb, hf⟩
    obtain ⟨before, after, happ⟩ := hr
    have hp := pairwise_clockOrder
    have hm : v ∈ clockOrder := mem_clockOrder_iff.mpr hv
    rw [← happ] at hm hp
    rw [List.pairwise_append, List.pairwise_append] at hp
    rw [List.mem_append, List.mem_append] at hm
    rcases hm with (hm | hm) | hm
    · exact hp.1.2.2 v hm coarsest h.mem_coarsest
    · have := (mem_bounded.mp hm).2
      simp [hb] at this
    · simp [hp.2.2 finest (List.mem_append_right _ h.mem_finest) v hm] at hf
  · intro hc
    constructor
    · refine get?_eq_none_of_not_mem hv fun hm => ?_
      rcases h.finer_of_mem hm with rfl | hf
      · simp [isFinerThan_asymm hc] at hc
      · simp [isFinerThan_asymm hc] at hf
    · rcases h.finer_of_mem h.mem_finest with rfl | hf
      · exact isFinerThan_asymm hc
      · exact isFinerThan_asymm (isFinerThan_trans hf hc)

end Spans

/-- The times agree on the units that a window keeps: those without bounds that are not finer than
all that have bounds. -/
def AgreeOnKept (r : Range) (s t : LocalTime) : Prop :=
  ∀ u, HasField u → r.bounds.get? u = none → (∃ v ∈ r.bounded, u.isFinerThan v = false) →
    s.part u = t.part u

/-! ### Safety -/

def windowAt (r : Range) (finest : TimeUnit) (t : LocalTime) : Option (Fields × Fields) :=
  r.fillBounds finest t.fields t.fields clockOrder

lemma clockCheck_of_bounded_eq_nil (h : r.bounded = []) (t : LocalTime) :
    r.clockCheck t = none := by
  simp only [clockCheck, h]; rfl

lemma spans_of_clockCheck {a : Advance} (ha : r.clockCheck t = some a) :
    ∃ coarsest finest, r.Spans coarsest finest := by
  refine exists_spans fun hnil => ?_
  rw [clockCheck_of_bounded_eq_nil hnil] at ha
  cases ha

lemma clockCheck_eq (h : r.Spans coarsest finest) (t : LocalTime) :
    r.clockCheck t = match r.windowAt finest t with
      | none => some (.wrap coarsest)
      | some (start, stop) =>
        if t.fields.toList < start.toList then
          some ((LocalTime.ofFields? start).elim (.units 1 finest) .time)
        else if stop.toList < t.fields.toList then some (.wrap coarsest)
        else none := by
  unfold windowAt
  cases hw : r.fillBounds finest t.fields t.fields clockOrder with
  | none => simp only [clockCheck, h.head, h.last, hw]
  | some w =>
    obtain ⟨start, stop⟩ := w
    simp only [clockCheck, h.head, h.last, hw]
    cases LocalTime.ofFields? start <;> rfl

lemma clockCheck_eq_none (h : r.Spans coarsest finest) (hn : r.clockCheck t = none) :
    ∃ start stop, r.windowAt finest t = some (start, stop)
      ∧ ¬ t.fields.toList < start.toList ∧ ¬ stop.toList < t.fields.toList := by
  rw [clockCheck_eq h] at hn
  split at hn
  · cases hn
  · rename_i start stop hw
    refine ⟨start, stop, hw, fun hlt => ?_, fun hlt => ?_⟩
    · rw [if_pos hlt] at hn; cases hn
    · split at hn <;> cases hn

namespace Spans

lemma windowAt_congr (h : r.Spans coarsest finest) (hk : r.AgreeOnKept s t) :
    r.windowAt finest s = r.windowAt finest t := by
  have ha : r.AgreeOutside finest clockOrder s.fields t.fields := by
    intro v hv ho
    obtain ⟨hb, hf⟩ := ho.resolve_left fun hn => hn (mem_clockOrder_iff.mpr hv)
    rw [fields_get hv, fields_get hv]
    exact hk v hv hb ⟨finest, h.mem_finest, hf⟩
  exact fillBounds_congr pairwise_clockOrder ha ha

lemma agreeOnKept_of_sameCycle (h : r.Spans coarsest finest) (hr : r.InARow)
    (hst : SameCycle coarsest s t) : r.AgreeOnKept s t := by
  rintro u hu hb ⟨v, hv, hf⟩
  have hk := h.keeps hb hv hf
  exact (sameCycle_iff (mem_bounded.mp h.mem_coarsest).1).mp hst u hu ((h.keeps_iff hr hu).mp hk)

lemma sameCycle_start (h : r.Spans coarsest finest) (hr : r.InARow) {start stop : Fields}
    (hw : r.windowAt finest t = some (start, stop)) (hs : s.fields = start) :
    SameCycle coarsest s t := by
  rw [sameCycle_iff (mem_bounded.mp h.mem_coarsest).1]
  intro v hv hc
  have hk := (h.keeps_iff hr hv).mpr hc
  rw [← fields_get hv, ← fields_get hv, hs]
  exact fillBounds_outside hw v hv (Or.inr hk)

lemma sameCycle_of_index_eq (h : r.Spans coarsest finest) (hr : r.InARow)
    (hi : s.index finest = t.index finest) : SameCycle coarsest s t := by
  rw [sameCycle_iff (mem_bounded.mp h.mem_coarsest).1]
  intro v hv hc
  exact (index_eq_iff (mem_bounded.mp h.mem_finest).1).mp hi v hv ((h.keeps_iff hr hv).mpr hc).2

lemma lt_start_of_index_eq (h : r.Spans coarsest finest) {start stop : Fields}
    (hw : r.windowAt finest t = some (start, stop)) (hlt : t.fields.toList < start.toList)
    (hi : s.index finest = t.index finest) : s.fields.toList < start.toList := by
  have hf := (mem_bounded.mp h.mem_finest).1
  refine toList_lt_of_agree hf (fun v hv hn => ?_) (fun v hv hn => ?_) hlt
  · rw [fields_get hv, fields_get hv]
    exact (index_eq_iff hf).mp hi v hv hn
  · rw [fillBounds_least (by decide) hw hv (mem_clockOrder_iff.mpr hv) (h.get?_eq_none hv hn) hn,
      fields_get hv]
    exact t.minValue_le_part fun hy => by cases hy; cases finest <;> cases hn

end Spans

lemma inside_of_clockCheck (h : r.Spans coarsest finest) {start stop : Fields}
    (hw : r.windowAt finest t = some (start, stop)) (hk : r.AgreeOnKept s t)
    (hn : r.clockCheck s = none) :
    ¬ s.fields.toList < start.toList ∧ ¬ stop.toList < s.fields.toList := by
  obtain ⟨start', stop', hs, hinside⟩ := clockCheck_eq_none h hn
  rw [h.windowAt_congr hk, hw, Option.some.injEq, Prod.mk.injEq] at hs
  rw [hs.1, hs.2]
  exact hinside

/-- When the bounded units are next to each other, a jump passes only over times that agree on the
kept ones. -/
lemma agreeOnKept_of_passesOver (hr : r.InARow) (ht : earliest ≤ t) {a : Advance}
    (ha : r.clockCheck t = some a) (hp : a.PassesOver t s) : r.AgreeOnKept s t := by
  obtain ⟨coarsest, finest, h⟩ := spans_of_clockCheck ha
  have hts := le_of_lt hp.2.1
  refine h.agreeOnKept_of_sameCycle hr ?_
  rw [clockCheck_eq h] at ha
  cases hw : r.windowAt finest t with
  | none =>
    rw [hw] at ha
    cases ha
    exact hp.sameCycle ht
  | some w =>
    obtain ⟨start, stop⟩ := w
    simp only [hw] at ha
    split_ifs at ha with hstart hstop
    · cases ho : ofFields? start with
      | some opening =>
        -- the time and the opening are in one cycle, and so is what lies between them
        rw [ho] at ha
        cases ha
        obtain ⟨hof, how⟩ := fields_of_ofFields? ho
        have hso : s ≤ opening := by
          rcases hp.lt_or with hlt | ⟨hsec, -⟩
          · exact le_of_lt hlt
          · have hlt := seconds_lt_of_fields_lt (hof ▸ hstart)
            rw [hp.1.le_iff]; omega
        intro p hcp
        have h₁ := index_mono p hts
        have h₂ := index_mono p hso
        have h₃ := h.sameCycle_start hr hw hof p hcp
        omega
      | none =>
        rw [ho] at ha
        cases ha
        have hi := hp.index_lt ht
        have hle := index_mono finest hts
        rw [max_self] at hi
        exact h.sameCycle_of_index_eq hr (by omega)
    · cases ha
      exact hp.sameCycle ht

/-- Of what a jump passes over while the kept units agree, only the opening may be accepted, and
only from inside the second before it. -/
lemma eq_opening_of_passesOver (hk : r.AgreeOnKept s t) (ht : earliest ≤ t) {a : Advance}
    (ha : r.clockCheck t = some a) (hp : a.PassesOver t s) (hn : r.clockCheck s = none) :
    a = .time s ∧ ¬ t.IsWhole := by
  obtain ⟨coarsest, finest, h⟩ := spans_of_clockCheck ha
  rw [clockCheck_eq h] at ha
  cases hw : r.windowAt finest t with
  | none =>
    obtain ⟨start, stop, hs, -⟩ := clockCheck_eq_none h hn
    rw [h.windowAt_congr hk, hw] at hs
    cases hs
  | some w =>
    obtain ⟨start, stop⟩ := w
    obtain ⟨hlow, hhigh⟩ := inside_of_clockCheck h hw hk hn
    simp only [hw] at ha
    split_ifs at ha with hstart hstop
    · cases ho : ofFields? start with
      | some opening =>
        rw [ho] at ha
        cases ha
        obtain ⟨hof, how⟩ := fields_of_ofFields? ho
        have hge : opening.seconds ≤ s.seconds := by
          by_contra hlt
          exact hlow (hof ▸ fields_lt_fields (by omega))
        rcases hp.lt_or with hlt | ⟨hsec, htw⟩
        · rw [how.lt_iff] at hlt; omega
        · have hlt := seconds_lt_of_fields_lt (hof ▸ hstart)
          refine ⟨?_, htw⟩
          have hos : opening = s := by
            rw [how.eq_ofSeconds, hp.1.eq_ofSeconds, show opening.seconds = s.seconds by omega]
          rw [hos]; rfl
      | none =>
        -- the start is no time, so the search goes on unit by unit
        rw [ho] at ha
        cases ha
        have hi := hp.index_lt ht
        have hle := index_mono finest (le_of_lt hp.2.1)
        rw [max_self] at hi
        exact absurd (h.lt_start_of_index_eq hw hstart (by omega)) hlow
    · refine absurd ?_ hhigh
      rcases Int.lt_or_eq_of_le (Time.seconds_le (le_of_lt hp.2.1)) with hsec | hsec
      · exact List.lt_trans hstop (fields_lt_fields hsec)
      · rw [← fields_congr hsec]; exact hstop

lemma weekdayCheck_of_passesOver (ht : earliest ≤ t) {a : Advance} (ha : r.weekdayCheck t = some a)
    (hp : a.PassesOver t s) : r.weekdayCheck s ≠ none := by
  intro hs
  have hts := le_of_lt hp.2.1
  unfold weekdayCheck at ha
  cases hb : r.bounds.get? .week with
  | none => simp [hb] at ha
  | some b =>
    obtain ⟨low, high⟩ := b
    have hlow : Resolution.ofText .week s.date.year s.date.month low
        = Resolution.ofText .week t.date.year t.date.month low :=
      Resolution.ofText_eq_of_ne_day (by decide) _ _ _ _ low
    have hhigh : Resolution.ofText .week s.date.year s.date.month high
        = Resolution.ofText .week t.date.year t.date.month high :=
      Resolution.ofText_eq_of_ne_day (by decide) _ _ _ _ high
    simp only [hb] at ha
    split at ha
    · rename_i l h hl hh
      have hok : l ≤ s.part .week ∧ s.part .week ≤ h := by
        simp only [weekdayCheck, hb, hlow, hhigh, hl, hh] at hs
        split_ifs at hs
        omega
      have hday : ∀ s : LocalTime, s.part .week = s.index .day % 7 + 1 := fun _ => rfl
      have := index_mono .day hts
      split_ifs at ha with h₁ h₂ <;>
      · cases ha
        have := hp.index_lt ht
        rw [hday] at *; omega
    · -- a bound that is no weekday is none in any month
      rename_i hn
      simp only [weekdayCheck, hb, hlow, hhigh] at hs
      cases hs

lemma accepts_eq_true_iff :
    r.accepts s = true ↔ r.clockCheck s = none ∧ r.weekdayCheck s = none := by
  rw [accepts, Option.isNone_iff_eq_none, check]
  cases r.clockCheck s <;> simp

/-- **What the jump into a range passes over is refused**, but for an opening that is the next whole
second, when the bounded units are next to each other or the kept ones agree. -/
theorem eq_opening_of_accepts (hk : r.InARow ∨ r.AgreeOnKept s t) (ht : earliest ≤ t) {a : Advance}
    (ha : r.check t = some a) (hp : a.PassesOver t s) (hs : r.accepts s = true) :
    a = .time s ∧ ¬ t.IsWhole := by
  obtain ⟨hclock, hweek⟩ := accepts_eq_true_iff.mp hs
  rw [check] at ha
  split at ha
  · rename_i hc
    cases ha
    exact eq_opening_of_passesOver (hk.elim (agreeOnKept_of_passesOver · ht hc hp) id) ht hc hp
      hclock
  · exact absurd hweek (weekdayCheck_of_passesOver ht ha hp)

/-- **The jump into a range is safe** when its bounded units are next to each other. -/
theorem safe_check (hr : r.InARow) (ht : t.InReach) (htw : t.IsWhole) {a : Advance}
    (ha : r.check t = some a) : Advance.Safe (fun s => r.accepts s = true) a t :=
  Advance.safe_iff.mpr fun _ _ hp hs => (eq_opening_of_accepts (Or.inl hr) ht.1 ha hp hs).2 htw

lemma lands_clockCheck (htw : t.IsWhole) (hy : t.date.year ≤ 9999) {a : Advance}
    (ha : r.clockCheck t = some a) : a.Lands t := by
  simp only [clockCheck] at ha
  split at ha
  · split at ha
    · cases ha; exact Advance.lands_wrap htw hy _
    · split_ifs at ha
      · split at ha
        · rename_i opening ho
          cases ha
          exact Advance.lands_time htw (Or.inl (fields_of_ofFields? ho).2)
        · cases ha; exact Advance.lands_units htw hy _ _
      · cases ha; exact Advance.lands_wrap htw hy _
  · cases ha

lemma lands_weekdayCheck (htw : t.IsWhole) (hy : t.date.year ≤ 9999) {a : Advance}
    (ha : r.weekdayCheck t = some a) : a.Lands t := by
  simp only [weekdayCheck] at ha
  split at ha
  · cases ha
  · split at ha
    · split_ifs at ha <;> cases ha
      · exact Advance.lands_units htw hy _ _
      · exact Advance.lands_units htw hy _ _
    · cases ha; exact Advance.lands_never t

lemma lands_check (htw : t.IsWhole) (hy : t.date.year ≤ 9999) {a : Advance}
    (ha : r.check t = some a) : a.Lands t := by
  rw [check] at ha
  split at ha
  · cases ha; exact lands_clockCheck htw hy ‹_›
  · exact lands_weekdayCheck htw hy ha

end Range

end Recurrence
