import Recurrence.Proofs.Resolution.Extents
import Recurrence.Proofs.Rule.Meaningful
import Recurrence.Proofs.Search.Visits

/-!
Why a search ends without a find. The texts of rules that stand together have a meaning wherever the
search looks, so a condition gives up only when the year that it asks for is over or when a range of
dates lacks one of its days.

Main statements: `givesUp_of_never`, `ending_of_walk` and `ends_without_invalid`.
-/

namespace Recurrence

open LocalTime Resolution

variable {t : LocalTime}

lemma LocalTime.InReach.hasMonth (ht : t.InReach) :
    Date.hasMonth t.date.year t.date.month = true :=
  Date.hasMonth_iff.mpr ⟨ht.year_bounds, Advance.month_bounds t⟩

/-! ### Conditions of rules that stand together -/

/-- What the checks of rules leave of a condition: its texts have a meaning, and a unit that is held
has a cycle. -/
def Condition.Checked : Condition → Prop
  | equals u text => Meaningful u text
  | pin u _ => u.parent?.isSome
  | cadence c => ∀ anchor ∈ c.anchor, Meaningful c.unit anchor
  | oneOf columns => ∀ r ∈ columns.records, r.Meaningful
  | within r => r.Meaningful
  | withinAny rs => ∀ r ∈ rs, r.Meaningful

/-- **The conditions of rules that stand together have been checked.** -/
theorem Plan.checked_conditions {D : Zone.Database} {rules : List Rule}
    (h : RuleSet.Stands D rules) (base : LocalTime) : ∀ c ∈ conditions rules base, c.Checked := by
  intro c hc
  cases ofRules_conditions rules base c hc with
  | equals hr =>
    have hvalue := h.meaningful_fixedValues hr _ (List.mem_singleton_self _)
    exact RuleSet.isValid_probe_iff.mp hvalue
  | oneOf hr =>
    exact fun texts hmem v hv => h.meaningful_fixedValues hr v (RuleSet.mem_fixedValues hmem hv)
  | within hr => exact h.meaningful_ranges hr _ (List.mem_singleton_self _)
  | withinAny hr => exact h.meaningful_ranges hr
  | cadence hr => exact fun anchor ha => RuleSet.isValid_probe_iff.mp (h.isValid_anchor hr rfl ha)
  | pin hu => exact hu

/-! ### Giving up -/

def Resolution.IsPastYear (t : LocalTime) (v : TimeUnit × String) : Prop :=
  v.1 = .year ∧ ∃ year, ofText .year t.date.year t.date.month v.2 = value year ∧ year < t.part .year

/-- Why a range that bounds years gives up at a time: the time is past its window, or there is no
window because a bound day is none of the month. -/
inductive Range.GivesUp (r : Range) (t : LocalTime) : Prop
  | passed {finest : TimeUnit} {start stop : Fields} (years : (r.bounds.get? .year).isSome)
    (last : r.bounded.getLast? = some finest) (window : r.windowAt finest t = some (start, stop))
    (past : stop.toList < t.fields.toList)
  | dayless {finest : TimeUnit} {low high : String} {y m : Int}
    (years : (r.bounds.get? .year).isSome)
    (last : r.bounded.getLast? = some finest) (window : r.windowAt finest t = none)
    (day : r.bounds.get? .day = some (low, high)) (month : Date.hasMonth y m = true)
    (absent : ofText .day y m low = noMatch ∨ ofText .day y m high = noMatch)

/-- Why a condition gives up at a time: the years that it asks for are over. -/
def Condition.GivesUp (t : LocalTime) : Condition → Prop
  | equals u text => IsPastYear t (u, text)
  | pin _ _ => False
  | cadence c => c.unit = .year ∧ ∃ anchor year, c.anchor = some anchor
      ∧ ofText .year t.date.year t.date.month anchor = value year
      ∧ 9999 < t.part .year + (c.interval - (t.part .year - year) % c.interval)
  | oneOf columns => ∀ r ∈ columns.records, ∃ v ∈ r, IsPastYear t v
  | within r => r.GivesUp t
  | withinAny rs => ∀ r ∈ rs, r.GivesUp t

namespace Advance

variable {u : TimeUnit} {r : Resolution}

lemma parent?_of_wrap (h : wrap u = never) : u.parent? = none := by
  unfold wrap at h
  split at h
  · cases h
  · assumption

/-- There is no jump to a value only if the unit has no cycle and does not get to the value. -/
lemma parent?_of_toValue (hr : r ≠ .invalid) (h : toValue u r t = never) :
    u.parent? = none ∧ (r = .noMatch ∨ ∃ v, r = .value v ∧ (u = .year → v ≤ t.part .year)) := by
  cases r with
  | noMatch => exact ⟨parent?_of_wrap h, Or.inl rfl⟩
  | invalid => exact absurd rfl hr
  | value target =>
    simp only [toValue] at h
    split at h
    · cases h
    · split_ifs at h with hlt
      exact ⟨rfl, Or.inr ⟨target, rfl, fun _ => not_lt.mp hlt⟩⟩
    · rename_i hyear
      split_ifs at h
      exact ⟨parent?_of_wrap h, Or.inr ⟨target, rfl, fun hu => absurd hu hyear⟩⟩

lemma isPastYear_of_toValue {text : String} (ht : t.InReach) (hm : Meaningful u text)
    (hr : ofText u t.date.year t.date.month text ≠ .value (t.part u))
    (h : toValue u (ofText u t.date.year t.date.month text) t = never) :
    IsPastYear t (u, text) := by
  obtain ⟨hp, hv⟩ := parent?_of_toValue (hm _ _ ht.hasMonth) h
  obtain rfl : u = .year := by
    cases u with
    | year => rfl
    | timeZone => exact absurd rfl hm.ne_timeZone
    | _ => cases hp
  rcases hv with hn | ⟨v, hv, hle⟩
  · cases eq_day_of_noMatch hn
  · refine ⟨rfl, v, hv, lt_of_le_of_ne (hle rfl) fun heq => hr ?_⟩
    rw [hv, heq]

lemma eq_never_of_toEarliest {as : List Advance} (h : toEarliest as t = never) :
    ∀ a ∈ as, a = never := by
  rw [toEarliest_eq] at h
  split at h
  · cases h
  · rename_i hm
    rw [List.min?_eq_none_iff, List.filterMap_eq_nil_iff] at hm
    exact fun a ha => Step.landing_eq_none.mp (hm a ha)

end Advance

namespace Range

variable {r : Range} {finest : TimeUnit}

lemma meaningful_bounds (hr : r.Meaningful) {u : TimeUnit} (hu : u ≠ .timeZone)
    {b : String × String}
    (hb : r.bounds.get? u = some b) :
    Resolution.Meaningful u b.1 ∧ Resolution.Meaningful u b.2 := by
  have hmem : u ∈ r.units.units := by
    rw [UnitSet.mem_units, units, UnitMap.has_units, hb]
    simpa using hu
  have hstart : (u, b.1) ∈ r.starts := List.mem_filterMap.mpr ⟨u, hmem, by rw [hb]; rfl⟩
  have hstop : (u, b.2) ∈ r.stops := List.mem_filterMap.mpr ⟨u, hmem, by rw [hb]; rfl⟩
  exact ⟨RuleSet.isValid_probe_iff.mp (hr.1 _ hstart), RuleSet.isValid_probe_iff.mp (hr.2 _ hstop)⟩

lemma hasMonth_set {f : Fields} {u : TimeUnit} {x : Int} (hf : Date.hasMonth f.year f.month = true)
    (hx : u.minValue ≤ x ∧ x ≤ u.maxValueIn f.year f.month) :
    Date.hasMonth (f.set u x).year (f.set u x).month = true := by
  rw [Date.hasMonth_iff] at hf ⊢
  cases u with
  | year =>
    have hx : 1 ≤ x ∧ x ≤ 9999 := hx
    simp only [Fields.set, Date.firstYear, Date.lastYear]
    omega
  | month => exact ⟨hf.1, hx⟩
  | _ => exact hf

lemma minValue_le_of_hasMonth {f : Fields} (hf : Date.hasMonth f.year f.month = true)
    (u : TimeUnit) :
    u.minValue ≤ u.maxValueIn f.year f.month :=
  u.minValue_le_maxValueIn f.year (Date.hasMonth_iff.mp hf).2

/-- A window lacks a bound only for a day that is none of a month. -/
lemma dayless_of_fillBounds (hr : r.Meaningful) {us : List TimeUnit} {f g : Fields}
    (hus : ∀ u ∈ us, u ≠ .timeZone) (hf : Date.hasMonth f.year f.month = true)
    (hg : Date.hasMonth g.year g.month = true) (h : r.fillBounds finest f g us = none) :
    ∃ low high y m, r.bounds.get? .day = some (low, high) ∧ Date.hasMonth y m = true
      ∧ (ofText .day y m low = noMatch ∨ ofText .day y m high = noMatch) := by
  -- the month stays one as fields are filled in, so only a day can be missing from it
  induction us generalizing f g with
  | nil => cases h
  | cons u us ih =>
    obtain ⟨hu, hus⟩ := List.forall_mem_cons.mp hus
    have hmin := minValue_le_of_hasMonth hf u
    have hmax := minValue_le_of_hasMonth hg u
    rw [fillBounds] at h
    cases hb : r.bounds.get? u with
    | some b =>
      obtain ⟨low, high⟩ := b
      obtain ⟨hlow, hhigh⟩ := meaningful_bounds hr hu hb
      simp only [hb] at h
      cases hl : ofText u f.year f.month low with
      | invalid => exact absurd hl (hlow _ _ hf)
      | noMatch =>
        obtain rfl := eq_day_of_noMatch hl
        exact ⟨low, high, _, _, hb, hf, Or.inl hl⟩
      | value l =>
        -- the bound at the start has a value; the same for the one at the end
        cases hh : ofText u g.year g.month high with
        | invalid => exact absurd hh (hhigh _ _ hg)
        | noMatch =>
          obtain rfl := eq_day_of_noMatch hh
          exact ⟨low, high, _, _, hb, hg, Or.inr hh⟩
        | value v =>
          simp only [hl, hh, value?] at h
          exact ih hus (hasMonth_set hf (TimeUnit.clampIn_extent hmin _))
            (hasMonth_set hg (TimeUnit.clampIn_extent hmax _)) h
    | none =>
      simp only [hb] at h
      split at h
      · exact ih hus (hasMonth_set hf ⟨le_refl _, hmin⟩) (hasMonth_set hg ⟨hmax, le_refl _⟩) h
      · exact ih hus hf hg h

lemma weekdayCheck_ne_never (hr : r.Meaningful) (ht : t.InReach) :
    r.weekdayCheck t ≠ some .never := by
  intro h
  unfold weekdayCheck at h
  cases hb : r.bounds.get? .week with
  | none => simp [hb] at h
  | some b =>
    obtain ⟨hlow, hhigh⟩ := meaningful_bounds hr (by decide) hb
    have hvalue : ∀ text, Resolution.Meaningful .week text →
        ∃ v, (ofText .week t.date.year t.date.month text).value? = some v := by
      intro text hm
      cases hv : ofText .week t.date.year t.date.month text with
      | invalid => exact absurd hv (hm _ _ ht.hasMonth)
      | noMatch => cases eq_day_of_noMatch hv
      | value v => exact ⟨v, rfl⟩
    obtain ⟨l, hl⟩ := hvalue b.1 hlow
    obtain ⟨v, hv⟩ := hvalue b.2 hhigh
    simp only [hb, hl, hv] at h
    split_ifs at h <;> cases h

lemma givesUp_of_clockCheck (hr : r.Meaningful) (ht : t.InReach)
    (h : r.clockCheck t = some .never) : r.GivesUp t := by
  obtain ⟨coarsest, finest, hspans⟩ := spans_of_clockCheck h
  have hyear (hw : Advance.wrap coarsest = .never) : (r.bounds.get? .year).isSome := by
    obtain ⟨hfield, hsome⟩ := mem_bounded.mp hspans.mem_coarsest
    have hp := Advance.parent?_of_wrap hw
    cases coarsest with
    | year => exact hsome
    | timeZone => exact absurd rfl hfield.2
    | _ => cases hp
  rw [clockCheck_eq hspans] at h
  cases hw : r.windowAt finest t with
  | none =>
    rw [hw] at h
    have hfields : Date.hasMonth t.fields.year t.fields.month = true := ht.hasMonth
    obtain ⟨low, high, y, m, hday, hmonth, habsent⟩ :=
      dayless_of_fillBounds hr (by decide) hfields hfields hw
    exact .dayless (hyear (Option.some.inj h)) hspans.last hw hday hmonth habsent
  | some w =>
    obtain ⟨start, stop⟩ := w
    simp only [hw] at h
    split_ifs at h with hstart hstop
    · cases ho : ofFields? start <;> rw [ho] at h <;> cases h
    · exact .passed (hyear (Option.some.inj h)) hspans.last hw hstop

lemma givesUp_of_check (hr : r.Meaningful) (ht : t.InReach) (h : r.check t = some .never) :
    r.GivesUp t := by
  unfold check at h
  split at h
  · cases h
    exact givesUp_of_clockCheck hr ht ‹_›
  · exact absurd h (weekdayCheck_ne_never hr ht)

end Range

lemma Record.givesUp_of_advance {texts : Values} (hm : texts.Meaningful) (ht : t.InReach)
    (h : (inMonthOf texts t).advance t = .never) : ∃ v ∈ texts, IsPastYear t v := by
  unfold Record.advance at h
  split at h
  · rename_i u res hf
    obtain ⟨v, hv, hveq⟩ := List.mem_map.mp (List.mem_of_find?_eq_some hf)
    cases hveq
    have hd : ofText v.1 t.date.year t.date.month v.2 ≠ .value (t.part v.1) := by
      simpa [disagrees] using List.find?_some hf
    exact ⟨v, hv,
      Advance.isPastYear_of_toValue ht (RuleSet.isValid_probe_iff.mp (hm v hv)) hd h⟩
  · cases h

lemma Cadence.givesUp_of_advance {c : Cadence} (hc : ∀ anchor ∈ c.anchor, Meaningful c.unit anchor)
    (ht : t.InReach) (h : c.advance t = .never) : (Condition.cadence c).GivesUp t := by
  unfold Cadence.advance anchorIn at h
  cases ha : c.anchor with
  | none => simp only [ha, Option.map_none] at h; cases h
  | some anchor =>
    have hm := hc anchor ha
    simp only [ha, Option.map_some] at h
    -- of the units that an anchor is for, only the year has no cycle to go on in
    have hyear (hw : Advance.wrap c.unit = .never) : c.unit = .year := by
      have hp := Advance.parent?_of_wrap hw
      generalize c.unit = u at hm hp
      cases u with
      | year => rfl
      | timeZone => exact absurd rfl hm.ne_timeZone
      | _ => cases hp
    cases hr : ofText c.unit t.date.year t.date.month anchor with
    | invalid => exact absurd hr (hm _ _ ht.hasMonth)
    | noMatch =>
      simp only [hr] at h
      have hu := hyear h
      rw [hu] at hr
      cases eq_day_of_noMatch hr
    | value v =>
      simp only [hr] at h
      split_ifs at h with hw hd hle
      have hu := hyear h
      rw [hu] at hr hle
      exact ⟨hu, anchor, v, ha, hr, not_le.mp hle⟩

/-- **A checked condition gives up only because its years are over**, never because a text is
invalid. -/
theorem Condition.givesUp_of_never {c : Condition} (hc : c.Checked) (ht : t.InReach)
    (hr : c.accepts t = false) (h : c.advance t = .never) : c.GivesUp t := by
  cases c with
  | equals u text =>
    have hd : ofText u t.date.year t.date.month text ≠ .value (t.part u) := by
      simpa [accepts, acceptsGiven] using hr
    exact Advance.isPastYear_of_toValue ht hc hd h
  | pin u value =>
    have hvalue : Advance.toValue u (.value (pinned u value t)) t = .never := h
    obtain ⟨hp, -⟩ := Advance.parent?_of_toValue (by simp) hvalue
    -- what is pinned has a cycle, so it never gives up
    have hsome : u.parent?.isSome := hc
    rw [hp] at hsome
    cases hsome
  | cadence c => exact Cadence.givesUp_of_advance hc ht h
  -- alternatives give up together
  | oneOf columns =>
    intro texts hmem
    refine Record.givesUp_of_advance (hc texts hmem) ht ?_
    refine Advance.eq_never_of_toEarliest h _ (List.mem_map.mpr ⟨Record.inMonthOf texts t, ?_, rfl⟩)
    exact List.mem_map.mpr ⟨texts, hmem, rfl⟩
  | within r =>
    obtain ⟨a, ha⟩ : ∃ a, r.check t = some a := by
      simpa [accepts, acceptsGiven, Range.accepts, Option.isSome_iff_exists] using hr
    have hnever : (r.check t).getD (.units 1 .second) = .never := h
    rw [ha, Option.getD_some] at hnever
    exact Range.givesUp_of_check hc ht (hnever ▸ ha)
  | withinAny rs =>
    intro r hmem
    have hrefused : ∀ r ∈ rs, r.check t ≠ none := by
      simpa [accepts, acceptsGiven, Range.accepts] using hr
    obtain ⟨a, ha⟩ := Option.ne_none_iff_exists'.mp (hrefused r hmem)
    have hnever := Advance.eq_never_of_toEarliest h a (List.mem_filterMap.mpr ⟨r, hmem, ha⟩)
    exact Range.givesUp_of_check (hc r hmem) ht (hnever ▸ ha)

/-! ### Walks -/

namespace Search

variable {cs : List Condition} {limit : Option LocalTime} {n : Nat} {s : Search}

/-- Why a search that begins at `start` and has looked at the times `seen` finds nothing. -/
inductive Ending (cs : List Condition) (limit : Option LocalTime) (ceiling : Nat)
    (start : LocalTime)
    (seen : List LocalTime) : Prop
  | ceiling (all : seen.length = ceiling)
  /-- The next time to look at is past the limit or the last year. -/
  | past {next : LocalTime} (past : isPast limit next = true)
    (reached : next = start ∨ ∃ t ∈ seen, Step.ofConditions cs t = .jump next)
  /-- A condition that refuses a time gives up. -/
  | givesUp {t : LocalTime} {c : Condition} (looked : t ∈ seen) (mem : c ∈ cs)
    (refused : c.accepts t = false) (givesUp : c.GivesUp t)

lemma Ending.cons {next : LocalTime} {seen : List LocalTime} (h : Ending cs limit n next seen)
    (ht : Step.ofConditions cs t = .jump next) : Ending cs limit (n + 1) t (t :: seen) := by
  cases h with
  | ceiling all => exact .ceiling (congrArg Nat.succ all)
  | past past reached =>
    refine .past past (Or.inr ?_)
    rcases reached with rfl | ⟨s, hs, hstep⟩
    · exact ⟨t, by simp, ht⟩
    · exact ⟨s, List.mem_cons_of_mem _ hs, hstep⟩
  | givesUp looked mem refused givesUp =>
    exact .givesUp (List.mem_cons_of_mem _ looked) mem refused givesUp

lemma Recalls.visited_succ (hs : s.Recalls cs) (limit : Option LocalTime) (n : Nat)
    (t : LocalTime) :
    visited limit (n + 1) s t = if isPast limit t then []
      else t :: match Step.ofConditions cs t with
        | .jump next => visited limit n (s.look t) next
        | .found | .exhausted => [] := by
  rw [← (Step.ofMatchers_eq hs t).1]
  rfl

/-- A walk from a place to stand looks at times inside the calendar, and where it finds nothing
there is a reason. -/
theorem ending_of_walk (hs : s.Recalls cs) (hc : ∀ c ∈ cs, c.Checked) (ht : Advance.Standing t)
    (he : earliest ≤ t) (limit : Option LocalTime) (n : Nat) :
    (∀ v ∈ visited limit n s t, v.InReach)
      ∧ ((walk limit n s t).1 = none → Ending cs limit n t (visited limit n s t)) := by
  -- the invariant: the walk stands inside the calendar, on a whole second or past the last year
  induction n generalizing s t with
  | zero => exact ⟨by simp [visited], fun _ => .ceiling rfl⟩
  | succ n ih =>
    rw [hs.walk_succ, hs.visited_succ]
    by_cases hp : isPast limit t = true
    · rw [if_pos hp, if_pos hp]
      exact ⟨by simp, fun _ => .past hp (Or.inl rfl)⟩
    rw [if_neg hp, if_neg hp]
    obtain ⟨-, hy⟩ := isPast_eq_false.mp (Bool.eq_false_iff.mpr hp)
    have hreach : t.InReach := ⟨he, hy⟩
    have htw : t.IsWhole := ht.resolve_right (by omega)
    have hcases := Step.ofConditions_cases cs t
    cases hstep : Step.ofConditions cs t with
    | found => exact ⟨by simpa using hreach, fun h => by cases h⟩
    | jump next =>
      rw [hstep] at hcases
      -- the landing is a place to stand, and not before this time
      obtain ⟨c, -, -, hland⟩ := hcases
      obtain ⟨hstand, hle⟩ := c.lands_advance htw hy next hland
      obtain ⟨hvisited, hending⟩ := ih (hs.look t) hstand (le_trans he hle)
      exact ⟨List.forall_mem_cons.mpr ⟨hreach, hvisited⟩, fun h => (hending h).cons hstep⟩
    | exhausted =>
      rw [hstep] at hcases
      -- a refusing condition has no landing, so it gives up
      obtain ⟨c, hmem, hr, hland⟩ := hcases
      refine ⟨by simpa using hreach, fun _ => .givesUp (by simp) hmem hr ?_⟩
      exact Condition.givesUp_of_never (hc c hmem) hreach hr (Step.landing_eq_none.mp hland)

lemma forall₂_answers {good : Query → Option LocalTime × List LocalTime → Prop}
    (hgood : ∀ s : Search, s.Recalls cs → ∀ q : Query, earliest ≤ q.base →
      good q ((s.next q.base q.limit q.ceiling).1,
        visited q.limit q.ceiling s ((q.base.startOf .second).addSeconds 1)))
    {queries : List Query} (hq : ∀ q ∈ queries, earliest ≤ q.base) (hs : s.Recalls cs) :
    List.Forall₂ good queries (s.answers queries) := by
  induction queries generalizing s with
  | nil => exact .nil
  | cons q queries ih =>
    obtain ⟨hbase, hq⟩ := List.forall_mem_cons.mp hq
    exact .cons (hgood s hs q hbase) (ih hq (hs.next _ _ _))

/-- **One month tells for all whether a text is invalid, and no search of accepted rules stops at an
invalid one.** A text is invalid in one month of the calendar exactly if it is in another. So the
texts of rules that stand together, which were tried in one month, are valid at every time that a
search for the rules looks at; and where such a search finds nothing it is at its ceiling, past its
limit or the last year, or at a condition whose years are over. -/
theorem ends_without_invalid :
    (∀ u text y m y' m', Date.hasMonth y m = true → Date.hasMonth y' m' = true →
      (ofText u y m text = invalid ↔ ofText u y' m' text = invalid))
    ∧ ∀ (D : Zone.Database) (rules : List Rule), RuleSet.conflict? D rules = none →
      (∀ r ∈ rules, ∀ v ∈ r.texts, Meaningful v.1 v.2)
      ∧ ∀ (base : LocalTime) (queries : List Query), (∀ q ∈ queries, earliest ≤ q.base) →
        List.Forall₂ (fun q (answer : Option LocalTime × List LocalTime) =>
          (∀ t ∈ answer.2, ∀ r ∈ rules, ∀ v ∈ r.texts,
            ofText v.1 t.date.year t.date.month v.2 ≠ invalid)
          ∧ (answer.1 = none → Ending (Plan.conditions rules base) q.limit q.ceiling
              ((q.base.startOf .second).addSeconds 1) answer.2))
          queries ((fresh (Plan.conditions rules base)).answers queries) := by
  refine ⟨fun u text y m y' m' h h' => ofText_invalid_iff h h' u text, fun D rules h => ?_⟩
  have hstands := RuleSet.conflict?_eq_none_iff.mp h
  refine ⟨fun r hr => hstands.meaningful_texts hr, fun base queries hq => ?_⟩
  refine forall₂_answers (fun s hs q hbase => ?_) hq (recalls_fresh _)
  have hstart : (q.base.startOf .second).addSeconds 1 = Time.ofSeconds (q.base.seconds + 1) := by
    rw [startOf_eq]
    rfl
  have hle : q.base < Time.ofSeconds (q.base.seconds + 1) :=
    (Time.lt_iff_le_of_isWhole (Time.isWhole_ofSeconds _)).mpr (le_refl _)
  rw [hstart, next_eq]
  obtain ⟨hvisited, hending⟩ := ending_of_walk hs (Plan.checked_conditions hstands base)
    (Or.inl (Time.isWhole_ofSeconds (q.base.seconds + 1))) (le_trans hbase (le_of_lt hle)) q.limit
    q.ceiling
  exact ⟨fun t ht r hr v hv => hstands.meaningful_texts hr v hv _ _ (hvisited t ht).hasMonth,
    hending⟩

/-- February of 2023 has no fifth Thursday and that of 2024 has one, the last occurrence there
is. -/
theorem ends_without_invalid_leap_day :
    let rules : List Rule :=
      [.equals .year "2024", .equals .month "February", .equals .day "5thThursday"]
    let base : LocalTime := Time.ofSeconds 1709164800
    let conditions := Plan.conditions rules base
    (ofText .day 2023 2 "5thThursday" = invalid ↔ ofText .day 2024 2 "5thThursday" = invalid)
      ∧ RuleSet.conflict? .empty rules = none ∧ Meaningful .day "5thThursday" ∧ earliest ≤ base
      ∧ ((fresh conditions).next base none 100).1 = none
      ∧ Ending conditions none 100 ((base.startOf .second).addSeconds 1)
          (visited none 100 (fresh conditions) ((base.startOf .second).addSeconds 1)) := by
  intro rules base conditions
  have hrules : RuleSet.conflict? .empty rules = none := by decide +kernel
  have hbase : earliest ≤ base := by decide
  have hnone : ((fresh conditions).next base none 100).1 = none := by decide +kernel
  obtain ⟨htexts, hsearch⟩ := ends_without_invalid.2 .empty rules hrules
  refine ⟨ends_without_invalid.1 _ _ _ _ _ _ rfl rfl, hrules, ?_, hbase, hnone, ?_⟩
  · exact htexts (.equals .day "5thThursday") (by simp [rules]) (.day, "5thThursday") (by decide)
  · obtain ⟨⟨-, hending⟩, -⟩ :=
      List.forall₂_cons.mp (hsearch base [⟨base, none, 100⟩] (by simpa using hbase))
    exact hending hnone

end Search

end Recurrence
