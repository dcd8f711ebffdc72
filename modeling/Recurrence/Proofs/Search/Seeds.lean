import Recurrence.Proofs.Expression.RoundTrips
import Recurrence.Proofs.Search.Intervals
import Recurrence.Proofs.Search.Walks

/-!
The seed of a cadence. Windows that refuse a time ask for another, the earliest of these comes next,
and so on to the first time that no window refuses. On the way no such time is passed, and each jump
leads forward, so some number of jumps leads there; the seed takes no more than eight.

Main statements: `windowSeed_le`, `exists_leads` and `windowSeed_opening_iff`.
-/

namespace Recurrence

open LocalTime

variable {ws : List Condition} {s t : LocalTime}

/-! ### Landings -/

lemma Advance.seconds_lt_of_landing {a : Advance} {l : LocalTime} (hz : ∀ n, a ≠ .units n .timeZone)
    (hy : t.date.year ≤ 9999) (hl : a.landing t = some l) : t.seconds < l.seconds := by
  cases a with
  | never => cases hl
  | time m =>
    obtain rfl := Option.some.inj hl
    rw [Time.seconds_max, Time.seconds_addSeconds]
    omega
  | units n u =>
    obtain rfl := Option.some.inj hl
    have hu : u ≠ .timeZone := by
      rintro rfl
      exact hz n rfl
    rw [land_eq hu]
    split
    · rw [Time.seconds_ofSeconds, ← index_lt_iff]
      omega
    · exact seconds_lt_latest hy

namespace Range

variable {r : Range}

lemma accepts_of_seconds_eq (r : Range) (h : s.seconds = t.seconds) : r.accepts s = r.accepts t :=
  accepts_congr fun u _ _ _ => part_congr h u

lemma ne_zone_of_wrap (u : TimeUnit) (n : Int) : Advance.wrap u ≠ .units n .timeZone := by
  cases u <;> simp [Advance.wrap, TimeUnit.parent?]

lemma ne_zone_of_check {a : Advance} (ha : r.check t = some a) (n : Int) :
    a ≠ .units n .timeZone := by
  rw [check] at ha
  split at ha
  · rename_i jump hclock
    cases ha
    obtain ⟨coarsest, finest, h⟩ := spans_of_clockCheck hclock
    rw [clockCheck_eq h] at hclock
    -- a jump by the finest bounded unit, which has a field
    have hfinest := (mem_bounded.mp h.mem_finest).1.2
    split at hclock
    · cases hclock
      exact ne_zone_of_wrap coarsest n
    · rename_i start stop hw
      split_ifs at hclock
      · cases hclock
        cases LocalTime.ofFields? start with
        | none => simp [hfinest]
        | some opening => simp
      · cases hclock
        exact ne_zone_of_wrap coarsest n
  · unfold weekdayCheck at ha
    split at ha
    · cases ha
    · split at ha
      · simp only at ha
        split_ifs at ha <;> cases ha <;> simp
      · cases ha
        simp

lemma landing_of_check (hr : r.InARow) (ht : earliest ≤ t) {a : Advance} (ha : r.check t = some a)
    (hs : s.IsWhole) (hts : t < s) (hy : s.date.year ≤ 9999) (hacc : r.accepts s = true) :
    ∃ l, a.landing t = some l ∧ t.seconds < l.seconds ∧ l.seconds ≤ s.seconds := by
  have hyt : t.date.year ≤ 9999 := le_trans (index_mono .year (le_of_lt hts)) hy
  by_cases hp : a.PassesOver t s
  · -- only the opening is passed over, from inside the second before it
    obtain ⟨rfl, -⟩ := eq_opening_of_accepts (Or.inl hr) ht ha hp hacc
    have hlt := hs.lt_iff.mp hts
    refine ⟨max s (t.addSeconds 1), rfl, ?_, ?_⟩ <;>
    · rw [Time.seconds_max, Time.seconds_addSeconds]
      omega
  · cases hl : a.landing t with
    | none =>
      refine absurd ⟨hs, hts, ?_⟩ hp
      rw [hl]
      exact hy
    | some l =>
      refine ⟨l, rfl, Advance.seconds_lt_of_landing (ne_zone_of_check ha) hyt hl, ?_⟩
      apply Time.seconds_le
      by_contra hlt
      refine hp ⟨hs, hts, ?_⟩
      rw [hl]
      exact lt_of_not_ge hlt

end Range

namespace Condition

variable {c : Condition}

lemma IsWindow.accepts_of_seconds_eq (hc : c.IsWindow) (h : s.seconds = t.seconds) :
    c.accepts s = c.accepts t := by
  cases c with
  | within r => exact r.accepts_of_seconds_eq h
  | withinAny rs =>
    simp only [accepts, acceptsGiven, Range.accepts_of_seconds_eq _ h]
  | _ => cases hc

lemma IsWindow.landing (hc : c.IsWindow) (ht : earliest ≤ t) (hr : c.accepts t = false)
    (hs : s.IsWhole) (hts : t < s) (hy : s.date.year ≤ 9999) (hacc : c.accepts s = true) :
    ∃ l, (c.advance t).landing t = some l ∧ t.seconds < l.seconds ∧ l.seconds ≤ s.seconds := by
  cases c with
  | within r =>
    simp only [accepts, acceptsGiven, Range.accepts, Option.isNone_eq_false_iff,
      Option.isSome_iff_exists] at hr
    obtain ⟨a, ha⟩ := hr
    simp only [advance, advanceGiven, ha, Option.getD_some]
    exact Range.landing_of_check hc ht ha hs hts hy hacc
  -- some range accepts, and the jump is not past where that one leads
  | withinAny rs =>
    simp only [accepts, acceptsGiven, List.any_eq_false, Range.accepts, Bool.not_eq_true,
      Option.isNone_eq_false_iff, Option.isSome_iff_exists] at hr
    simp only [accepts, acceptsGiven, List.any_eq_true] at hacc
    obtain ⟨r, hrs, hacc⟩ := hacc
    obtain ⟨a, ha⟩ := hr r hrs
    obtain ⟨l, hl, hlt, hle⟩ := Range.landing_of_check (hc r hrs) ht ha hs hts hy hacc
    have hmem : l ∈ (rs.filterMap fun r => r.check t).filterMap fun a => a.landing t :=
      List.mem_filterMap.mpr ⟨a, List.mem_filterMap.mpr ⟨r, hrs, ha⟩, hl⟩
    simp only [advance, advanceGiven, Advance.toEarliest_eq]
    cases hm : ((rs.filterMap fun r => r.check t).filterMap fun a => a.landing t).min? with
    | none =>
      rw [List.min?_eq_none_iff] at hm
      rw [hm] at hmem
      cases hmem
    | some m =>
      -- the earliest landing is not after this one
      have hml := Time.seconds_le ((List.min?_eq_some_iff.mp hm).2 l hmem)
      refine ⟨max m (t.addSeconds 1), rfl, ?_, ?_⟩ <;>
      · rw [Time.seconds_max, Time.seconds_addSeconds]
        omega
  | _ => cases hc

end Condition

/-! ### Jumps on the way -/

namespace Plan

open Condition

/-- A first time after another: no earlier whole second is accepted by all windows. -/
structure FirstOpening (ws : List Condition) (base opening : LocalTime) : Prop where
  whole : opening.IsWhole
  after : base < opening
  accepted : Accepted ws opening
  first : ∀ s : LocalTime, s.IsWhole → base < s → Accepted ws s → opening ≤ s

/-- Windows lead from one time to another in some jumps, each to the earliest of the times that the
refusing ones ask for. -/
inductive Leads (ws : List Condition) : Nat → LocalTime → LocalTime → Prop
  | here (t : LocalTime) : Leads ws 0 t t
  | jump {n : Nat} {t next place : LocalTime}
      (hnext : Advance.earliest? (windowLandings ws t) = some next)
      (hrest : Leads ws n next place) : Leads ws (n + 1) t place

lemma accepted_of_seconds_eq (hws : ∀ c ∈ ws, c.IsWindow) (h : s.seconds = t.seconds)
    (hs : Accepted ws s) : Accepted ws t := by
  intro c hc
  rw [← (hws c hc).accepts_of_seconds_eq h]
  exact hs c hc

lemma earliest?_of_accepted (h : Accepted ws t) :
    Advance.earliest? (windowLandings ws t) = none := by
  have hnil : windowLandings ws t = [] := by
    rw [windowLandings, List.filterMap_eq_nil_iff]
    intro c hc
    rw [if_pos (h c hc)]
  rw [hnil]
  rfl

lemma windowSeed_of_accepted (h : Accepted ws t) (n : Nat) : windowSeed ws n t = t := by
  cases n with
  | zero => rfl
  | succ n => rw [windowSeed, earliest?_of_accepted h]

lemma windowSeed_succ {next : LocalTime}
    (h : Advance.earliest? (windowLandings ws t) = some next) (n : Nat) :
    windowSeed ws (n + 1) t = windowSeed ws n next := by
  rw [windowSeed, h]

lemma Leads.windowSeed_eq {hops n : Nat} {place : LocalTime} (h : Leads ws hops t place)
    (hplace : Accepted ws place) (hn : hops ≤ n) : windowSeed ws n t = place := by
  induction h generalizing n with
  | here t => exact windowSeed_of_accepted hplace n
  | jump hnext _ ih =>
    obtain ⟨n, rfl⟩ : ∃ m, n = m + 1 := ⟨n - 1, by omega⟩
    rw [windowSeed_succ hnext]
    exact ih hplace (by omega)

section Opening

/-! ### The way to an opening -/

variable (hws : ∀ c ∈ ws, c.IsWindow) (hs : s.IsWhole) (hy : s.date.year ≤ 9999)
  (hacc : Accepted ws s)

include hws hs hacc

lemma lt_of_refused (hle : t.seconds ≤ s.seconds) (hr : ¬ Accepted ws t) : t < s := by
  rw [hs.lt_iff]
  refine lt_of_le_of_ne hle fun heq => hr ?_
  exact accepted_of_seconds_eq hws heq.symm hacc

include hy

lemma bounds_of_mem_windowLandings (ht : earliest ≤ t) (hts : t < s) {l : LocalTime}
    (hl : l ∈ windowLandings ws t) :
    t.seconds < l.seconds ∧ l.seconds ≤ s.seconds ∧ (t.IsWhole → l.IsWhole) := by
  obtain ⟨c, hc, hl⟩ := List.mem_filterMap.mp hl
  split at hl
  · cases hl
  rename_i hrefuses
  obtain ⟨l', hl', hlt, hle⟩ := (hws c hc).landing ht (Bool.eq_false_iff.mpr hrefuses) hs hts hy
    (hacc c hc)
  obtain rfl := Option.some.inj (hl'.symm.trans hl)
  refine ⟨hlt, hle, fun htw => ?_⟩
  have hyt : t.date.year ≤ 9999 := le_trans (year_mono (Time.seconds_le (le_of_lt hts))) hy
  refine (c.lands_advance htw hyt l' hl).1.resolve_right fun hyl => ?_
  have := year_mono hle
  omega

/-- **One jump.** A time that a window refuses has a next one: it is later, and not past the second
that they all accept. -/
lemma exists_next (ht : earliest ≤ t) (hts : t < s) (hr : ¬ Accepted ws t) :
    ∃ next, Advance.earliest? (windowLandings ws t) = some next ∧ t.seconds < next.seconds
      ∧ next.seconds ≤ s.seconds ∧ (t.IsWhole → next.IsWhole) := by
  obtain ⟨c, hc, hrefuses⟩ : ∃ c ∈ ws, ¬ c.accepts t = true := by simpa [Accepted] using hr
  obtain ⟨l, hl, -⟩ := (hws c hc).landing ht (Bool.eq_false_iff.mpr hrefuses) hs hts hy (hacc c hc)
  have hmem : l ∈ windowLandings ws t :=
    List.mem_filterMap.mpr ⟨c, hc, by rw [if_neg hrefuses, hl]⟩
  cases hm : (windowLandings ws t).min? with
  | none =>
    rw [List.min?_eq_none_iff.mp hm] at hmem
    cases hmem
  | some next =>
    have hbounds := bounds_of_mem_windowLandings hws hs hy hacc ht hts (List.min?_mem hm)
    exact ⟨next, hm, hbounds⟩

/-- **The seed does not pass a time that all windows accept**, however many jumps it takes. -/
theorem windowSeed_le (ht : earliest ≤ t) (hle : t.seconds ≤ s.seconds) (n : Nat) :
    (windowSeed ws n t).seconds ≤ s.seconds := by
  induction n generalizing t with
  | zero => exact hle
  | succ n ih =>
    by_cases hr : Accepted ws t
    · rw [windowSeed_of_accepted hr]
      exact hle
    · have hts := lt_of_refused hws hs hacc hle hr
      obtain ⟨next, hnext, hlt, hle', -⟩ := exists_next hws hs hy hacc ht hts hr
      rw [windowSeed_succ hnext]
      exact ih (le_trans ht (Or.inl hlt)) hle'

/-- **Some number of jumps leads to an opening**, as each leads to a later second. -/
theorem exists_leads (ht : earliest ≤ t) (hle : t.seconds ≤ s.seconds) :
    ∃ hops place, Leads ws hops t place ∧ Accepted ws place ∧ t.seconds ≤ place.seconds
      ∧ place.seconds ≤ s.seconds ∧ (t.IsWhole → place.IsWhole) := by
  induction hd : (s.seconds - t.seconds).toNat using Nat.strong_induction_on generalizing t with
  | _ d ih =>
    by_cases hr : Accepted ws t
    · exact ⟨0, t, .here t, hr, le_rfl, hle, id⟩
    · have hts := lt_of_refused hws hs hacc hle hr
      obtain ⟨next, hnext, hlt, hle', hwhole⟩ := exists_next hws hs hy hacc ht hts hr
      obtain ⟨hops, place, hleads, hplace, hge, hle'', hwhole'⟩ :=
        ih _ (by omega) (le_trans ht (Or.inl hlt)) hle' rfl
      exact ⟨hops + 1, place, .jump hnext hleads, hplace, by omega, hle'', hwhole' ∘ hwhole⟩

lemma Leads.windowSeed_lt {hops n : Nat} {place : LocalTime} (h : Leads ws hops t place)
    (ht : earliest ≤ t) (hle : t.seconds ≤ s.seconds) (hn : n < hops) :
    (windowSeed ws n t).seconds < s.seconds := by
  induction h generalizing n with
  | here t => cases hn
  | @jump _ t next place hnext _ ih =>
    have hr : ¬ Accepted ws t := by
      intro hr
      rw [earliest?_of_accepted hr] at hnext
      cases hnext
    have hts := lt_of_refused hws hs hacc hle hr
    obtain ⟨next', hnext', hlt, hle', -⟩ := exists_next hws hs hy hacc ht hts hr
    obtain rfl := Option.some.inj (hnext'.symm.trans hnext)
    cases n with
    | zero => exact hs.lt_iff.mp hts
    | succ n =>
      rw [windowSeed_succ hnext]
      exact ih (le_trans ht (Or.inl hlt)) hle' (by omega)

end Opening

lemma everyConditions_of_seconds_eq (e : Every) (fixed : UnitSet) (h : s.seconds = t.seconds) :
    everyConditions e s fixed = everyConditions e t fixed := by
  obtain ⟨n, f⟩ := s
  obtain ⟨n', f'⟩ := t
  obtain rfl : n = n' := h
  rfl

/-- A time that all windows accept and to which some number of jumps leads is in the first second
that they accept. -/
lemma firstOpening_of_windowSeed {base place : LocalTime} {n : Nat} (hws : ∀ c ∈ ws, c.IsWindow)
    (hb : earliest ≤ base) (hr : ¬ Accepted ws base) (hseed : windowSeed ws n base = place)
    (hplace : Accepted ws place) (hge : base.seconds ≤ place.seconds)
    (hy : place.date.year ≤ 9999) : FirstOpening ws base (Time.ofSeconds place.seconds) := by
  have hwhole := Time.isWhole_ofSeconds (c := .wall) place.seconds
  have hacc : Accepted ws (Time.ofSeconds place.seconds) :=
    accepted_of_seconds_eq hws rfl hplace
  refine ⟨hwhole, lt_of_refused hws hwhole hacc hge hr, hacc, fun v hv hbv hvacc => ?_⟩
  by_contra hlt
  have hvy : v.date.year ≤ 9999 :=
    le_trans (year_mono (Time.seconds_le (le_of_lt (lt_of_not_ge hlt)))) hy
  have hle := windowSeed_le hws hv hvy hvacc hb (Time.seconds_le (le_of_lt hbv)) n
  rw [hseed] at hle
  exact hlt (hwhole.le_iff.mpr hle)

/-- **A seed is the next opening exactly when at most eight jumps lead there.** A base that all
windows accept is its own seed. Otherwise, when they all accept some later second of the years that
a search looks at, there is a first one, and a number of jumps leads from the base into that second;
the seed never passes it, reaches it when that number is not over eight, and is then as good as it
for a cadence. -/
theorem windowSeed_opening_iff {rules : List Rule} {base : LocalTime}
    (hw : ∀ r ∈ rules, ∀ w ∈ r.ranges, w.InARow) (hb : earliest ≤ base) :
    let ws := windows rules
    let seed := windowSeed ws seedSteps base
    (Accepted ws base → seed = base)
    ∧ ∀ s : LocalTime, s.IsWhole → base < s → s.date.year ≤ 9999 → Accepted ws s →
      ¬ Accepted ws base →
        ∃ opening hops place, FirstOpening ws base opening ∧ Leads ws hops base place
          ∧ place.seconds = opening.seconds
          ∧ seed.seconds ≤ opening.seconds
          ∧ (seed.seconds = opening.seconds ↔ hops ≤ seedSteps)
          ∧ (base.IsWhole → (seed = opening ↔ hops ≤ seedSteps))
          ∧ (hops ≤ seedSteps → ∀ e fixed,
            everyConditions e seed fixed = everyConditions e opening fixed) := by
  intro ws seed
  have hws : ∀ c ∈ ws, c.IsWindow := isWindow_windows hw
  refine ⟨fun h => windowSeed_of_accepted h seedSteps, fun s hs hbs hy hacc hr => ?_⟩
  -- some number of jumps leads to the first second that all windows accept
  obtain ⟨hops, place, hleads, hplace, hge, hle, hwhole⟩ :=
    exists_leads hws hs hy hacc hb (Time.seconds_le (le_of_lt hbs))
  have hyear : place.date.year ≤ 9999 := le_trans (year_mono hle) hy
  have hfirst := firstOpening_of_windowSeed hws hb hr (hleads.windowSeed_eq hplace le_rfl) hplace
    hge hyear
  have hseed : hops ≤ seedSteps → seed = place := hleads.windowSeed_eq hplace
  -- and with fewer jumps the seed is before it
  have hiff : seed.seconds = place.seconds ↔ hops ≤ seedSteps := by
    refine ⟨fun heq => ?_, fun hn => by rw [hseed hn]⟩
    by_contra hn
    have hlt := hleads.windowSeed_lt hws hfirst.whole hyear hfirst.accepted hb hge (not_le.mp hn)
    exact absurd heq (ne_of_lt hlt)
  refine ⟨Time.ofSeconds place.seconds, hops, place, hfirst, hleads, rfl,
    windowSeed_le hws hfirst.whole hyear hfirst.accepted hb hge seedSteps, hiff, fun hbw => ?_,
    fun hn e fixed => everyConditions_of_seconds_eq e fixed (hiff.mpr hn)⟩
  refine ⟨fun heq => hiff.mp (by rw [heq]; rfl), fun hn => ?_⟩
  rw [hseed hn]
  exact (hwhole hbw).eq_ofSeconds

/-- From 10 August 2024 five jumps lead to the first Friday that is a 13th. -/
theorem windowSeed_opening_iff_september :
    let rules : List Rule := [.within ⟨UnitMap.ofList [(.day, ("13th", "13th"))]⟩,
      .within ⟨UnitMap.ofList [(.week, ("friday", "friday"))]⟩]
    let base := midnight (Date.ofFields 2024 8 10)
    let opening := midnight (Date.ofFields 2024 9 13)
    (∀ r ∈ rules, ∀ w ∈ r.ranges, w.InARow) ∧ earliest ≤ base ∧ ¬ Accepted (windows rules) base
      ∧ FirstOpening (windows rules) base opening
      ∧ windowSeed (windows rules) seedSteps base = opening := by
  intro rules base opening
  have hw : ∀ r ∈ rules, ∀ w ∈ r.ranges, w.InARow := by decide
  have hb : earliest ≤ base := by decide
  have hr : ¬ Accepted (windows rules) base := by decide +kernel
  have hacc : Accepted (windows rules) opening := by decide +kernel
  have hseed : windowSeed (windows rules) seedSteps base = opening := by decide +kernel
  obtain ⟨first, hops, place, hfirst, -, -, hle, -⟩ := (windowSeed_opening_iff hw hb).2 opening
    (by decide) (by decide) (by decide +kernel) hacc hr
  rw [hseed] at hle
  have hopening : opening.IsWhole := by decide
  have heq : first = opening := le_antisymm (hfirst.first opening hopening (by decide) hacc)
    (hopening.le_iff.mpr hle)
  exact ⟨hw, hb, hr, heq ▸ hfirst, hseed⟩

/-- From New Year 2024 thirty-three jumps would lead to the first Friday that is a 13th, and after
eight the seed is 1 March, a day that is no 13th. -/
theorem windowSeed_stops_in_march :
    let base := midnight (Date.ofFields 2024 1 1)
    let opening := midnight (Date.ofFields 2024 9 13)
    ∃ e, Expression.parse .empty "@every 3 days @between 13th and 13th @between friday and friday"
        Expression.standardCeiling = .ok e
      ∧ (∀ r ∈ e.rules, ∀ w ∈ r.ranges, w.InARow) ∧ ¬ Accepted (windows e.rules) base
      ∧ FirstOpening (windows e.rules) base opening ∧ opening.date.year ≤ 9999
      ∧ windowSeed (windows e.rules) seedSteps base = midnight (Date.ofFields 2024 3 1)
      ∧ ¬ Accepted (windows e.rules) (midnight (Date.ofFields 2024 3 1)) := by
  intro base opening
  obtain ⟨e, he, hall⟩ := Expression.exists_of_any .empty
    "@every 3 days @between 13th and 13th @between friday and friday" Expression.standardCeiling
    (fun e => decide ((∀ r ∈ e.rules, ∀ w ∈ r.ranges, w.InARow)
      ∧ ¬ Accepted (windows e.rules) base ∧ Accepted (windows e.rules) opening
      ∧ windowSeed (windows e.rules) 33 base = opening
      ∧ windowSeed (windows e.rules) seedSteps base = midnight (Date.ofFields 2024 3 1)
      ∧ ¬ Accepted (windows e.rules) (midnight (Date.ofFields 2024 3 1)))) (by decide +kernel)
  obtain ⟨hw, hr, hacc, hopening, hseed, hmarch⟩ := of_decide_eq_true hall
  have hfirst := firstOpening_of_windowSeed (isWindow_windows hw) (by decide) hr hopening hacc
    (by decide) (by decide +kernel)
  exact ⟨e, he, hw, hr, hfirst, by decide +kernel, hseed, hmarch⟩

end Plan

end Recurrence
