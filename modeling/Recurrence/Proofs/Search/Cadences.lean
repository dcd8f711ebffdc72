import Recurrence.Search.Cadence
import Recurrence.Proofs.Search.Jumps

/-!
Jumps along a cadence. Units of a cadence are as far apart as its interval says, counted from the
anchor inside a cycle or from the phase over all time.

Main statement: `safe_advance`.
-/

namespace Recurrence

namespace Cadence

open LocalTime Advance

variable {c : Cadence} {s t : LocalTime}

lemma emod_ne_zero {x y n : Int} (hx : x % n ≠ 0) (hxy : x ≤ y) (hy : y < x + (n - x % n))
    (hn : 1 ≤ n) : y % n ≠ 0 := by
  have h₁ := Int.emod_nonneg x (show n ≠ 0 by omega)
  have h₂ : y = x % n + (y - x) + n * (x / n) := by
    have := Int.emod_add_mul_ediv x n
    omega
  rw [h₂, Int.add_mul_emod_self_left, Int.emod_eq_of_lt (by omega) (by omega)]
  omega

lemma emod_ne_zero_of_lt {x y n : Int} (hx : x % n = 0) (hxy : x < y) (hy : y < x + n) :
    y % n ≠ 0 := by
  have h₂ : y = (y - x) + n * (x / n) := by
    have := Int.emod_add_mul_ediv x n
    omega
  rw [h₂, Int.add_mul_emod_self_left, Int.emod_eq_of_lt (by omega) (by omega)]
  omega

def ahead (c : Cadence) (t : LocalTime) : Int :=
  if c.offset t = 0 then c.interval else c.interval - c.offset t

lemma offset_ne_zero (hc : 1 ≤ c.interval) (h : t.index c.unit ≤ s.index c.unit)
    (hne : c.offset t = 0 → t.index c.unit < s.index c.unit)
    (hs : s.index c.unit < t.index c.unit + max (c.ahead t) 1) : c.offset s ≠ 0 := by
  unfold ahead at hs
  unfold offset at *
  split at hs
  · rename_i hx
    exact emod_ne_zero_of_lt hx (by have := hne hx; omega) (by omega)
  · rename_i hx
    have := Int.emod_lt_of_pos (t.index c.unit - c.phase) (show 0 < c.interval by omega)
    exact emod_ne_zero hx (by omega) (by omega) hc

lemma advance_eq (c : Cadence) (t : LocalTime) : c.advance t = match c.anchorIn t with
    | none => .units (c.ahead t) c.unit
    | some .noMatch => .wrap c.unit
    | some .invalid => .never
    | some (.value anchor) =>
      if c.unit = .week then
        if c.offset t = 0 ∧ t.part .week < anchor then .units (anchor - t.part .week) .day
        else .units (c.ahead t) .week
      else if t.part c.unit + (c.interval - (t.part c.unit - anchor) % c.interval)
          ≤ c.unit.maxValueIn t.date.year t.date.month then
        .units (c.interval - (t.part c.unit - anchor) % c.interval) c.unit
      else .wrap c.unit := rfl

lemma safe_advance_of_no_anchor (hc : 1 ≤ c.interval) (ht : t.InReach) (ha : c.anchor = none)
    (hr : c.accepts t = false) : Safe (fun s => c.accepts s = true) (c.advance t) t := by
  have hacc : ∀ s, c.accepts s = decide (c.offset s = 0) := by
    intro s
    simp only [accepts, anchorIn, ha, Option.map_none]
  simp only [advance_eq, anchorIn, ha, Option.map_none]
  rw [hacc, decide_eq_false_iff_not] at hr
  apply safe_units ht
  intro s hts _ hi hok
  rw [hacc, decide_eq_true_eq] at hok
  exact offset_ne_zero hc (index_mono _ (le_of_lt hts)) (fun h => absurd h hr) hi hok

variable {anchor : Int} {res : LocalTime → Resolution}

/-- Weeks are counted over all time, and in a week of the cadence the anchor is one day. The jump
leads to a day or a week that no later time of the cadence comes before. -/
lemma advance_eq_units_of_week (hc : 1 ≤ c.interval) (hu : c.unit = .week)
    (ha : ∀ s, c.anchorIn s = some (.value anchor)) (hr : c.accepts t = false) :
    ∃ n u, c.advance t = .units n u ∧ u ≠ .timeZone
      ∧ ∀ s, t < s → c.accepts s = true → t.index u + max n 1 ≤ s.index u := by
  have hacc : ∀ s, c.accepts s = true ↔ s.part .week = anchor ∧ c.offset s = 0 := by
    intro s
    simp [accepts, ha, hu]
  rw [Bool.eq_false_iff, ne_eq, hacc] at hr
  simp only [advance_eq, ha, if_pos hu]
  have hday : ∀ s : LocalTime, s.part .week = s.index .day % 7 + 1 := fun _ => rfl
  have hweek : ∀ s : LocalTime, s.index .week = s.index .day / 7 := fun _ => rfl
  split
  · -- the anchor is still to come in this week
    refine ⟨_, _, rfl, by decide, fun s hts hok => ?_⟩
    have := ((hacc s).mp hok).1
    have := index_mono .day (le_of_lt hts)
    rw [hday] at *; omega
  · rename_i hn
    refine ⟨_, _, rfl, by decide, fun s hts hok => ?_⟩
    obtain ⟨hw, ho⟩ := (hacc s).mp hok
    have hle := index_mono .day (le_of_lt hts)
    by_contra hi
    refine offset_ne_zero (t := t) hc ?_ (fun h0 => ?_) ?_ ho
    · rw [hu]; exact index_mono .week (le_of_lt hts)
    · -- the anchor is over in this week
      rw [hu]
      have hpast : anchor < t.part .week := by
        have : t.part .week ≠ anchor := fun h => hr ⟨h, h0⟩
        omega
      simp only [hday, hweek] at *; omega
    · rw [hu]; omega

lemma safe_advance_of_week (hc : 1 ≤ c.interval) (ht : t.InReach) (hu : c.unit = .week)
    (ha : ∀ s, c.anchorIn s = some (.value anchor)) (hr : c.accepts t = false) :
    Safe (fun s => c.accepts s = true) (c.advance t) t := by
  obtain ⟨n, u, hadvance, -, hle⟩ := advance_eq_units_of_week hc hu ha hr
  rw [hadvance]
  apply safe_units ht
  intro s hts _ hi hok
  have := hle s hts hok
  omega

/-- Other units are counted from the anchor in each cycle. -/
lemma safe_advance_of_anchor (hc : 1 ≤ c.interval) (ht : t.InReach) (hu : c.unit ≠ .week)
    (hz : c.unit ≠ .timeZone) (hres : ∀ s, c.anchorIn s = some (res s)) (hs : Steady c.unit res)
    (ha : res t = .value anchor) (hr : c.accepts t = false) :
    Safe (fun s => c.accepts s = true) (c.advance t) t := by
  have hacc : ∀ s : LocalTime, s.InReach → SameCycle c.unit s t →
      (c.accepts s = true ↔ (s.part c.unit - anchor) % c.interval = 0) := by
    intro s hsr hst
    simp [accepts, hres, hs.cycle hsr ht hst, ha, if_neg hu]
  rw [Bool.eq_false_iff, ne_eq, hacc t ht fun _ _ => rfl] at hr
  simp only [advance_eq, hres, ha, if_neg hu]
  split
  · -- the next unit of the cadence is in this cycle
    have := Int.emod_lt_of_pos (t.part c.unit - anchor) (show 0 < c.interval by omega)
    apply safe_units ht
    intro s hts hsr hi hok
    rw [max_eq_left (by omega)] at hi
    obtain ⟨hst, hle, hlt⟩ := part_lt_of_index_lt ht hu hz hts (by omega) hi
    exact emod_ne_zero hr (by omega) (by omega) hc ((hacc s hsr hst).mp hok)
  · apply safe_wrap ht
    intro s hts hsr hst hok
    have := part_le_maxValueIn c.unit hsr
    have := maxValueIn_eq_of_cycle hst
    have := part_le_part hu hz hts hst
    exact emod_ne_zero hr (by omega) (by omega) hc ((hacc s hsr hst).mp hok)

/-- **The jump along a cadence is safe.** -/
theorem safe_advance (hc : 1 ≤ c.interval) (ht : t.InReach) (hr : c.accepts t = false) :
    Safe (fun s => c.accepts s = true) (c.advance t) t := by
  cases ha : c.anchor with
  | none => exact safe_advance_of_no_anchor hc ht ha hr
  | some text =>
    have hs := steady_ofText c.unit text
    have hres : ∀ s, c.anchorIn s = some (Resolution.ofText c.unit s.date.year s.date.month text) :=
      fun s => by rw [anchorIn, ha]; rfl
    cases hv : Resolution.ofText c.unit t.date.year t.date.month text with
    | noMatch =>
      simp only [advance_eq, hres, hv]
      -- what has no value in this cycle is on no unit of it
      apply safe_wrap ht
      intro s _ hsr hst hok
      simp [accepts, hres, hs.cycle hsr ht hst, hv] at hok
    | invalid =>
      simp only [advance_eq, hres, hv]
      apply safe_never ht
      intro s _ hsr hok
      simp [accepts, hres, hs.invalid ht hsr hv] at hok
    | value anchor =>
      by_cases hu : c.unit = .week
      -- the anchor of weeks is the same weekday in every month
      · have hday : ∀ s, c.anchorIn s = some (.value anchor) := by
          intro s
          rw [hres, hs.week (t := t) hu, hv]
        exact safe_advance_of_week hc ht hu hday hr
      · refine safe_advance_of_anchor hc ht hu (fun hz => ?_) hres hs hv hr
        simp [hz, Resolution.ofText] at hv

lemma lands_advance (htw : t.IsWhole) (hy : t.date.year ≤ 9999) (c : Cadence) :
    (c.advance t).Lands t := by
  rw [advance_eq]
  split
  · exact lands_units htw hy _ _
  · exact lands_wrap htw hy _
  · exact lands_never t
  · split <;> split
    · exact lands_units htw hy _ _
    · exact lands_units htw hy _ _
    · exact lands_units htw hy _ _
    · exact lands_wrap htw hy _

end Cadence

end Recurrence
