import Recurrence.Proofs.Calendar.Shifts
import Recurrence.Proofs.Search.Seeds
import Recurrence.Proofs.Search.Visits

/-!
Series that are resumed. A series has one plan, made for its base. Where a zone has one offset and
the unit of the cadence always has the same length, a plan made anew for an occurrence behaves as
the plan it was found with: the occurrence has the phase of the cadence and every pinned value, and
it is its own seed.

Main statement: `series_resumes`.
-/

namespace Recurrence

open LocalTime

/-! ### Conditions that behave alike -/

namespace Condition

/-- The conditions accept the same times and ask for the same jumps. -/
def Alike (c d : Condition) : Prop := ∀ t, c.accepts t = d.accepts t ∧ c.advance t = d.advance t

lemma Alike.refl (c : Condition) : Alike c c := fun _ => ⟨rfl, rfl⟩

lemma Alike.trans {c d e : Condition} (h₁ : Alike c d) (h₂ : Alike d e) : Alike c e :=
  fun t => ⟨(h₁ t).1.trans (h₂ t).1, (h₁ t).2.trans (h₂ t).2⟩

end Condition

abbrev Interchangeable (cs ds : List Condition) : Prop := List.Forall₂ Condition.Alike cs ds

variable {cs ds : List Condition} {t hit : LocalTime}

lemma Interchangeable.refl (cs : List Condition) : Interchangeable cs cs :=
  List.forall₂_same.mpr fun c _ => Condition.Alike.refl c

lemma Interchangeable.trans {es : List Condition} (h₁ : Interchangeable cs ds)
    (h₂ : Interchangeable ds es) : Interchangeable cs es := by
  induction h₁ generalizing es with
  | nil => exact h₂
  | cons h _ ih =>
    cases h₂ with
    | cons h' hrest => exact .cons (h.trans h') (ih hrest)

lemma Interchangeable.accepted (h : Interchangeable cs ds) (ht : Accepted cs t) :
    Accepted ds t := by
  induction h with
  | nil => exact ht
  | cons h _ ih =>
    rw [Accepted, List.forall_mem_cons] at ht ⊢
    exact ⟨(h t).1 ▸ ht.1, ih ht.2⟩

lemma Step.ofConditions_congr (h : Interchangeable cs ds) (t : LocalTime) :
    ofConditions cs t = ofConditions ds t := by
  suffices hjumps : (cs.filter fun c => !c.accepts t).map (fun c => c.advance t)
      = (ds.filter fun c => !c.accepts t).map (fun c => c.advance t) by
    rw [ofConditions, hjumps, ofConditions]
  induction h with
  | nil => rfl
  | cons h _ ih =>
    rw [List.filter_cons, List.filter_cons, (h t).1]
    split
    · rw [List.map_cons, List.map_cons, (h t).2, ih]
    · exact ih

/-! ### Plans made anew for a time that is accepted -/

namespace Cadence

lemma offset_congr {c d : Cadence} (hunit : c.unit = d.unit) (hinterval : c.interval = d.interval)
    (h : (d.phase - c.phase) % c.interval = 0) (t : LocalTime) : c.offset t = d.offset t := by
  obtain ⟨k, hk⟩ := Int.dvd_of_emod_eq_zero h
  rw [offset, offset, ← hunit, ← hinterval,
    show t.index c.unit - c.phase = t.index c.unit - d.phase + c.interval * k by omega,
    Int.add_mul_emod_self_left]

/-- Only without an anchor or in weeks does a cadence count from its phase. -/
def Counts (c : Cadence) : Prop := c.anchor = none ∨ c.unit = .week

instance (c : Cadence) : Decidable c.Counts := inferInstanceAs (Decidable (_ ∨ _))

lemma alike_of_offset {c d : Cadence} (hunit : c.unit = d.unit)
    (hinterval : c.interval = d.interval) (hanchor : c.anchor = d.anchor)
    (hoffset : c.Counts → ∀ t, c.offset t = d.offset t) :
    (Condition.cadence c).Alike (.cadence d) := by
  intro t
  have ha : c.anchorIn t = d.anchorIn t := by
    unfold anchorIn
    rw [hunit, hanchor]
  show c.accepts t = d.accepts t ∧ c.advance t = d.advance t
  unfold accepts advance
  by_cases hc : c.Counts
  · rw [ha, hunit, hinterval, hoffset hc t]
    exact ⟨rfl, rfl⟩
  · -- an anchor in other units than weeks, which is looked up in the month
    rw [Counts, not_or, hunit] at hc
    obtain ⟨anchor, hsome⟩ := Option.ne_none_iff_exists'.mp hc.1
    have hr : d.anchorIn t = some (.ofText d.unit t.date.year t.date.month anchor) := by
      rw [anchorIn, ← hanchor, hsome]
      rfl
    rw [ha, hr, hunit, hinterval]
    cases Resolution.ofText d.unit t.date.year t.date.month anchor <;>
      simp only [if_neg hc.2, and_self]

variable {e : Every} {seed hit : LocalTime}

/-- A time that a counting cadence accepts is in one of its units, and would be counted from. -/
lemma phase_of_accepts (hc : (startingAt e seed).Counts)
    (hacc : (startingAt e seed).accepts hit = true) :
    (startingAt e seed).offset hit = 0 ∧ (startingAt e hit).phase = hit.index e.unit := by
  obtain ⟨u, n, anchor⟩ := e
  cases anchor with
  -- without an anchor the unit of the hit is on the cadence, and counts from itself
  | none =>
    have hacc : decide ((startingAt ⟨u, n, none⟩ seed).offset hit = 0) = true := hacc
    refine ⟨of_decide_eq_true hacc, ?_⟩
    cases u <;> rfl
  -- with one the hit is on the weekday of the anchor, which is no days ahead of it
  | some anchor =>
    obtain rfl : u = .week := hc.resolve_left (by simp [startingAt])
    have hr : (startingAt ⟨.week, n, some anchor⟩ seed).anchorIn hit
        = some (.ofText .week hit.date.year hit.date.month anchor) := rfl
    rw [accepts, hr] at hacc
    cases ha : Resolution.ofText .week hit.date.year hit.date.month anchor with
    | noMatch => rw [ha] at hacc; cases hacc
    | invalid => rw [ha] at hacc; cases hacc
    | value weekday =>
      rw [ha] at hacc
      have hacc : (decide (hit.part .week = weekday)
          && decide ((startingAt ⟨.week, n, some anchor⟩ seed).offset hit = 0)) = true := hacc
      rw [Bool.and_eq_true, decide_eq_true_eq, decide_eq_true_eq] at hacc
      refine ⟨hacc.2, ?_⟩
      have hahead : (weekday - hit.part .week) % 7 = 0 := by
        rw [hacc.1, Int.sub_self]
        rfl
      show LocalTime.index .week (hit.addSeconds (((Resolution.ofText .week hit.date.year
        hit.date.month anchor).value?.getD 1 - hit.part .week) % 7 * daySeconds)) = _
      rw [ha]
      show LocalTime.index .week (hit.addSeconds ((weekday - hit.part .week) % 7 * daySeconds)) = _
      rw [hahead]
      simp [index, date]

/-- **A cadence that accepts a time is the cadence counted from it.** -/
theorem alike_startingAt (hacc : (startingAt e seed).accepts hit = true) :
    (Condition.cadence (startingAt e seed)).Alike (.cadence (startingAt e hit)) := by
  refine alike_of_offset rfl rfl rfl fun hc => offset_congr rfl rfl ?_
  obtain ⟨hoffset, hphase⟩ := phase_of_accepts hc hacc
  rw [hphase]
  exact hoffset

end Cadence

namespace Plan

lemma addPins_congr {f g : TimeUnit → Int} (blocked : UnitSet) {us : List TimeUnit}
    {taken : UnitSet}
    (h : ∀ u ∈ us, Condition.pin u (f u) ∈ (addPins f blocked taken us).1 → f u = g u) :
    addPins f blocked taken us = addPins g blocked taken us := by
  induction us generalizing taken with
  | nil => rfl
  | cons u us ih =>
    rw [addPins, addPins]
    rw [addPins] at h
    split
    · rename_i hfree
      rw [if_pos hfree] at h
      have hrest := ih fun v hv hmem =>
        h v (List.mem_cons_of_mem _ hv) (List.mem_cons_of_mem _ hmem)
      rw [hrest, h u List.mem_cons_self List.mem_cons_self]
    · rename_i hfree
      rw [if_neg hfree] at h
      exact ih fun v hv hmem => h v (List.mem_cons_of_mem _ hv) hmem

def uniform : List TimeUnit := [.second, .minute, .hour, .day, .week]

lemma part_eq_of_pin {u : TimeUnit} (hd : u ≠ .day) (hy : u ≠ .year) {seed hit : LocalTime}
    (h : (Condition.pin u (seed.part u)).accepts hit = true) : seed.part u = hit.part u := by
  have hpin : hit.part u = Condition.pinned u (seed.part u) hit := of_decide_eq_true h
  exact ((keeps_iff hd hy seed hit).mp hpin).symm

lemma ne_of_finer {u v : TimeUnit} (hv : v ∈ uniform)
    (hu : u ∈ pinnable.filter fun u => u.isFinerThan v) : u ≠ .day ∧ u ≠ .year := by
  revert hu hv
  cases u <;> cases v <;> decide

lemma everyConditions_resume {e : Every} (he : e.unit ∈ uniform) {seed hit : LocalTime}
    {fixed : UnitSet} (hacc : Accepted (everyConditions e seed fixed) hit) :
    Interchangeable (everyConditions e seed fixed) (everyConditions e hit fixed) := by
  have hcadence : (Cadence.startingAt e seed).accepts hit = true :=
    hacc (.cadence (.startingAt e seed)) (by simp [everyConditions])
  have hpins :
      addPins (fun u => seed.part u) ∅ fixed (pinnable.filter fun u => u.isFinerThan e.unit)
      = addPins (fun u => hit.part u) ∅ fixed (pinnable.filter fun u => u.isFinerThan e.unit) :=
    addPins_congr _ fun u hu hmem => part_eq_of_pin (ne_of_finer he hu).1 (ne_of_finer he hu).2 <|
      hacc _ (by
        simp only [everyConditions, List.mem_cons, List.mem_append]
        exact Or.inl (Or.inr hmem))
  unfold everyConditions
  rw [hpins]
  simp only
  refine .cons (Cadence.alike_startingAt hcadence) ?_
  split
  · rename_i hweek
    have hpin : seed.part .week = hit.part .week := part_eq_of_pin (by decide) (by decide) <|
      hacc _ (by
        simp only [everyConditions, hpins, if_pos hweek, List.mem_append]
        exact Or.inr List.mem_cons_self)
    rw [hpin]
    exact Interchangeable.refl _
  · exact Interchangeable.refl _

/-- **A plan made anew for a time that the plan accepts behaves as the plan,** where the unit of the
cadence is uniform. -/
theorem conditions_resume {rules : List Rule} (he : ∀ e ∈ every? rules, e.unit ∈ uniform)
    {base hit : LocalTime} (hacc : Accepted (conditions rules base) hit) :
    Interchangeable (conditions rules base) (conditions rules hit) := by
  have hwindows : Accepted (windows rules) hit := fun w hw => hacc w (by simp [conditions, hw])
  unfold conditions
  simp only [windowSeed_of_accepted hwindows]
  have hshared := Interchangeable.refl (fixedValues rules ++ (minimumPins rules).1)
  refine List.rel_append (List.rel_append hshared ?_) (Interchangeable.refl _)
  cases hevery : every? rules with
  | none => exact .nil
  | some e =>
    refine everyConditions_resume (he e hevery) fun c hc => hacc c ?_
    simp only [conditions, hevery, List.mem_append]
    exact Or.inl (Or.inr hc)

end Plan

/-! ### Searches and series -/

def Zone.GapFree (zone : Zone) : Prop := ∀ l, ∃ t, zone.toLocal t = l

lemma Zone.gapFree_of_constant {zone : Zone} {offset : Int} (h : ∀ s, zone.offsetAt s = offset) :
    zone.GapFree := by
  intro l
  refine ⟨⟨l.seconds - offset, l.nanos⟩, ?_⟩
  simp [toLocal, h]

namespace Search

variable {s s' : Search} {zone : Zone}

/-- Without gaps what a search finds shows a time that every condition accepts. -/
lemma accepted_of_nextInstant (hz : zone.GapFree) (hs : s.Recalls cs) {ceiling : Nat}
    {base hit : Instant} {bound : Option Instant}
    (h : s.nextInstant zone ceiling base bound = (some hit, s')) :
    Accepted cs (zone.toLocal hit) ∧ s'.Recalls cs := by
  obtain ⟨hf, hs'⟩ := follows_of_nextInstant hs h
  refine ⟨hf.accepted.resolve_right ?_, hs'⟩
  rintro ⟨l, -, hgap, -⟩
  obtain ⟨t, ht⟩ := hz l
  exact hgap t ht

end Search

lemma series_one (rules : List Rule) (zone : Zone) (ceiling : Nat) (base : Instant)
    (bound : Option Instant) : (series rules zone ceiling base 1 bound).1
      = ((Search.fresh (Plan.conditions rules (zone.toLocal base))).nextInstant zone ceiling base
          bound).1.toList := by
  rw [series, Search.instants]
  split <;> rename_i h <;> rw [h] <;> rfl

/-- Up to `count` occurrences one at a time, each from a series of its own that starts at the one
before, with a plan made anew; it stops when such a series is empty. -/
def resumed (rules : List Rule) (zone : Zone) (ceiling : Nat) (bound : Option Instant) :
    Nat → Instant → List Instant
  | 0, _ => []
  | count + 1, base =>
    match (series rules zone ceiling base 1 bound).1 with
    | [] => []
    | hit :: _ => hit :: resumed rules zone ceiling bound count hit

lemma Search.instants_resume {rules : List Rule}
    (he : ∀ e ∈ Plan.every? rules, e.unit ∈ Plan.uniform) {zone : Zone} (hz : zone.GapFree)
    {s : Search} (hs : s.Recalls cs) (ceiling : Nat) (bound : Option Instant) (count : Nat)
    {base : Instant} (hplan : Interchangeable cs (Plan.conditions rules (zone.toLocal base))) :
    (instants zone ceiling bound count s base).1
      = resumed rules zone ceiling bound count base := by
  induction count generalizing s base with
  | zero => rfl
  | succ count ih =>
    have hsame : (s.nextInstant zone ceiling base bound).1
        = ((fresh (Plan.conditions rules (zone.toLocal base))).nextInstant zone ceiling base
            bound).1 :=
      (Alike.instantAfter ⟨_, _, hs, recalls_fresh _, Step.ofConditions_congr hplan⟩ zone ceiling
        base bound _ _).1
    rw [resumed, series_one, ← hsame, instants]
    split
    · rename_i h
      rw [h]
      rfl
    · rename_i hit s₁ h
      obtain ⟨hacc, hs₁⟩ := accepted_of_nextInstant hz hs h
      have hnew := Plan.conditions_resume he (hplan.accepted hacc)
      rw [h]
      simp only [Option.toList_some]
      rw [ih hs₁ (hplan.trans hnew)]

/-- **A series can be resumed.** In a zone of one offset, with a cadence of seconds, minutes, hours,
days or weeks or with none, the occurrences of one series are those found one at a time, each with a
plan made anew for the one before. -/
theorem series_resumes {rules : List Rule}
    (he : ∀ e ∈ Plan.every? rules, e.unit ∈ [.second, .minute, .hour, .day, .week]) {zone : Zone}
    {offset : Int} (hz : ∀ s, zone.offsetAt s = offset) (ceiling : Nat) (base : Instant)
    (count : Nat) (bound : Option Instant) :
    (series rules zone ceiling base count bound).1
      = resumed rules zone ceiling bound count base :=
  Search.instants_resume he (Zone.gapFree_of_constant hz) (Search.recalls_fresh _) ceiling bound
    count (Interchangeable.refl _)

/-- Every second Tuesday between nine and five, an hour east: counted from the night of a leap day
it comes at nine, when the window opens. -/
theorem series_resumes_tuesdays :
    let rules : List Rule :=
      [.every ⟨.week, 2, some "tuesday"⟩, .within ⟨UnitMap.ofList [(.hour, ("9", "16"))]⟩]
    let base : Instant := Time.ofSeconds 1709161207
    let found : List Instant :=
      [Time.ofSeconds 1709625600, Time.ofSeconds 1710835200, Time.ofSeconds 1712044800]
    (series rules (.fixed 3600) 100 base 3 none).1 = found
      ∧ resumed rules (.fixed 3600) 100 none 3 base = found := by
  intro rules base found
  have hseries : (series rules (.fixed 3600) 100 base 3 none).1 = found := by decide +kernel
  have hunit : ∀ e ∈ Plan.every? rules, e.unit ∈ [.second, .minute, .hour, .day, .week] := by decide
  refine ⟨hseries, ?_⟩
  rw [← hseries]
  exact (series_resumes hunit (Zone.offsetAt_fixed 3600) 100 base 3 none).symm

end Recurrence
