import Recurrence.Proofs.Search.Series
import Recurrence.Zone.Offsets

/-!
Series with a bound. The bound is met twice: as a limit on the wall clock while a search walks, and
as an instant when it has found one. So a series with a bound is cut off where either refuses.

Main statements: `walk_limit`, `instants_some` and `series_bound`.
-/

namespace Recurrence

namespace Search

variable {cs : List Condition} {zone : Zone} {ceiling n : Nat} {base : Instant} {bound : Instant}
  {s s' : Search} {start t l : LocalTime}

/-- **A limit only cuts a walk off.** Below the limit the walk is the same, at or past it nothing is
found. -/
theorem walk_limit (hs : s.Recalls cs) (ht : Advance.Standing t) :
    walk (some l) n s t = walk none n s t ∧ (∀ u ∈ (walk none n s t).1, u < l)
      ∨ (walk (some l) n s t).1 = none ∧ ∀ u ∈ (walk none n s t).1, l ≤ u := by
  induction n generalizing s t with
  | zero => exact Or.inl ⟨rfl, by simp [walk]⟩
  | succ n ih =>
    by_cases hl : l ≤ t
    · -- the walk is past the limit, and it only leads forward
      right
      have hp : isPast (some l) t = true := by simp [isPast, hl]
      refine ⟨by rw [walk_succ, if_pos hp], ?_⟩
      intro u hu
      have hres : walk none (n + 1) s t = (some u, (walk none (n + 1) s t).2) := Prod.ext hu rfl
      exact le_trans hl (walk_found hs ht hres).2.1
    have hp : isPast (some l) t = isPast none t := by simp [isPast, hl]
    rw [hs.walk_succ, hs.walk_succ, hp]
    by_cases hpast : isPast none t = true
    · simp only [if_pos hpast]
      exact Or.inl ⟨trivial, by simp⟩
    simp only [if_neg hpast]
    obtain ⟨-, hy⟩ := isPast_eq_false.mp (Bool.eq_false_iff.mpr hpast)
    have hstep := Step.ofConditions_cases cs t
    split
    · exact Or.inl ⟨rfl, by simpa using hl⟩
    · rename_i next hj
      rw [hj] at hstep
      obtain ⟨c, -, -, hland⟩ := hstep
      exact ih (hs.look t) (c.lands_advance (ht.resolve_right (by omega)) hy next hland).1
    · exact Or.inl ⟨rfl, by simp⟩

/-! ### Hits -/

/-- The passes of a search without a bound, with the local time found beside its instant. -/
def hitAfter (zone : Zone) (ceiling : Nat) (base : Instant) :
    Nat → Search → LocalTime → Option (LocalTime × Instant) × Search
  | 0, s, _ => (none, s)
  | passes + 1, s, start =>
    match s.again.next start none ceiling with
    | (none, s) => (none, s)
    | (some found, s) =>
      match (zone.toUniversal found).find? fun t => base < t with
      | some hit => (some (found, hit), s)
      | none => hitAfter zone ceiling base passes s found

/-- Up to `count` occurrences in a row, with the local times found beside their instants. -/
def hits (zone : Zone) (ceiling : Nat) : Nat → Search → Instant → List (LocalTime × Instant)
  | 0, _, _ => []
  | count + 1, s, base =>
    match hitAfter zone ceiling base maxPasses s (zone.toLocal base) with
    | (none, _) => []
    | (some p, s) => p :: hits zone ceiling count s p.2

lemma instantAfter_none (zone : Zone) (ceiling : Nat) (base : Instant) (passes : Nat) (s : Search)
    (start : LocalTime) :
    instantAfter zone ceiling base none passes s start
      = ((hitAfter zone ceiling base passes s start).1.map Prod.snd,
        (hitAfter zone ceiling base passes s start).2) := by
  induction passes generalizing s start with
  | zero => rfl
  | succ passes ih =>
    rw [instantAfter_succ, hitAfter, Option.map_none]
    cases hn : s.again.next start none ceiling with
    | mk found s₁ =>
      cases found with
      | none => rfl
      | some found =>
        cases hf : (zone.toUniversal found).find? fun t => base < t with
        | some hit => simp [hf]
        | none => simpa [hf] using ih s₁ found

lemma instants_none (zone : Zone) (ceiling count : Nat) (s : Search) (base : Instant) :
    (instants zone ceiling none count s base).1 = (hits zone ceiling count s base).map
      Prod.snd := by
  induction count generalizing s base with
  | zero => rfl
  | succ count ih =>
    rw [instants, hits, nextInstant, instantAfter_none]
    cases hh : hitAfter zone ceiling base maxPasses s (zone.toLocal base) with
    | mk p s₁ =>
      cases p with
      | none => rfl
      | some p => simpa using ih s₁ p.2

lemma lt_of_hitAfter {passes : Nat} {p : LocalTime × Instant} (hs : s.Recalls cs)
    (h : hitAfter zone ceiling base passes s start = (some p, s')) : start < p.1 := by
  induction passes generalizing s start with
  | zero => cases h
  | succ passes ih =>
    rw [hitAfter] at h
    split at h
    · cases h
    · rename_i found s₁ hn
      have hlt := (next_found hs.again hn).2.1
      have hs₁ := hs.again.next start none ceiling
      rw [hn] at hs₁
      split at h
      · cases h; exact hlt
      · exact lt_trans hlt (ih hs₁ h)

lemma Recalls.hitAfter (hs : s.Recalls cs) (zone : Zone) (ceiling : Nat) (base : Instant)
    (passes : Nat) (start : LocalTime) :
    (hitAfter zone ceiling base passes s start).2.Recalls cs := by
  have := hs.instantAfter zone ceiling base none passes start
  rwa [instantAfter_none] at this

/-- The wall clock has not come to the bound at the local time found, nor has universal time at the
instant. -/
def Before (zone : Zone) (bound : Instant) (p : LocalTime × Instant) : Prop :=
  p.1 < zone.toLocal bound ∧ p.2 < bound

instance (zone : Zone) (bound : Instant) : DecidablePred (Before zone bound) :=
  fun _ => inferInstanceAs (Decidable (_ ∧ _))

/-- **A bounded search ends at the hit, if that lies before the bound on both clocks,** and else
without one. -/
theorem instantAfter_some (hs : s.Recalls cs) (zone : Zone) (ceiling : Nat) (base bound : Instant)
    (passes : Nat) (start : LocalTime) :
    let unbounded := hitAfter zone ceiling base passes s start
    let bounded := instantAfter zone ceiling base (some bound) passes s start
    (∃ p ∈ unbounded.1, Before zone bound p ∧ bounded = (some p.2, unbounded.2))
      ∨ bounded.1 = none ∧ ∀ p ∈ unbounded.1, ¬ Before zone bound p := by
  induction passes generalizing s start with
  | zero => exact Or.inr ⟨rfl, by simp [hitAfter]⟩
  | succ passes ih =>
    have hstand : Advance.Standing (Time.ofSeconds (start.seconds + 1) : LocalTime) := Or.inl rfl
    have hlimit := walk_limit (l := zone.toLocal bound) (n := ceiling) hs.again hstand
    rw [← next_eq, ← next_eq] at hlimit
    have hs₁ := hs.again.next start none ceiling
    simp only [hitAfter, instantAfter_succ, Option.map_some]
    cases hn : s.again.next start none ceiling with
    | mk found s₁ =>
    rw [hn] at hlimit hs₁
    rcases hlimit with ⟨heq, hlt⟩ | ⟨hnone, hge⟩
    · rw [heq]
      cases found with
      | none => exact Or.inr ⟨rfl, by simp⟩
      | some found =>
        cases hf : (zone.toUniversal found).find? fun t => base < t with
        | none => simpa [hf] using ih hs₁ found
        | some hit =>
          by_cases hb : hit < bound
          · refine Or.inl ⟨(found, hit), by simp [hf], ⟨hlt found rfl, hb⟩, ?_⟩
            simp [hf, not_le.mpr hb]
          · refine Or.inr ⟨by simp [hf, not_lt.mp hb], ?_⟩
            simpa [hf, Before] using fun _ => not_lt.mp hb
    · -- the walk has come to the limit before it found anything
      right
      constructor
      · cases hb : s.again.next start (some (zone.toLocal bound)) ceiling with
        | mk o s₂ =>
          rw [hb] at hnone
          simp only at hnone
          rw [hnone]
      · cases found with
        | none => simp
        | some found =>
          intro p hp hbefore
          have hle : found ≤ p.1 := by
            cases hf : (zone.toUniversal found).find? fun t => base < t with
            | none =>
              simp only [hf] at hp
              exact le_of_lt (lt_of_hitAfter hs₁ (Prod.ext hp rfl))
            | some hit =>
              simp only [hf] at hp
              cases hp
              exact le_refl _
          exact absurd hbefore.1 (not_lt.mpr (le_trans (hge found rfl) hle))

/-- **A bounded run stops at the first hit that does not lie before the bound on both clocks.** -/
theorem instants_some (hs : s.Recalls cs) (zone : Zone) (ceiling : Nat) (bound : Instant)
    (count : Nat) (base : Instant) :
    (instants zone ceiling (some bound) count s base).1
      = ((hits zone ceiling count s base).takeWhile (Before zone bound ·)).map Prod.snd := by
  induction count generalizing s base with
  | zero => rfl
  | succ count ih =>
    have hs₁ := hs.hitAfter zone ceiling base maxPasses (zone.toLocal base)
    have hstep := instantAfter_some hs zone ceiling base bound maxPasses (zone.toLocal base)
    rw [instants, hits, nextInstant]
    cases hh : hitAfter zone ceiling base maxPasses s (zone.toLocal base) with
    | mk o s₁ =>
    rw [hh] at hs₁ hstep
    rcases hstep with ⟨p, ⟨rfl⟩, hp, heq⟩ | ⟨hnone, hall⟩
    · rw [heq]
      simpa [List.takeWhile_cons, hp] using ih hs₁ p.2
    · cases hb : instantAfter zone ceiling base (some bound) maxPasses s (zone.toLocal base) with
      | mk o' s₂ =>
        rw [hb] at hnone
        simp only at hnone
        subst hnone
        cases o with
        | none => rfl
        | some p => simp [hall p rfl]

lemma pairwise_hits (hs : s.Recalls cs) (zone : Zone) (ceiling count : Nat) (base : Instant) :
    (hits zone ceiling count s base).Pairwise fun p q => p.2 < q.2 := by
  have hasc := (instants_ascend hs zone ceiling none count base).2.1
  rw [instants_none, List.pairwise_cons, List.pairwise_map] at hasc
  exact hasc.2.imp fun h => h.1

end Search

/-- The occurrences of a series without a bound, each beside the local time that it stands for. -/
def seriesHits (rules : List Rule) (zone : Zone) (ceiling : Nat) (base : Instant) (count : Nat) :
    List (LocalTime × Instant) :=
  Search.hits zone ceiling count (Search.fresh (Plan.conditions rules (zone.toLocal base))) base

section TakeWhile

variable {α : Type} {p q : α → Bool}

lemma takeWhile_prefix_takeWhile (h : ∀ a, p a = true → q a = true) (l : List α) :
    l.takeWhile p <+: l.takeWhile q := by
  induction l with
  | nil => simp
  | cons a l ih =>
    by_cases hp : p a = true
    · rw [List.takeWhile_cons_of_pos hp, List.takeWhile_cons_of_pos (h a hp), List.prefix_cons_inj]
      exact ih
    · rw [List.takeWhile_cons_of_neg hp]
      exact List.nil_prefix

lemma takeWhile_eq_takeWhile_iff (h : ∀ a, p a = true → q a = true) (l : List α) :
    l.takeWhile p = l.takeWhile q ↔ ∀ a ∈ l.takeWhile q, p a = true := by
  constructor
  · intro heq a ha
    rw [← heq] at ha
    exact List.all_eq_true.mp List.all_takeWhile a ha
  · intro hall
    induction l with
    | nil => rfl
    | cons a l ih =>
      by_cases hq : q a = true
      · rw [List.takeWhile_cons_of_pos hq] at hall ⊢
        rw [List.takeWhile_cons_of_pos (hall a List.mem_cons_self),
          ih fun b hb => hall b (List.mem_cons_of_mem _ hb)]
      · rw [List.takeWhile_cons_of_neg hq, List.takeWhile_cons_of_neg fun hp => hq (h a hp)]

lemma mem_takeWhile_of_pairwise {l : List α} (hl : l.Pairwise fun a b => q b = true → q a = true)
    {a : α} (ha : a ∈ l) (hq : q a = true) : a ∈ l.takeWhile q := by
  induction l with
  | nil => cases ha
  | cons b l ih =>
    rw [List.pairwise_cons] at hl
    have hb : q b = true := by
      rcases List.mem_cons.mp ha with rfl | hm
      · exact hq
      · exact hl.1 a hm hq
    rw [List.takeWhile_cons_of_pos hb]
    rcases List.mem_cons.mp ha with rfl | hm
    · exact List.mem_cons_self
    · exact List.mem_cons_of_mem _ (ih hl.2 hm)

end TakeWhile

/-- A run cut where either clock has come to the bound begins the run cut where universal time has.
It is all of that when the wall clock never comes to the bound first. -/
lemma takeWhile_before {l : List (LocalTime × Instant)} (hl : l.Pairwise fun p q => p.2 < q.2)
    (zone : Zone) (bound : Instant) :
    l.takeWhile (Search.Before zone bound ·) <+: l.takeWhile (·.2 < bound)
      ∧ (l.takeWhile (Search.Before zone bound ·) = l.takeWhile (·.2 < bound)
        ↔ ∀ p ∈ l, p.2 < bound → p.1 < zone.toLocal bound) := by
  have himp : ∀ p : LocalTime × Instant, decide (Search.Before zone bound p) = true →
      decide (p.2 < bound) = true := by
    intro p hp
    exact decide_eq_true (of_decide_eq_true hp).2
  refine ⟨takeWhile_prefix_takeWhile himp l, ?_⟩
  rw [takeWhile_eq_takeWhile_iff himp l]
  constructor
  · -- the hits before the bound come first, as their instants are in order
    intro hall p hp hlt
    have hfirst : p ∈ l.takeWhile (·.2 < bound) := by
      refine mem_takeWhile_of_pairwise (hl.imp fun hpq hq => ?_) hp (decide_eq_true hlt)
      exact decide_eq_true (lt_trans hpq (of_decide_eq_true hq))
    exact (of_decide_eq_true (hall p hfirst)).1
  · intro h p hp
    have hlt : p.2 < bound := of_decide_eq_true (List.all_eq_true.mp List.all_takeWhile p hp)
    exact decide_eq_true ⟨h p (List.takeWhile_subset _ hp) hlt, hlt⟩

/-- **A bound cuts a series off, sometimes too early.** The bounded series begins the unbounded one
and stays before the bound. It is all of that exactly when every occurrence before the bound stands
for a local time that the wall clock has passed at the bound. -/
theorem series_bound (rules : List Rule) (zone : Zone) (ceiling : Nat) (base : Instant)
    (count : Nat) (bound : Instant) :
    (series rules zone ceiling base count (some bound)).1
        <+: (series rules zone ceiling base count none).1.takeWhile (· < bound)
      ∧ ((series rules zone ceiling base count (some bound)).1
          = (series rules zone ceiling base count none).1.takeWhile (· < bound)
        ↔ ∀ p ∈ seriesHits rules zone ceiling base count,
            p.2 < bound → p.1 < zone.toLocal bound) := by
  have hs := Search.recalls_fresh (Plan.conditions rules (zone.toLocal base))
  have hnone : (series rules zone ceiling base count none).1
      = (seriesHits rules zone ceiling base count).map Prod.snd := Search.instants_none ..
  have hsome : (series rules zone ceiling base count (some bound)).1
      = ((seriesHits rules zone ceiling base count).takeWhile
        (Search.Before zone bound ·)).map Prod.snd := Search.instants_some hs ..
  have hcut : ((seriesHits rules zone ceiling base count).map Prod.snd).takeWhile (· < bound)
      = ((seriesHits rules zone ceiling base count).takeWhile (·.2 < bound)).map Prod.snd :=
    List.takeWhile_map ..
  have hord : (seriesHits rules zone ceiling base count).Pairwise fun p q => p.2 < q.2 :=
    Search.pairwise_hits hs ..
  obtain ⟨hpre, hiff⟩ := takeWhile_before hord zone bound
  rw [hnone, hsome, hcut]
  refine ⟨hpre.map Prod.snd, ?_⟩
  rw [← hiff]
  constructor
  · intro h
    exact hpre.eq_of_length (by simpa using congrArg List.length h)
  · intro h
    rw [h]

/-- Half past one comes twice in New York on 3 November 2024, at 05:30 and 06:30. At the bound,
06:10, the clock shows ten past one again, and the first of the two is not found. -/
theorem series_bound_repeated_hour :
    let base : Instant := Time.ofSeconds 1730610000
    let bound : Instant := Time.ofSeconds 1730614200
    ∃ e, Expression.parse Zone.recorded "@daily @at 01:30 @tz America/New_York" 1000000 = .ok e
      ∧ (series e.rules (e.zoneOr Zone.utc) e.ceiling base 1 (some bound)).1
        ≠ (series e.rules (e.zoneOr Zone.utc) e.ceiling base 1 none).1.takeWhile (· < bound) := by
  intro base bound
  exact exists_ok (by decide +kernel)

end Recurrence
