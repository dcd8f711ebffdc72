import Recurrence.Proofs.Search.Series
import Recurrence.Proofs.Zone.Separated
import Recurrence.Zone.Offsets

/-!
Occurrences near a gap. A search passes over no accepted time that the wall clock shows once, but
for one: a time in a gap stands for a later instant, and what the clock shows between the end of the
gap and that instant is not looked at.

Main statement: `nextInstant_skips_iff`.
-/

namespace Recurrence

open LocalTime

namespace Search

variable {cs : List Condition} {zone : Zone} {ceiling : Nat} {base hit t : Instant}
  {s s' : Search} {start found : LocalTime}

lemma find?_toUniversal (h : zone.ShownOnce t) (hb : base < t) :
    (zone.toUniversal (zone.toLocal t)).find? (fun r => base < r) = some t := by
  have hmem : t ∈ zone.instantsOf (zone.toLocal t) := Zone.mem_instantsOf.mpr rfl
  rw [Zone.toUniversal_of_ne_nil (List.ne_nil_of_mem hmem)]
  cases hf : (zone.instantsOf (zone.toLocal t)).find? fun r => base < r with
  | none => simpa [hb] using List.find?_eq_none.mp hf t hmem
  | some r => rw [h r (Zone.mem_instantsOf.mp (List.mem_of_find?_eq_some hf))]

/-- Passes that lead to a hit find an accepted time that it stands for, before any accepted time
that is shown once after the base, unless they hit that one. -/
lemma instantAfter_le {passes : Nat} (hs : s.Recalls cs) (hc : ∀ c ∈ cs, c.WellFormed)
    (he : earliest ≤ start)
    (h : instantAfter zone ceiling base none passes s start = (some hit, s')) (hw : t.IsWhole)
    (hb : base < t) (ht : zone.ShownOnce t) (hacc : Accepted cs (zone.toLocal t))
    (hst : start < zone.toLocal t) :
    hit = t ∨ ∃ l, start < l ∧ l < zone.toLocal t ∧ Accepted cs l ∧ hit ∈ zone.toUniversal l := by
  induction passes generalizing s start with
  | zero => cases h
  | succ passes ih =>
    obtain ⟨found, s₁, hn, hf⟩ := exists_found h
    obtain ⟨-, hlt, -, -, haccf⟩ := next_found hs.again hn
    rcases eq_or_lt_of_le (next_le hs.again hc he hn hw hst hacc) with rfl | hbefore
    · -- the pass has come to the time itself
      rw [find?_toUniversal ht hb] at hf
      have heq : t = hit := by simpa using hf
      exact Or.inl heq.symm
    · rcases hf with ⟨hf, -⟩ | ⟨-, hrest⟩
      · exact Or.inr ⟨found, hlt, hbefore, haccf, List.mem_of_find?_eq_some hf⟩
      · have hs₁ := hs.again.next start (Option.map zone.toLocal none) ceiling
        rw [hn] at hs₁
        refine (ih hs₁ (le_trans he (le_of_lt hlt)) hrest hbefore).imp_right ?_
        rintro ⟨l, hfl, hl⟩
        exact ⟨l, lt_trans hlt hfl, hl⟩

/-- **A search passes over an accepted time only behind a gap.** No accepted whole second after the
base and before the hit is shown once by the wall clock, exactly when none is between a time in a
gap that the hit stands for and what the clock shows at the hit. -/
theorem nextInstant_skips_iff {rules : List Rule} (hw : ∀ r ∈ rules, ∀ w ∈ r.ranges, w.InARow)
    {seed : LocalTime} (hs : s.Recalls (Plan.conditions rules seed)) (hz : zone.WellSeparated)
    (hb : earliest ≤ zone.toLocal base)
    (h : (s.nextInstant zone ceiling base none).1 = some hit) :
    (∀ t : Instant, t.IsWhole → zone.ShownOnce t → base < t → t < hit →
        ¬ Accepted (Plan.conditions rules seed) (zone.toLocal t))
      ↔ ∀ l, zone.toLocal base < l → (∀ r, zone.toLocal r ≠ l) →
        Accepted (Plan.conditions rules seed) l → hit ∈ zone.toUniversal l →
        ∀ t : Instant, t.IsWhole → zone.ShownOnce t → l < zone.toLocal t →
          zone.toLocal t < zone.toLocal hit →
          ¬ Accepted (Plan.conditions rules seed) (zone.toLocal t) := by
  constructor
  · intro hnone l hbl _ _ _ t htw ht hlt hth
    exact hnone t htw ht ((ht.lt_iff hz).1.mp (lt_trans hbl hlt)) ((ht.lt_iff hz).2.mp hth)
  · intro hgap t htw ht hbt hth hacc
    have hc := Plan.wellFormed_conditions hw seed
    have hshown : zone.toLocal t < zone.toLocal hit := (ht.lt_iff hz).2.mpr hth
    rcases instantAfter_le hs hc hb (Prod.ext h rfl) htw hbt ht hacc ((ht.lt_iff hz).1.mpr hbt) with
      rfl | ⟨l, hbl, hlt, haccl, hmem⟩
    · exact lt_irrefl _ hth
    · rcases Zone.mem_toUniversal_cases hmem with heq | ⟨hunread, -⟩
      · -- a hit that shows what was found cannot lie after the time on both clocks
        rw [heq] at hshown
        exact lt_asymm hlt hshown
      · exact hgap l hbl hunread haccl hmem t htw ht hlt hshown hacc

/-- Half past two is in the gap of New York on 10 March 2024 and stands for three: on the hour, no
second between them is shown. -/
theorem nextInstant_skips_iff_on_the_hour :
    let rules : List Rule := [.equals .hour "2", .equals .minute "30"]
    let zone := Zone.newYork
    let base : Instant := Time.ofSeconds 1710050400
    let hit : Instant := Time.ofSeconds 1710054000
    let cs := Plan.conditions rules (zone.toLocal base)
    (∀ r ∈ rules, ∀ w ∈ r.ranges, w.InARow) ∧ (fresh cs).Recalls cs ∧ zone.WellSeparated
      ∧ earliest ≤ zone.toLocal base
      ∧ ((fresh cs).nextInstant zone 1000 base none).1 = some hit
      ∧ ((∀ t : Instant, t.IsWhole → zone.ShownOnce t → base < t → t < hit →
          ¬ Accepted cs (zone.toLocal t))
        ↔ ∀ l, zone.toLocal base < l → (∀ r, zone.toLocal r ≠ l) → Accepted cs l →
          hit ∈ zone.toUniversal l →
          ∀ t : Instant, t.IsWhole → zone.ShownOnce t → l < zone.toLocal t →
            zone.toLocal t < zone.toLocal hit → ¬ Accepted cs (zone.toLocal t)) := by
  intro rules zone base hit cs
  have hw : ∀ r ∈ rules, ∀ w ∈ r.ranges, w.InARow := by decide
  have hs : (fresh cs).Recalls cs := recalls_fresh cs
  have hz : zone.WellSeparated := by decide +kernel
  have hb : earliest ≤ zone.toLocal base := by decide +kernel
  have h : ((fresh cs).nextInstant zone 1000 base none).1 = some hit := by decide +kernel
  exact ⟨hw, hs, hz, hb, h, nextInstant_skips_iff hw hs hz hb h⟩

/-- At 45 seconds past half past two the time in the gap stands for 45 seconds past three, and ten
seconds past three, which the list has too, is passed over. -/
theorem nextInstant_skips_past_gap :
    let base : Instant := Time.ofSeconds 1710050400
    let hit : Instant := Time.ofSeconds 1710054045
    let t : Instant := Time.ofSeconds 1710054010
    ∃ e, Expression.parse Zone.recorded "@at [02:30:45, 03:00:10] @tz America/New_York" 1000000
      = .ok e
      ∧ (∀ r ∈ e.rules, r.ranges = []) ∧ (e.zoneOr Zone.utc).WellSeparated
      ∧ ((fresh (Plan.conditions e.rules ((e.zoneOr Zone.utc).toLocal base))).nextInstant
          (e.zoneOr Zone.utc) e.ceiling base none).1 = some hit
      ∧ base < t ∧ t < hit ∧ t.IsWhole ∧ (e.zoneOr Zone.utc).ShownOnce t
      ∧ Accepted (Plan.conditions e.rules ((e.zoneOr Zone.utc).toLocal base))
          ((e.zoneOr Zone.utc).toLocal t) := by
  intro base hit t
  exact exists_ok (by decide +kernel)

end Search

end Recurrence
