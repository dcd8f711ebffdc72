import Recurrence.Expression
import Recurrence.Proofs.Search.Walks
import Recurrence.Proofs.Zone.Readings

/-!
Series of occurrences. Each search leads forward on both clocks, though at a fold their orders
disagree, and so does the whole series.

Main statement: `series_ascends`.
-/

namespace Recurrence

lemma exists_ok {ε α : Type} {x : Except ε α} {p : α → Prop} [DecidablePred p]
    (h : x.toOption.any (fun a => p a) = true) : ∃ a, x = .ok a ∧ p a := by
  cases x with
  | error _ => cases h
  | ok a => exact ⟨a, rfl, of_decide_eq_true h⟩

namespace Search

variable {cs : List Condition} {zone : Zone} {ceiling : Nat} {base hit : Instant}
  {bound : Option Instant} {s s' : Search} {start : LocalTime}

/-- A clock shows a local time that all conditions accept, or the instant stands for such a time in
a gap of the zone. -/
def StandsFor (zone : Zone) (cs : List Condition) (t : Instant) : Prop :=
  Accepted cs (zone.toLocal t)
    ∨ ∃ l, Accepted cs l ∧ (∀ t', zone.toLocal t' ≠ l) ∧ t ∈ zone.toUniversal l

/-- One step of a series: later on both clocks, and before the bound. -/
structure Follows (zone : Zone) (cs : List Condition) (bound : Option Instant)
    (base hit : Instant) : Prop where
  instant : base < hit
  shown : zone.toLocal base < zone.toLocal hit
  bounded : ∀ b ∈ bound, hit < b
  accepted : StandsFor zone cs hit

def again (s : Search) : Search := { s with trace := s.trace.pass }

lemma instantAfter_succ (zone : Zone) (ceiling : Nat) (base : Instant) (bound : Option Instant)
    (passes : Nat) (s : Search) (start : LocalTime) :
    instantAfter zone ceiling base bound (passes + 1) s start
      = match s.again.next start (bound.map zone.toLocal) ceiling with
        | (none, s) => (none, s)
        | (some found, s) =>
          match (zone.toUniversal found).find? fun t => base < t with
          | some hit => if bound.any (· ≤ hit) then (none, s) else (some hit, s)
          | none => instantAfter zone ceiling base bound passes s found := rfl

/-- A pass that succeeds finds a local time that stands for the hit, or one that stands for no
instant after the base and from which the next pass goes on. -/
lemma exists_found {passes : Nat}
    (h : instantAfter zone ceiling base bound (passes + 1) s start = (some hit, s')) :
    ∃ found s₁, s.again.next start (bound.map zone.toLocal) ceiling = (some found, s₁)
      ∧ ((zone.toUniversal found).find? (fun t => base < t) = some hit
          ∧ (∀ b ∈ bound, hit < b)
        ∨ (zone.toUniversal found).find? (fun t => base < t) = none
          ∧ instantAfter zone ceiling base bound passes s₁ found = (some hit, s')) := by
  rw [instantAfter_succ] at h
  split at h
  · cases h
  · rename_i found s₁ hn
    refine ⟨found, s₁, hn, ?_⟩
    split at h
    · rename_i hit' hf
      split_ifs at h with hb
      · cases h
      · cases h
        refine Or.inl ⟨hf, ?_⟩
        rintro b ⟨rfl⟩
        simpa using hb
    · rename_i hf
      exact Or.inr ⟨hf, h⟩

lemma Recalls.again (hs : s.Recalls cs) : s.again.Recalls cs := hs

lemma Recalls.instantAfter (hs : s.Recalls cs) (zone : Zone) (ceiling : Nat) (base : Instant)
    (bound : Option Instant) (passes : Nat) (start : LocalTime) :
    (instantAfter zone ceiling base bound passes s start).2.Recalls cs := by
  induction passes generalizing s start with
  | zero => exact hs
  | succ passes ih =>
    rw [instantAfter_succ]
    have hn := hs.again.next start (bound.map zone.toLocal) ceiling
    split
    · rename_i h
      rw [h] at hn
      exact hn
    · rename_i h
      rw [h] at hn
      split
      · split_ifs <;> exact hn
      · exact ih hn _

lemma follows_of_instantAfter {passes : Nat} (hs : s.Recalls cs) (hb : zone.toLocal base ≤ start)
    (h : instantAfter zone ceiling base bound passes s start = (some hit, s')) :
    Follows zone cs bound base hit := by
  induction passes generalizing s start with
  | zero => cases h
  | succ passes ih =>
    obtain ⟨found, s₁, hn, hf⟩ := exists_found h
    obtain ⟨-, hlt, -, -, hacc⟩ := next_found hs.again hn
    rcases hf with ⟨hf, hbound⟩ | ⟨-, hrest⟩
    · have hbase : base < hit := by simpa using List.find?_some hf
      have hmem := List.mem_of_find?_eq_some hf
      -- the clock shows what was found at the hit, or what was found lies in a gap before it
      rcases Zone.mem_toUniversal_cases hmem with heq | ⟨hgap, hafter⟩
      · exact ⟨hbase,
          by rw [heq]; exact lt_of_le_of_lt hb hlt, hbound, Or.inl (by rw [heq]; exact hacc)⟩
      · exact ⟨hbase, lt_trans (lt_of_le_of_lt hb hlt) hafter, hbound,
          Or.inr ⟨found, hacc, hgap, hmem⟩⟩
    · have hs₁ : s₁.Recalls cs := by
        have := hs.again.next start (bound.map zone.toLocal) ceiling
        rw [hn] at this
        exact this
      exact ih hs₁ (le_trans hb (le_of_lt hlt)) hrest

lemma follows_of_nextInstant (hs : s.Recalls cs)
    (h : s.nextInstant zone ceiling base bound = (some hit, s')) :
    Follows zone cs bound base hit ∧ s'.Recalls cs := by
  have hr := hs.instantAfter zone ceiling base bound maxPasses (zone.toLocal base)
  rw [nextInstant] at h
  rw [h] at hr
  exact ⟨follows_of_instantAfter hs (le_refl _) h, hr⟩

lemma instants_ascend (hs : s.Recalls cs) (zone : Zone) (ceiling : Nat) (bound : Option Instant)
    (count : Nat) (base : Instant) :
    let found := (instants zone ceiling bound count s base).1
    found.length ≤ count
      ∧ (base :: found).Pairwise (fun a b => a < b ∧ zone.toLocal a < zone.toLocal b)
      ∧ ∀ h ∈ found, (∀ b ∈ bound, h < b) ∧ StandsFor zone cs h := by
  induction count generalizing s base with
  | zero => simp [instants]
  | succ count ih =>
    rw [instants]
    split
    · simp
    · rename_i hit s₁ hn
      obtain ⟨hf, hs₁⟩ := follows_of_nextInstant hs hn
      obtain ⟨hlen, hpair, hall⟩ := ih hs₁ hit
      simp only [List.length_cons, List.pairwise_cons, List.mem_cons, forall_eq_or_imp]
      refine ⟨by omega, ⟨⟨⟨hf.instant, hf.shown⟩, fun h hm => ?_⟩, List.pairwise_cons.mp hpair⟩,
        ⟨hf.bounded, hf.accepted⟩, hall⟩
      have hlater := (List.pairwise_cons.mp hpair).1 h hm
      exact ⟨lt_trans hf.instant hlater.1, lt_trans hf.shown hlater.2⟩

end Search

/-- **A series ascends on both clocks.** It has at most `count` instants, all before the bound; each
is later than the base and the ones before it, in universal time and on the wall clock of the zone;
and each shows a time that the plan accepts, or stands for such a time in a gap. -/
theorem series_ascends (rules : List Rule) (zone : Zone) (ceiling : Nat) (base : Instant)
    (count : Nat) (bound : Option Instant) :
    let found := (series rules zone ceiling base count bound).1
    let cs := Plan.conditions rules (zone.toLocal base)
    found.length ≤ count
      ∧ (base :: found).Pairwise (fun a b => a < b ∧ zone.toLocal a < zone.toLocal b)
      ∧ (∀ h ∈ found, ∀ b ∈ bound, h < b)
      ∧ ∀ h ∈ found, Accepted cs (zone.toLocal h)
          ∨ ∃ l, Accepted cs l ∧ (∀ t, zone.toLocal t ≠ l) ∧ h ∈ zone.toUniversal l := by
  intro found cs
  obtain ⟨hlen, hpair, hall⟩ :=
    Search.instants_ascend (Search.recalls_fresh cs) zone ceiling bound count base
  exact ⟨hlen, hpair, fun h hm => (hall h hm).1, fun h hm => (hall h hm).2⟩

end Recurrence
