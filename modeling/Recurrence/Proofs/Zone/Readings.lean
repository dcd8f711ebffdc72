import Mathlib.Tactic.ByContra
import Mathlib.Tactic.Lemma
import Recurrence.Zone.Basic
import Recurrence.Proofs.Calendar.TimeOrder

/-!
Readings of a wall clock. The instants that a local time stands for are those at which a clock shows
it; where there is none the clock was put forward over it, and it stands for an instant at which a
clock shows a later time.

Main statements: `mem_instantsOf` and `mem_toUniversal_cases`.
-/

namespace Recurrence

namespace Zone

lemma offsetFrom_cons (s offset start next : Int) (rest : List (Int × Int)) :
    offsetFrom s offset ((start, next) :: rest)
      = if start ≤ s then offsetFrom s next rest else offset := rfl

/-- **The readings of a local second are the seconds that show it.** -/
theorem mem_readings {changes : List (Int × Int)} (hc : changes.Pairwise fun a b => a.1 ≤ b.1)
    {start : Option Int} (hs : ∀ a ∈ start, ∀ p ∈ changes, a ≤ p.1) (l offset x : Int) :
    x ∈ readings l start offset changes
      ↔ (∀ a ∈ start, a ≤ x) ∧ x + offsetFrom x offset changes = l := by
  induction changes generalizing start offset with
  | nil =>
    have hm : x ∈ readings l start offset [] ↔ (∀ a ∈ start, a ≤ l - offset) ∧ x = l - offset := by
      cases start <;> simp [readings, apply_ite (x ∈ ·)]
    rw [hm, offsetFrom]
    constructor
    · rintro ⟨h, rfl⟩
      exact ⟨h, by omega⟩
    · rintro ⟨h, hx⟩
      obtain rfl : x = l - offset := by omega
      exact ⟨h, rfl⟩
  | cons p rest ih =>
    obtain ⟨change, next⟩ := p
    rw [List.pairwise_cons] at hc
    have hafter : ∀ a ∈ some change, ∀ p ∈ rest, a ≤ p.1 := by simpa using hc.1
    have htail := ih hc.2 hafter next
    have hhead :
        x ∈ (if start.all (· ≤ l - offset) && l - offset < change then [l - offset] else [])
        ↔ (∀ a ∈ start, a ≤ l - offset) ∧ l - offset < change ∧ x = l - offset := by
      cases start <;> simp [apply_ite (x ∈ ·), and_assoc]
    rw [readings, List.mem_append, hhead, htail, offsetFrom_cons]
    simp only [Option.mem_def, Option.some.injEq, forall_eq']
    split
    · -- after the change only the later readings count
      rename_i hle
      have hstart : ∀ a ∈ start, a ≤ x := fun a ha => le_trans (hs a ha _ List.mem_cons_self) hle
      constructor
      · rintro (⟨-, h₁, h₂⟩ | ⟨-, h⟩)
        · omega
        · exact ⟨hstart, h⟩
      · rintro ⟨-, h⟩
        exact Or.inr ⟨hle, h⟩
    · rename_i hlt
      constructor
      · rintro (⟨h₁, h₂, rfl⟩ | ⟨h, -⟩)
        · exact ⟨h₁, by omega⟩
        · omega
      · rintro ⟨h, hx⟩
        obtain rfl : x = l - offset := by omega
        exact Or.inl ⟨h, by omega, rfl⟩

lemma pairwise_readings {changes : List (Int × Int)}
    (hc : changes.Pairwise fun a b => a.1 ≤ b.1) {start : Option Int}
    (hs : ∀ a ∈ start, ∀ p ∈ changes, a ≤ p.1) (l offset : Int) :
    (readings l start offset changes).Pairwise (· < ·) := by
  induction changes generalizing start offset with
  | nil => rw [readings]; split <;> simp
  | cons p rest ih =>
    obtain ⟨change, next⟩ := p
    rw [List.pairwise_cons] at hc
    have hafter : ∀ a ∈ some change, ∀ p ∈ rest, a ≤ p.1 := by simpa using hc.1
    rw [readings, List.pairwise_append]
    refine ⟨by split <;> simp, ih hc.2 hafter next, ?_⟩
    intro x hx y hy
    have hlt : x < change := by
      split at hx
      · rename_i h
        simp only [Bool.and_eq_true, decide_eq_true_eq] at h
        rw [List.mem_singleton.mp hx]
        exact h.2
      · cases hx
    exact lt_of_lt_of_le hlt (((mem_readings hc.2 hafter l next y).mp hy).1 change rfl)

variable {z : Zone} {l : LocalTime} {t : Instant}

/-- **The instants of a local time are those at which a clock shows it.** -/
theorem mem_instantsOf : t ∈ z.instantsOf l ↔ z.toLocal t = l := by
  have hm : ∀ x : Int, x ∈ readings l.seconds none z.initial z.changes
      ↔ x + z.offsetAt x = l.seconds := by
    intro x
    rw [mem_readings z.ordered (by simp)]
    simp [offsetAt]
  simp only [instantsOf, List.mem_map, hm]
  constructor
  · rintro ⟨x, hx, rfl⟩
    rw [toLocal, hx]
  · rintro rfl
    exact ⟨t.seconds, rfl, rfl⟩

/-- **The instants of a local time come in order.** -/
theorem pairwise_instantsOf (z : Zone) (l : LocalTime) : (z.instantsOf l).Pairwise (· < ·) := by
  rw [instantsOf, List.pairwise_map]
  exact (pairwise_readings z.ordered (by simp) l.seconds z.initial).imp fun h => Or.inl h

/-- What a local time stands for shows it, or shows a later time where none shows it. -/
theorem mem_toUniversal_cases (h : t ∈ z.toUniversal l) :
    z.toLocal t = l ∨ (∀ t', z.toLocal t' ≠ l) ∧ l < z.toLocal t := by
  unfold toUniversal at h
  split at h
  · rename_i hn
    right
    refine ⟨fun t' ht' => ?_, ?_⟩
    · have := mem_instantsOf.mpr ht'
      rw [hn] at this
      cases this
    · rw [Option.mem_toList] at h
      obtain ⟨k, hk, hlater⟩ := List.exists_of_findSome?_eq_some h
      rw [List.mem_range'_1] at hk
      rw [mem_instantsOf.mp (List.mem_of_mem_head? hlater)]
      exact l.lt_addSeconds (by omega)
  · exact Or.inl (mem_instantsOf.mp h)

end Zone

end Recurrence
