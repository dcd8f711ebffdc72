/-!
Times on a clock. An instant is read from the universal clock, a local time from the clock on a
wall; both count seconds and nanoseconds since the start of 1970 on their own clock, and neither can
be taken for the other. Leap seconds are left out.
-/

namespace Recurrence

/-- The clock that a time is read from. -/
inductive Clock
  | universal
  | wall

/-- A time on a clock: whole seconds since 1970-01-01 00:00:00, and nanoseconds in the second. There
are never more than a second of them: the longer fraction that stands for a leap second is left
out. -/
structure Time (c : Clock) where
  seconds : Int
  nanos : Fin 1000000000
  deriving DecidableEq

abbrev Instant := Time .universal

abbrev LocalTime := Time .wall

namespace Time

variable {c : Clock}

def ofSeconds (s : Int) : Time c := ⟨s, 0⟩

def addSeconds (t : Time c) (s : Int) : Time c := ⟨t.seconds + s, t.nanos⟩

instance : LE (Time c) where
  le s t := s.seconds < t.seconds ∨ s.seconds = t.seconds ∧ s.nanos.val ≤ t.nanos.val

instance : LT (Time c) where
  lt s t := s.seconds < t.seconds ∨ s.seconds = t.seconds ∧ s.nanos.val < t.nanos.val

theorem le_def {s t : Time c} :
    s ≤ t ↔ s.seconds < t.seconds ∨ s.seconds = t.seconds ∧ s.nanos.val ≤ t.nanos.val := Iff.rfl

theorem lt_def {s t : Time c} :
    s < t ↔ s.seconds < t.seconds ∨ s.seconds = t.seconds ∧ s.nanos.val < t.nanos.val := Iff.rfl

instance : DecidableRel (α := Time c) (· ≤ ·) := fun _ _ => decidable_of_iff _ le_def.symm

instance : DecidableRel (α := Time c) (· < ·) := fun _ _ => decidable_of_iff _ lt_def.symm

instance : Min (Time c) := ⟨fun s t => if s ≤ t then s else t⟩

instance : Max (Time c) := ⟨fun s t => if s ≤ t then t else s⟩

theorem eq_iff {s t : Time c} :
    s = t ↔ s.seconds = t.seconds ∧ s.nanos.val = t.nanos.val := by
  cases s; cases t; simp [Fin.ext_iff]

theorem not_lt {s t : Time c} : ¬ s < t ↔ t ≤ s := by
  simp only [lt_def, le_def]; constructor <;> intro <;> omega

theorem le_refl (t : Time c) : t ≤ t := Or.inr ⟨rfl, Nat.le_refl _⟩

theorem le_trans {r s t : Time c} (h₁ : r ≤ s) (h₂ : s ≤ t) : r ≤ t := by
  simp only [le_def] at *; omega

theorem le_total (s t : Time c) : s ≤ t ∨ t ≤ s := by simp only [le_def]; omega

theorem le_antisymm {s t : Time c} (h₁ : s ≤ t) (h₂ : t ≤ s) : s = t := by
  simp only [le_def, eq_iff] at *; omega

theorem lt_addSeconds (t : Time c) {s : Int} (h : 0 < s) : t < t.addSeconds s := by
  simp only [lt_def, addSeconds]; omega

end Time

end Recurrence
