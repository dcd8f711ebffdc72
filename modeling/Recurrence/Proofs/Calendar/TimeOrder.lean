import Mathlib.Order.Defs.LinearOrder
import Mathlib.Order.MinMax
import Mathlib.Tactic.Lemma
import Recurrence.Calendar.Time

/-!
The order of times on one clock as a linear order. Searches look at whole seconds only, and whole
seconds compare as numbers do.
-/

namespace Recurrence

namespace Time

variable {c : Clock} {s t : Time c}

instance : LinearOrder (Time c) where
  le_refl := le_refl
  le_trans _ _ _ := le_trans
  le_antisymm _ _ := le_antisymm
  le_total := le_total
  toDecidableLE := inferInstance
  toDecidableLT := inferInstance
  lt_iff_le_not_ge s t := by
    simp only [lt_def, le_def]; omega

/-- No part of a second has passed. -/
def IsWhole (t : Time c) : Prop := t.nanos.val = 0

instance : Decidable t.IsWhole := inferInstanceAs (Decidable (t.nanos.val = 0))

@[simp] lemma isWhole_ofSeconds (n : Int) : (ofSeconds n : Time c).IsWhole := rfl

@[simp] lemma seconds_ofSeconds (n : Int) : (ofSeconds n : Time c).seconds = n := rfl

@[simp] lemma seconds_addSeconds (n : Int) : (t.addSeconds n).seconds = t.seconds + n := rfl

lemma IsWhole.addSeconds (h : t.IsWhole) (n : Int) : (t.addSeconds n).IsWhole := h

lemma IsWhole.eq_ofSeconds (h : t.IsWhole) : t = ofSeconds t.seconds := by
  obtain ⟨n, f⟩ := t
  exact congrArg _ (Fin.ext h)

lemma IsWhole.lt_iff (ht : t.IsWhole) : s < t ↔ s.seconds < t.seconds := by
  unfold IsWhole at ht
  rw [lt_def]; omega

lemma IsWhole.le_iff (hs : s.IsWhole) : s ≤ t ↔ s.seconds ≤ t.seconds := by
  unfold IsWhole at hs
  rw [le_def]; omega

lemma seconds_le (h : s ≤ t) : s.seconds ≤ t.seconds := by
  rw [le_def] at h; omega

lemma seconds_max (s t : Time c) : (max s t).seconds = max s.seconds t.seconds := by
  rcases le_total s t with h | h
  · rw [max_eq_right h, max_eq_right (seconds_le h)]
  · rw [max_eq_left h, max_eq_left (seconds_le h)]

/-- The first whole second after a time. -/
lemma lt_iff_le_of_isWhole (ht : t.IsWhole) : s < t ↔ ofSeconds (s.seconds + 1) ≤ t := by
  rw [ht.lt_iff, IsWhole.le_iff (isWhole_ofSeconds _), seconds_ofSeconds]; omega

end Time

end Recurrence
