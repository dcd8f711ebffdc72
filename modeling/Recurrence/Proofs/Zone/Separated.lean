import Recurrence.Proofs.Zone.Readings

/-!
Zones whose changes are far apart. Where the wall clock is not ahead at the later of two instants it
was put back between them, and no other change is near; so both local times are shown twice. A local
time that is shown once separates the instants before it from those after it.

Main statement: `ShownOnce.lt_iff`.
-/

namespace Recurrence

namespace Zone

/-- Two changes in a row are further apart than they move the clock together. -/
def SeparatedFrom (offset : Int) : List (Int × Int) → Prop
  | (t₁, o₁) :: (t₂, o₂) :: rest =>
    (o₁ - offset).natAbs + (o₂ - o₁).natAbs < t₂ - t₁ ∧ SeparatedFrom o₁ ((t₂, o₂) :: rest)
  | _ => True

instance decidableSeparatedFrom : ∀ (offset : Int) (changes : List (Int × Int)),
    Decidable (SeparatedFrom offset changes)
  | _, [] => isTrue trivial
  | _, [_] => isTrue trivial
  | _, (_, o₁) :: (t₂, o₂) :: rest =>
    have := decidableSeparatedFrom o₁ ((t₂, o₂) :: rest)
    inferInstanceAs (Decidable (_ ∧ _))

/-- The changes of the zone are far apart. -/
def WellSeparated (z : Zone) : Prop := SeparatedFrom z.initial z.changes

instance (z : Zone) : Decidable z.WellSeparated := inferInstanceAs (Decidable (SeparatedFrom _ _))

/-- What a clock shows at a second, given the offset before the changes. -/
def shownAt (x offset : Int) (changes : List (Int × Int)) : Int := x + offsetFrom x offset changes

variable {offset t o x y : Int} {rest changes : List (Int × Int)}

lemma shownAt_cons_of_le (h : t ≤ x) : shownAt x offset ((t, o) :: rest) = shownAt x o rest := by
  rw [shownAt, offsetFrom_cons, if_pos h]; rfl

lemma shownAt_cons_of_lt (h : x < t) : shownAt x offset ((t, o) :: rest) = x + offset := by
  rw [shownAt, offsetFrom_cons, if_neg (by omega)]

lemma shownAt_after (hs : SeparatedFrom offset ((t, o) :: rest)) (h : t ≤ y) :
    shownAt y offset ((t, o) :: rest) = y + o
      ∨ t + (o - offset).natAbs + o < shownAt y offset ((t, o) :: rest) := by
  rw [shownAt_cons_of_le h]
  induction rest generalizing offset t o with
  | nil => exact Or.inl rfl
  | cons p rest ih =>
    obtain ⟨t₂, o₂⟩ := p
    obtain ⟨hfar, hrest⟩ := hs
    by_cases h₂ : t₂ ≤ y
    · rw [shownAt_cons_of_le h₂]
      rcases ih hrest h₂ with heq | hlt
      · right; omega
      · right; omega
    · exact Or.inl (shownAt_cons_of_lt (by omega))

lemma shownAt_near (hs : SeparatedFrom offset ((t, o) :: rest)) (h : t ≤ y)
    (hy : y ≤ t + (o - offset).natAbs) : shownAt y offset ((t, o) :: rest) = y + o := by
  rw [shownAt_cons_of_le h]
  cases rest with
  | nil => rfl
  | cons p rest =>
    have := hs.1
    exact shownAt_cons_of_lt (by omega)

/-- **Where the clock is not ahead at the later of two seconds,** all that it shows in between them
is shown twice, no later than the first and no earlier than the second. -/
lemma exists_shown_between {v : Int} (hs : SeparatedFrom offset changes) (hxy : x < y)
    (hy : shownAt y offset changes ≤ v) (hx : v ≤ shownAt x offset changes) :
    ∃ x' ≤ x, ∃ y' ≥ y, shownAt x' offset changes = v ∧ shownAt y' offset changes = v
      ∧ ∀ p ∈ changes.head?, p.1 - (p.2 - offset).natAbs ≤ x' := by
  induction changes generalizing offset with
  | nil => simp only [shownAt, offsetFrom] at hx hy; omega
  | cons p rest ih =>
    obtain ⟨t, o⟩ := p
    have hrest : SeparatedFrom o rest := by
      cases rest with
      | nil => trivial
      | cons p rest => exact hs.2
    simp only [List.head?_cons, Option.mem_def, Option.some.injEq, forall_eq']
    by_cases htx : t ≤ x
    · -- the change lies before both
      rw [shownAt_cons_of_le htx] at hx
      rw [shownAt_cons_of_le (by omega)] at hy
      obtain ⟨x', hxx', y', hyy', hx', hy', hhead⟩ := ih hrest hy hx
      have htx' : t ≤ x' := by
        cases rest with
        | nil => simp only [shownAt, offsetFrom] at hx hy; omega
        | cons p rest =>
          have := hs.1
          have := hhead p rfl
          omega
      refine ⟨x', hxx', y', hyy', ?_, ?_, by omega⟩
      · rw [shownAt_cons_of_le htx', hx']
      · rw [shownAt_cons_of_le (by omega), hy']
    · rw [shownAt_cons_of_lt (by omega)] at hx
      by_cases hty : t ≤ y
      · -- the change lies between them and put the clock back
        have hfy : shownAt y offset ((t, o) :: rest) = y + o := by
          rcases shownAt_after hs hty with heq | hlt
          · exact heq
          · omega
        rw [hfy] at hy
        refine ⟨v - offset, by omega, v - o, by omega, ?_, ?_, by omega⟩
        · rw [shownAt_cons_of_lt (by omega)]; omega
        · rw [shownAt_near hs (by omega) (by omega)]; omega
      · rw [shownAt_cons_of_lt (by omega)] at hy
        omega

variable {z : Zone} {r s : Instant}

/-- No other instant shows the local time. -/
def ShownOnce (z : Zone) (r : Instant) : Prop := ∀ s, z.toLocal s = z.toLocal r → s = r

instance (z : Zone) (r : Instant) : Decidable (z.ShownOnce r) :=
  decidable_of_iff (∀ s ∈ z.instantsOf (z.toLocal r), s = r)
    ⟨fun h s hs => h s (mem_instantsOf.mpr hs), fun h s hs => h s (mem_instantsOf.mp hs)⟩

lemma toLocal_eq (z : Zone) (r : Instant) :
    z.toLocal r = ⟨shownAt r.seconds z.initial z.changes, r.nanos⟩ := rfl

lemma ShownOnce.eq_of_shownAt (h : z.ShownOnce r) {x : Int}
    (hx : shownAt x z.initial z.changes = shownAt r.seconds z.initial z.changes) :
    x = r.seconds := by
  have hs := h ⟨x, r.nanos⟩ (by rw [toLocal_eq, toLocal_eq, hx])
  exact congrArg Time.seconds hs

/-- **A local time that is shown once separates the instants before it from those after it.** -/
theorem ShownOnce.lt_iff (h : z.ShownOnce r) (hz : z.WellSeparated) :
    (z.toLocal s < z.toLocal r ↔ s < r) ∧ (z.toLocal r < z.toLocal s ↔ r < s) := by
  -- were the order not kept, an instant in between would show the time of `r` once more
  have hback : s < r → z.toLocal s < z.toLocal r := by
    intro hlt
    by_contra hle
    rw [toLocal_eq, toLocal_eq, Time.not_lt, Time.le_def] at hle
    rcases Int.lt_or_eq_of_le (Time.seconds_le (le_of_lt hlt)) with hsec | hsec
    · obtain ⟨y, hy, -, -, hshown, -⟩ :=
        exists_shown_between hz hsec (Int.le_refl _) (by simp only at hle; omega)
      have := h.eq_of_shownAt hshown
      omega
    · rw [Time.lt_def] at hlt
      simp only [hsec] at hle
      omega
  have hforth : r < s → z.toLocal r < z.toLocal s := by
    intro hlt
    by_contra hle
    rw [toLocal_eq, toLocal_eq, Time.not_lt, Time.le_def] at hle
    rcases Int.lt_or_eq_of_le (Time.seconds_le (le_of_lt hlt)) with hsec | hsec
    · obtain ⟨-, -, x, hx, -, hshown, -⟩ :=
        exists_shown_between hz hsec (by simp only at hle; omega) (Int.le_refl _)
      have := h.eq_of_shownAt hshown
      omega
    · rw [Time.lt_def] at hlt
      simp only [hsec] at hle
      omega
  rcases lt_trichotomy s r with hlt | rfl | hlt
  · exact ⟨iff_of_true (hback hlt) hlt, iff_of_false (lt_asymm (hback hlt)) (lt_asymm hlt)⟩
  · exact ⟨iff_of_false (lt_irrefl _) (lt_irrefl _), iff_of_false (lt_irrefl _) (lt_irrefl _)⟩
  · exact ⟨iff_of_false (lt_asymm (hforth hlt)) (lt_asymm hlt), iff_of_true (hforth hlt) hlt⟩

end Zone

end Recurrence
