import Recurrence.Proofs.Zone.Separated

/-!
From local time to universal time and on. Where changes are far apart, a local time that is later
than what a clock shows at an instant stands for a later instant too: the clock comes to show it,
again if it has shown it before, or jumps over it, and then it has never shown it and shows none of
the minutes after it earlier.

Main statements: `exists_toUniversal_after` and `gapsWithin_of_jumps`.
-/

namespace Recurrence

namespace Zone

variable {z : Zone} {base : Instant} {l : LocalTime}

/-- No gap is longer than so many minutes: of the minutes after a local time that no clock shows,
one is shown. Gaps of seconds that follow each other so closely that every minute falls into one are
one gap. -/
def GapsWithin (z : Zone) (minutes : Nat) : Prop := ∀ l, (∀ t, z.toLocal t ≠ l) →
  ∃ k, 1 ≤ k ∧ k ≤ minutes ∧ ∃ t, z.toLocal t = l.addSeconds (60 * k)

lemma exists_shown_after (hz : z.WellSeparated) {x s : Int}
    (hs : shownAt s z.initial z.changes < shownAt x z.initial z.changes) :
    ∃ y, s < y ∧ shownAt y z.initial z.changes = shownAt x z.initial z.changes := by
  rcases lt_trichotomy s x with hlt | rfl | hlt
  · exact ⟨x, hlt, rfl⟩
  · omega
  · obtain ⟨-, -, y, hy, -, hshown, -⟩ :=
      exists_shown_between hz hlt (Int.le_of_lt hs) (Int.le_refl _)
    refine ⟨y, ?_, hshown⟩
    have hne : y ≠ s := by
      rintro rfl
      omega
    omega

lemma lt_of_never_shown (hz : z.WellSeparated) {x s v : Int}
    (hv : ∀ y, shownAt y z.initial z.changes ≠ v) (hs : shownAt s z.initial z.changes < v)
    (hx : v < shownAt x z.initial z.changes) : s < x := by
  rcases lt_trichotomy s x with hlt | rfl | hlt
  · exact hlt
  · omega
  · obtain ⟨y, -, -, -, hshown, -⟩ :=
      exists_shown_between hz hlt (Int.le_of_lt hs) (Int.le_of_lt hx)
    exact absurd hshown (hv y)

/-- **A later local time stands for a later instant.** -/
theorem exists_toUniversal_after (hz : z.WellSeparated) (hgap : z.GapsWithin gapMinutes)
    (hb : (z.toLocal base).seconds < l.seconds) : ∃ t ∈ z.toUniversal l, base < t := by
  -- a time that is shown is shown again after the base
  by_cases hl : ∃ t, z.toLocal t = l
  · obtain ⟨t, rfl⟩ := hl
    obtain ⟨y, hy, hshown⟩ := exists_shown_after hz (x := t.seconds) hb
    have hmem : (⟨y, t.nanos⟩ : Instant) ∈ z.instantsOf (z.toLocal t) := by
      rw [mem_instantsOf, toLocal_eq, toLocal_eq, hshown]
    refine ⟨⟨y, t.nanos⟩, ?_, Or.inl hy⟩
    rwa [toUniversal_of_ne_nil (List.ne_nil_of_mem hmem)]
  · have hnone : ∀ t, z.toLocal t ≠ l := fun t ht => hl ⟨t, ht⟩
    have hnever : ∀ y, shownAt y z.initial z.changes ≠ l.seconds := by
      intro y hy
      exact hnone ⟨y, l.nanos⟩ (by rw [toLocal_eq, hy])
    have hempty : z.instantsOf l = [] :=
      List.eq_nil_iff_forall_not_mem.2 fun t ht => hnone t (mem_instantsOf.1 ht)
    -- one that is not is moved on by minutes until it is shown
    obtain ⟨k, hk, hmax, t, ht⟩ := hgap l hnone
    have hsome : ((List.range' 1 gapMinutes).findSome? (z.instantLater? l)).isSome = true := by
      rw [List.findSome?_isSome_iff]
      refine ⟨k, by rw [List.mem_range'_1]; omega, ?_⟩
      rw [instantLater?, List.isSome_head?]
      exact List.ne_nil_of_mem (mem_instantsOf.2 ht)
    obtain ⟨t, ht⟩ := Option.isSome_iff_exists.1 hsome
    refine ⟨t, by rw [toUniversal, hempty, ht]; simp, Or.inl ?_⟩
    obtain ⟨k, hk, hlater⟩ := List.exists_of_findSome?_eq_some ht
    have hshown := mem_instantsOf.1 (List.mem_of_mem_head? hlater)
    have hseconds : shownAt t.seconds z.initial z.changes = l.seconds + 60 * k :=
      congrArg Time.seconds hshown
    rw [List.mem_range'_1] at hk
    exact lt_of_never_shown hz hnever hb (by omega)

/-! ### Gaps of changes -/

/-- No change puts the clock forward by more than so many minutes. -/
def JumpsFrom (minutes : Nat) (offset : Int) : List (Int × Int) → Prop
  | [] => True
  | (_, o) :: rest => o - offset ≤ 60 * minutes ∧ JumpsFrom minutes o rest

instance decidableJumpsFrom (minutes : Nat) : ∀ (offset : Int) (changes : List (Int × Int)),
    Decidable (JumpsFrom minutes offset changes)
  | _, [] => isTrue trivial
  | _, (_, o) :: rest =>
    have := decidableJumpsFrom minutes o rest
    inferInstanceAs (Decidable (_ ∧ _))

/-- No change of the zone puts the clock forward by more than so many minutes. -/
def JumpsWithin (z : Zone) (minutes : Nat) : Prop := JumpsFrom minutes z.initial z.changes

instance (z : Zone) (minutes : Nat) : Decidable (z.JumpsWithin minutes) :=
  inferInstanceAs (Decidable (JumpsFrom _ _ _))

/-- A local time of the minute after a change is shown, or one that is as many minutes later as
there are changes to come. -/
lemma exists_shown_near {offset t o v : Int} {rest : List (Int × Int)}
    (hs : SeparatedFrom offset ((t, o) :: rest)) (ht : t + o ≤ v) (hv : v < t + o + 60) :
    ∃ k ≤ rest.length, ∃ x, t ≤ x ∧ shownAt x offset ((t, o) :: rest) = v + 60 * k := by
  induction rest generalizing offset t o v with
  | nil =>
    refine ⟨0, Nat.le_refl _, v - o, by omega, ?_⟩
    rw [shownAt_cons_of_le (by omega)]
    simp [shownAt, offsetFrom]
  | cons p rest ih =>
    obtain ⟨t₂, o₂⟩ := p
    obtain ⟨hfar, hrest⟩ := hs
    by_cases hbefore : v - o < t₂
    · refine ⟨0, Nat.zero_le _, v - o, by omega, ?_⟩
      rw [shownAt_cons_of_le (by omega), shownAt_cons_of_lt hbefore]
      omega
    -- the next change is less than a minute away, so that neither moves the clock by a minute
    by_cases hafter : t₂ + o₂ ≤ v
    · obtain ⟨k, hk, x, hx, hshown⟩ := ih hrest hafter (by omega)
      exact ⟨k, hk.trans (Nat.le_succ _), x, by omega, by
        rw [shownAt_cons_of_le (by omega), hshown]⟩
    · obtain ⟨k, hk, x, hx, hshown⟩ := ih hrest (v := v + 60) (by omega) (by omega)
      refine ⟨k + 1, Nat.succ_le_succ hk, x, by omega, ?_⟩
      rw [shownAt_cons_of_le (by omega), hshown]
      omega

/-- A local time that has not been shown at `start` is shown from then on or, within the minutes,
one of those after it. -/
lemma exists_shown_later {minutes : Nat} {offset v start : Int} {changes : List (Int × Int)}
    (hs : SeparatedFrom offset changes) (hjumps : JumpsFrom minutes offset changes)
    (hlength : changes.length ≤ minutes) (hstart : start ≤ v - offset)
    (hhead : ∀ p ∈ changes.head?, start ≤ p.1) :
    ∃ k : Nat, k ≤ minutes ∧ ∃ x, start ≤ x ∧ shownAt x offset changes = v + 60 * k := by
  induction changes generalizing offset start with
  | nil => exact ⟨0, by omega, v - offset, hstart, by simp [shownAt, offsetFrom]⟩
  | cons p rest ih =>
    obtain ⟨t, o⟩ := p
    obtain ⟨hjump, hrestJumps⟩ := hjumps
    have htime : start ≤ t := hhead (t, o) rfl
    have hlength : rest.length + 1 ≤ minutes := hlength
    have hrest : SeparatedFrom o rest
        ∧ ∀ p ∈ rest.head?, t + (o - offset).natAbs < p.1 := by
      cases rest with
      | nil => exact ⟨trivial, by simp⟩
      | cons p rest =>
        have := hs.1
        exact ⟨hs.2, by rintro _ ⟨⟩; omega⟩
    by_cases hbefore : v - offset < t
    · refine ⟨0, by omega, v - offset, hstart, ?_⟩
      rw [shownAt_cons_of_lt hbefore]
      omega
    by_cases hafter : t ≤ v - o
    · obtain ⟨k, hk, x, hx, hshown⟩ := ih hrest.1 hrestJumps (by omega) hafter
        fun p hp => by have := hrest.2 p hp; omega
      exact ⟨k, hk, x, by omega, by rw [shownAt_cons_of_le hx, hshown]⟩
    by_cases hminute : o - offset < 60
    · -- the change moves the clock over less than a minute, to the minute after it
      obtain ⟨k, hk, x, hx, hshown⟩ := exists_shown_near hs (v := v + 60) (by omega) (by omega)
      refine ⟨k + 1, by omega, x, by omega, ?_⟩
      rw [hshown]
      omega
    · -- the change puts the clock forward over the time, and no other is near
      obtain ⟨k, hk⟩ : ∃ k : Nat, (k : Int) = (t + o - v + 59) / 60 :=
        ⟨((t + o - v + 59) / 60).toNat, Int.toNat_of_nonneg (by omega)⟩
      refine ⟨k, by omega, v + 60 * k - o, by omega, ?_⟩
      rw [shownAt_near hs (by omega) (by omega)]
      omega

/-- **No gap is longer than a change puts the clock forward.** Only as many changes as there are
minutes could make gaps of seconds into one of that many minutes. -/
theorem gapsWithin_of_jumps {minutes : Nat} (hz : z.WellSeparated) (h : z.JumpsWithin minutes)
    (hlength : z.changes.length ≤ minutes) : z.GapsWithin minutes := by
  intro l hnone
  obtain ⟨start, hstart, hhead⟩ : ∃ start, start ≤ l.seconds - z.initial
      ∧ ∀ p ∈ z.changes.head?, start ≤ p.1 := by
    cases z.changes with
    | nil => exact ⟨_, Int.le_refl _, by simp⟩
    | cons p rest =>
      refine ⟨min (l.seconds - z.initial) p.1, Int.min_le_left .., ?_⟩
      rintro _ ⟨⟩
      exact Int.min_le_right ..
  obtain ⟨k, hk, x, -, hshown⟩ := exists_shown_later hz h hlength hstart hhead
  have hlater : z.toLocal ⟨x, l.nanos⟩ = l.addSeconds (60 * k) := by
    rw [toLocal_eq, hshown]
    rfl
  refine ⟨k, ?_, hk, _, hlater⟩
  rcases Nat.eq_zero_or_pos k with rfl | hpos
  · exact absurd (by simpa [Time.addSeconds] using hlater) (hnone _)
  · exact hpos

end Zone

end Recurrence
