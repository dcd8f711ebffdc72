import Mathlib.Data.List.Sort
import Recurrence.Proofs.Zone.Crossings
import Recurrence.Zone.Offsets

/-!
The crossing from local to universal time, told by the changes of a zone. A change that puts the
clock forward skips the local times that the clock jumps over, one that puts it back repeats those
that it shows again; every other local time is shown once. A skipped time stands for the first of
the minutes after it that is shown, which is less than a minute past the change.

The last part needs more than changes further apart than they move the clock. Gaps of ten seconds
can follow each other so closely that the minute after a time in the first lies in the third; the
minute after a gap that is shorter than it has to be free of other changes.

Main statements: `stands_of_mem`, `never_shown_iff`, `shown_twice_iff` and `toUniversal_exact`.
-/

namespace Recurrence

namespace Zone

/-- A change of the clock: the second of universal time at which it comes, and the offsets before
and after it. -/
structure Move where
  start : Int
  before : Int
  after : Int
  deriving DecidableEq

namespace Move

/-- The seconds that the change moves the clock, forward or back. -/
def size (m : Move) : Int := (m.after - m.before).natAbs

/-- The change puts the clock forward over the local time. -/
def Skips (m : Move) (l : LocalTime) : Prop :=
  m.start + m.before ≤ l.seconds ∧ l.seconds < m.start + m.after

/-- The change puts the clock back to before the local time, which it has shown already. -/
def Repeats (m : Move) (l : LocalTime) : Prop :=
  m.start + m.after ≤ l.seconds ∧ l.seconds < m.start + m.before

instance (m : Move) (l : LocalTime) : Decidable (m.Skips l) := inferInstanceAs (Decidable (_ ∧ _))

instance (m : Move) (l : LocalTime) : Decidable (m.Repeats l) := inferInstanceAs (Decidable (_ ∧ _))

end Move

def movesFrom (offset : Int) : List (Int × Int) → List Move
  | [] => []
  | (t, o) :: rest => ⟨t, offset, o⟩ :: movesFrom o rest

def moves (z : Zone) : List Move := movesFrom z.initial z.changes

/-- After a gap of less than a minute comes a minute without a change, and as much again as the next
change moves the clock. -/
def SettlesFrom (offset : Int) : List (Int × Int) → Prop
  | (t₁, o₁) :: (t₂, o₂) :: rest =>
    (offset < o₁ → o₁ < offset + 60 → t₁ + 60 + (o₂ - o₁).natAbs ≤ t₂)
      ∧ SettlesFrom o₁ ((t₂, o₂) :: rest)
  | _ => True

instance decidableSettlesFrom : ∀ (offset : Int) (changes : List (Int × Int)),
    Decidable (SettlesFrom offset changes)
  | _, [] => isTrue trivial
  | _, [_] => isTrue trivial
  | _, (_, o₁) :: (t₂, o₂) :: rest =>
    have := decidableSettlesFrom o₁ ((t₂, o₂) :: rest)
    inferInstanceAs (Decidable (_ ∧ _))

/-- No other change is near the gaps of the zone that are shorter than a minute. -/
def Settles (z : Zone) : Prop := SettlesFrom z.initial z.changes

instance (z : Zone) : Decidable z.Settles := inferInstanceAs (Decidable (SettlesFrom _ _))

variable {offset t o x v : Int} {rest changes : List (Int × Int)} {m : Move}

lemma SeparatedFrom.tail (hs : SeparatedFrom offset ((t, o) :: rest)) : SeparatedFrom o rest := by
  cases rest with
  | nil => trivial
  | cons p rest => exact hs.2

lemma SettlesFrom.tail (hs : SettlesFrom offset ((t, o) :: rest)) : SettlesFrom o rest := by
  cases rest with
  | nil => trivial
  | cons p rest => exact hs.2

lemma lt_start_of_mem (hs : SeparatedFrom offset ((t, o) :: rest)) (hm : m ∈ movesFrom o rest) :
    t + (o - offset).natAbs + m.size < m.start := by
  induction rest generalizing offset t o with
  | nil => cases hm
  | cons p rest ih =>
    obtain ⟨t₂, o₂⟩ := p
    have hfar := hs.1
    rcases List.mem_cons.mp hm with rfl | hm
    · simp only [Move.size]
      omega
    · have := ih hs.tail hm
      omega

/-! ### Near one change -/

/-- What a clock shows before and after one of its changes: it runs on for as long as the change
moves it, and further away it shows nothing of what the change moves it over. -/
structure Move.Stands (m : Move) (shown : Int → Int) : Prop where
  earlier : ∀ x < m.start, shown x = x + m.before ∨ shown x + m.size < m.start + m.before
  justBefore : ∀ x < m.start, m.start - m.size ≤ x → shown x = x + m.before
  later : ∀ x ≥ m.start, shown x = x + m.after ∨ m.start + m.size + m.after < shown x
  justAfter : ∀ x ≥ m.start, x ≤ m.start + m.size → shown x = x + m.after

/-- **Changes that are far apart can be looked at one by one.** -/
theorem stands_of_mem (hs : SeparatedFrom offset changes) (hm : m ∈ movesFrom offset changes) :
    m.Stands fun x => shownAt x offset changes := by
  induction changes generalizing offset with
  | nil => cases hm
  | cons p rest ih =>
    obtain ⟨t, o⟩ := p
    rcases List.mem_cons.mp hm with rfl | hm
    · exact {
        earlier := fun x hx => Or.inl (shownAt_cons_of_lt hx)
        justBefore := fun x hx _ => shownAt_cons_of_lt hx
        later := fun x hx => shownAt_after hs hx
        justAfter := fun x hx hnear => shownAt_near hs hx hnear }
    have hfar := lt_start_of_mem hs hm
    have hstands := ih hs.tail hm
    have hafter : ∀ x ≥ t, shownAt x offset ((t, o) :: rest) = shownAt x o rest :=
      fun x hx => shownAt_cons_of_le hx
    refine ⟨fun x hx => ?_, fun x hx hnear => ?_, fun x hx => ?_, fun x hx hnear => ?_⟩
    · by_cases htx : t ≤ x
      · simpa only [hafter x htx] using hstands.earlier x hx
      -- before both changes the clock shows what it would show, without the first, at another
      -- second
      have hrest : shownAt (x + offset - o) o rest = x + offset := by
        cases rest with
        | nil => cases hm
        | cons p rest =>
          have := hs.1
          rw [shownAt_cons_of_lt (by omega)]
          omega
      simp only [shownAt_cons_of_lt (not_le.mp htx)]
      rcases hstands.earlier (x + offset - o) (by simp only [Move.size] at hfar; omega) with h | h
      · simp only [hrest] at h
        right
        omega
      · simp only [hrest] at h
        exact Or.inr h
    · simpa only [hafter x (by omega)] using hstands.justBefore x hx hnear
    · have : 0 ≤ m.size := Int.natCast_nonneg _
      simpa only [hafter x (by omega)] using hstands.later x hx
    · have : 0 ≤ m.size := Int.natCast_nonneg _
      simpa only [hafter x (by omega)] using hstands.justAfter x hx hnear

namespace Move.Stands

variable {shown : Int → Int} {l : LocalTime}

lemma ne_of_skips (h : m.Stands shown) (hl : m.Skips l) (x : Int) : shown x ≠ l.seconds := by
  obtain ⟨hlow, hhigh⟩ := hl
  have hsize : 0 ≤ m.size := Int.natCast_nonneg _
  rcases lt_or_ge x m.start with hx | hx
  · rcases h.earlier x hx with heq | hlt <;> omega
  · rcases h.later x hx with heq | hlt <;> omega

/-- A repeated time is shown as long before the change as after it, and at no third second. -/
lemma shown_iff_of_repeats (h : m.Stands shown) (hl : m.Repeats l) (x : Int) :
    shown x = l.seconds ↔ x = l.seconds - m.before ∨ x = l.seconds - m.after := by
  obtain ⟨hlow, hhigh⟩ := hl
  have hsize : m.size = m.before - m.after := by
    unfold size
    omega
  constructor
  · intro hx
    rcases lt_or_ge x m.start with hlt | hge
    · rcases h.earlier x hlt with heq | hfar <;> omega
    · rcases h.later x hge with heq | hfar <;> omega
  · rintro (rfl | rfl)
    · rw [h.justBefore _ (by omega) (by omega)]
      omega
    · rw [h.justAfter _ (by omega) (by omega)]
      omega

end Move.Stands

/-! ### Every local time -/

variable {y : Int}

lemma exists_repeats {l : LocalTime} (hs : SeparatedFrom offset changes) (hxy : x < y)
    (hx : shownAt x offset changes = l.seconds) (hy : shownAt y offset changes = l.seconds) :
    ∃ m ∈ movesFrom offset changes, m.Repeats l := by
  induction changes generalizing offset with
  | nil =>
    simp only [shownAt, offsetFrom] at hx hy
    omega
  | cons p rest ih =>
    obtain ⟨t, o⟩ := p
    by_cases htx : t ≤ x
    · rw [shownAt_cons_of_le htx] at hx
      rw [shownAt_cons_of_le (by omega)] at hy
      obtain ⟨m, hm, hl⟩ := ih hs.tail hx hy
      exact ⟨m, List.mem_cons_of_mem _ hm, hl⟩
    rw [shownAt_cons_of_lt (by omega)] at hx
    by_cases hty : t ≤ y
    · refine ⟨_, List.mem_cons_self, ?_, ?_⟩
      · rcases shownAt_after hs hty with heq | hlt <;> simp only <;> omega
      · simp only
        omega
    · rw [shownAt_cons_of_lt (by omega)] at hy
      omega

lemma exists_shown_or_skips (hs : SeparatedFrom offset changes) (l : LocalTime) :
    (∃ x, shownAt x offset changes = l.seconds) ∨ ∃ m ∈ movesFrom offset changes, m.Skips l := by
  induction changes generalizing offset with
  | nil =>
    refine Or.inl ⟨l.seconds - offset, ?_⟩
    simp only [shownAt, offsetFrom]
    omega
  | cons p rest ih =>
    obtain ⟨t, o⟩ := p
    by_cases hbefore : l.seconds < t + offset
    · refine Or.inl ⟨l.seconds - offset, ?_⟩
      rw [shownAt_cons_of_lt (by omega)]
      omega
    by_cases hskips : l.seconds < t + o
    · exact Or.inr ⟨_, List.mem_cons_self, not_lt.mp hbefore, hskips⟩
    rcases ih hs.tail with ⟨x, hx⟩ | ⟨m, hm, hl⟩
    · refine Or.inl ⟨x, ?_⟩
      by_cases htx : t ≤ x
      · rw [shownAt_cons_of_le htx, hx]
      -- the clock without the change has not come so far before it
      have hrest : shownAt x o rest = x + o := by
        cases rest with
        | nil => rfl
        | cons p rest =>
          have := hs.1
          exact shownAt_cons_of_lt (by omega)
      omega
    · exact Or.inr ⟨m, List.mem_cons_of_mem _ hm, hl⟩

/-- For a minute after a gap the clock runs on, and what it shows then it shows at no later
second. -/
lemma shownAt_minute (hs : SeparatedFrom offset changes) (hq : SettlesFrom offset changes)
    (hm : m ∈ movesFrom offset changes) (hgap : m.before < m.after) (hx : m.start ≤ x) :
    (x < m.start + 60 → shownAt x offset changes = x + m.after)
      ∧ (shownAt x offset changes = x + m.after
        ∨ m.start + 60 + m.after ≤ shownAt x offset changes) := by
  induction changes generalizing offset with
  | nil => cases hm
  | cons p rest ih =>
    obtain ⟨t, o⟩ := p
    rcases List.mem_cons.mp hm with rfl | hm
    · simp only at hgap hx ⊢
      rw [shownAt_cons_of_le hx]
      cases rest with
      | nil => exact ⟨fun _ => rfl, Or.inl rfl⟩
      | cons p rest =>
        obtain ⟨t₂, o₂⟩ := p
        have hfar : t + 60 + (o₂ - o).natAbs ≤ t₂ := by
          have hfar := hs.1
          have hquiet := hq.1
          omega
        by_cases hlate : t₂ ≤ x
        · refine ⟨fun _ => by omega, Or.inr ?_⟩
          rcases shownAt_after hs.tail hlate with heq | hlt <;> omega
        · have heq : shownAt x o ((t₂, o₂) :: rest) = x + o := shownAt_cons_of_lt (not_le.mp hlate)
          exact ⟨fun _ => heq, Or.inl heq⟩
    · have hfar := lt_start_of_mem hs hm
      have hsize : 0 ≤ m.size := Int.natCast_nonneg _
      rw [shownAt_cons_of_le (by omega)]
      exact ih hs.tail hq.tail hm

lemma after_le_of_mem {minutes : Nat} (hj : JumpsFrom minutes offset changes)
    (hm : m ∈ movesFrom offset changes) : m.after - m.before ≤ 60 * minutes := by
  induction changes generalizing offset with
  | nil => cases hm
  | cons p rest ih =>
    rcases List.mem_cons.mp hm with rfl | hm
    · exact hj.1
    · exact ih hj.2 hm

variable {z : Zone} {l : LocalTime}

lemma toLocal_eq_iff {u : Instant} :
    z.toLocal u = l ↔ shownAt u.seconds z.initial z.changes = l.seconds ∧ u.nanos = l.nanos := by
  rw [toLocal_eq]
  obtain ⟨s, n⟩ := l
  simp

lemma never_shown_of_skips (hz : z.WellSeparated) (hm : m ∈ z.moves) (hl : m.Skips l)
    (u : Instant) :
    z.toLocal u ≠ l := fun hu =>
  (stands_of_mem hz hm).ne_of_skips hl u.seconds (toLocal_eq_iff.mp hu).1

/-- **A local time is never shown exactly if a change skips it.** -/
theorem never_shown_iff (hz : z.WellSeparated) (l : LocalTime) :
    (∀ u, z.toLocal u ≠ l) ↔ ∃ m ∈ z.moves, m.Skips l := by
  constructor
  · intro hnever
    refine (exists_shown_or_skips hz l).resolve_left ?_
    rintro ⟨x, hx⟩
    exact hnever ⟨x, l.nanos⟩ (toLocal_eq_iff.mpr ⟨hx, rfl⟩)
  · rintro ⟨m, hm, hl⟩
    exact never_shown_of_skips hz hm hl

/-- **A repeated local time stands for two instants,** one on either side of the change. -/
theorem toUniversal_of_repeats (hz : z.WellSeparated) (hm : m ∈ z.moves) (hl : m.Repeats l) :
    z.toUniversal l = [⟨l.seconds - m.before, l.nanos⟩, ⟨l.seconds - m.after, l.nanos⟩] := by
  have hshown := (stands_of_mem hz hm).shown_iff_of_repeats hl
  have hmem : ∀ u : Instant, u ∈ z.instantsOf l
      ↔ u ∈ [(⟨l.seconds - m.before, l.nanos⟩ : Instant), ⟨l.seconds - m.after, l.nanos⟩] := by
    rintro ⟨s, n⟩
    rw [mem_instantsOf, toLocal_eq_iff, hshown]
    simp only [List.mem_cons, Time.mk.injEq, List.not_mem_nil, or_false, or_and_right]
  have hpair :
      [(⟨l.seconds - m.before, l.nanos⟩ : Instant), ⟨l.seconds - m.after, l.nanos⟩].Pairwise
      (· < ·) := by
    obtain ⟨hlow, hhigh⟩ := hl
    simp only [List.pairwise_cons, List.mem_singleton, forall_eq, List.not_mem_nil, false_implies,
      implies_true, List.Pairwise.nil, and_true]
    exact Or.inl (by simp only; omega)
  have heq := (pairwise_instantsOf z l).eq_of_mem_iff hpair hmem
  rw [toUniversal_of_ne_nil (by rw [heq]; exact List.cons_ne_nil _ _), heq]

/-- **A local time is shown twice exactly if a change repeats it.** -/
theorem shown_twice_iff (hz : z.WellSeparated) (l : LocalTime) :
    (∃ s u : Instant, s < u ∧ z.toLocal s = l ∧ z.toLocal u = l) ↔ ∃ m ∈ z.moves, m.Repeats l := by
  constructor
  · rintro ⟨s, u, hlt, hs, hu⟩
    rw [toLocal_eq_iff] at hs hu
    have hseconds : s.seconds < u.seconds := by
      rw [Time.lt_def, hs.2, hu.2] at hlt
      omega
    exact exists_repeats hz hseconds hs.1 hu.1
  · rintro ⟨m, hm, hl⟩
    have hshown := (stands_of_mem hz hm).shown_iff_of_repeats hl
    obtain ⟨hlow, hhigh⟩ := hl
    refine ⟨⟨l.seconds - m.before, l.nanos⟩, ⟨l.seconds - m.after, l.nanos⟩,
      Or.inl (by simp only; omega), ?_, ?_⟩
    · exact toLocal_eq_iff.mpr ⟨(hshown _).mpr (Or.inl rfl), rfl⟩
    · exact toLocal_eq_iff.mpr ⟨(hshown _).mpr (Or.inr rfl), rfl⟩

/-! ### Skipped times -/

/-- What a skipped time stands for: the instant at which a clock shows the time `k` minutes later,
of which it shows none before, in the minute after the change. -/
structure Move.Forwards (z : Zone) (m : Move) (l : LocalTime) (k : Nat) (u : Instant) : Prop where
  pos : 1 ≤ k
  shown : z.toLocal u = l.addSeconds (60 * k)
  once : ∀ s, z.toLocal s = l.addSeconds (60 * k) → s = u
  least : ∀ j : Nat, 1 ≤ j → j < k → ∀ s, z.toLocal s ≠ l.addSeconds (60 * j)
  notBefore : Time.ofSeconds m.start ≤ u
  within : u < Time.ofSeconds (m.start + 60)

/-- A skipped time moves forward by as many minutes as the change has left of it, begun ones
counted. -/
lemma exists_forwards (hz : z.WellSeparated) (hq : z.Settles) (hm : m ∈ z.moves) (hl : m.Skips l) :
    ∃ (k : Nat) (u : Instant), 60 * k < m.after - m.before + 60 ∧ Move.Forwards z m l k u := by
  have hskips := hl
  obtain ⟨hlow, hhigh⟩ := hl
  -- the whole minutes, rounded up, that lead from the local time out of the gap
  obtain ⟨k, hk⟩ : ∃ k : Nat, (k : Int) = (m.start + m.after - l.seconds + 59) / 60 :=
    ⟨((m.start + m.after - l.seconds + 59) / 60).toNat, Int.toNat_of_nonneg (by omega)⟩
  have hstands := stands_of_mem hz hm
  -- within a minute of the change the offset after it is in force
  have hminute := fun x => shownAt_minute (x := x) hz hq hm (by omega)
  obtain ⟨x, hx⟩ : ∃ x, x = l.seconds + 60 * k - m.after := ⟨_, rfl⟩
  have hshown := (hminute x (by omega)).1 (by omega)
  refine ⟨k, ⟨x, l.nanos⟩, by omega, by omega, ?_, ?_, ?_, ?_, ?_⟩
  · refine toLocal_eq_iff.mpr ⟨?_, rfl⟩
    rw [hshown, Time.seconds_addSeconds]
    omega
  -- no other instant shows that time: those before the change stay too far back
  · intro s hs
    rw [toLocal_eq_iff, Time.seconds_addSeconds] at hs
    obtain ⟨hsame, hnanos⟩ := hs
    have hseconds : s.seconds = x := by
      have hsize : 0 ≤ m.size := Int.natCast_nonneg _
      rcases lt_or_ge s.seconds m.start with hlt | hge
      · rcases hstands.earlier _ hlt with heq | hfar <;> omega
      · rcases (hminute _ hge).2 with heq | hfar <;> omega
    exact Time.eq_iff.mpr ⟨hseconds, congrArg Fin.val hnanos⟩
  -- and the minutes before are still in the gap
  · intro j hj hjk
    refine never_shown_of_skips hz hm ⟨?_, ?_⟩
    · rw [Time.seconds_addSeconds]
      omega
    · rw [Time.seconds_addSeconds]
      omega
  · rw [Time.IsWhole.le_iff (Time.isWhole_ofSeconds _), Time.seconds_ofSeconds]
    simp only
    omega
  · rw [Time.IsWhole.lt_iff (Time.isWhole_ofSeconds _), Time.seconds_ofSeconds]
    simp only
    omega

lemma instantsOf_eq_nil (h : ∀ u, z.toLocal u ≠ l) : z.instantsOf l = [] :=
  List.eq_nil_iff_forall_not_mem.mpr fun u hu => h u (mem_instantsOf.mp hu)

lemma Move.Forwards.toUniversal_eq {k : Nat} {u : Instant} (h : Move.Forwards z m l k u)
    (hnever : ∀ u, z.toLocal u ≠ l) (hk : k ≤ gapMinutes) : z.toUniversal l = [u] := by
  have hfirst : z.instantLater? l k = some u := by
    have hmem : ∀ s, s ∈ z.instantsOf (l.addSeconds (60 * k)) ↔ s ∈ [u] := by
      intro s
      rw [mem_instantsOf, List.mem_singleton]
      exact ⟨h.once s, fun hs => hs ▸ h.shown⟩
    rw [instantLater?, (pairwise_instantsOf z _).eq_of_mem_iff (List.pairwise_singleton _ _) hmem]
    rfl
  have hnone : ∀ j ∈ List.range' 1 (k - 1), z.instantLater? l j = none := by
    intro j hj
    rw [List.mem_range'_1] at hj
    rw [instantLater?, instantsOf_eq_nil (h.least j hj.1 (by omega))]
    rfl
  have hsome : (List.range' 1 gapMinutes).findSome? (z.instantLater? l) = some u := by
    have hpos := h.pos
    rw [List.findSome?_eq_some_iff]
    refine ⟨List.range' 1 (k - 1), k, List.range' (k + 1) (gapMinutes - k), ?_, hfirst, hnone⟩
    have hsplit : List.range' 1 (k - 1) ++ List.range' (1 + 1 * (k - 1)) (gapMinutes - k + 1)
        = List.range' 1 (k - 1 + (gapMinutes - k + 1)) := List.range'_append
    rw [List.range'_succ, show 1 + 1 * (k - 1) = k by omega,
      show k - 1 + (gapMinutes - k + 1) = gapMinutes by omega] at hsplit
    exact hsplit.symm
  rw [toUniversal, instantsOf_eq_nil hnever, hsome]
  rfl

/-- **The crossing to universal time is exact.** Where the changes of a zone are far apart and none
puts the clock forward by more than a day: a local time is skipped or repeated as the changes say.
One that some instant shows stands for all the instants that show it, earliest first, so what a
clock shows at an instant stands for that instant; one that is skipped stands for the single instant
that shows the first of the minutes after it that is shown, in the minute after the change. -/
theorem toUniversal_exact (hz : z.WellSeparated) (hq : z.Settles) (hj : z.JumpsWithin gapMinutes) :
    (∀ u, u ∈ z.toUniversal (z.toLocal u))
    ∧ ∀ l : LocalTime,
      ((∀ u, z.toLocal u ≠ l) ↔ ∃ m ∈ z.moves, m.Skips l)
      ∧ ((∃ s u : Instant, s < u ∧ z.toLocal s = l ∧ z.toLocal u = l) ↔ ∃ m ∈ z.moves, m.Repeats l)
      ∧ ((∃ u, z.toLocal u = l) →
        (z.toUniversal l).Pairwise (· < ·) ∧ ∀ u, u ∈ z.toUniversal l ↔ z.toLocal u = l)
      ∧ (∀ m ∈ z.moves, m.Repeats l →
        z.toUniversal l = [⟨l.seconds - m.before, l.nanos⟩, ⟨l.seconds - m.after, l.nanos⟩])
      ∧ ∀ m ∈ z.moves, m.Skips l →
        ∃ (k : Nat) (u : Instant), z.toUniversal l = [u] ∧ Move.Forwards z m l k u := by
  have hshown : ∀ l, (∃ u, z.toLocal u = l) → z.toUniversal l = z.instantsOf l := by
    rintro l ⟨u, hu⟩
    exact toUniversal_of_ne_nil (List.ne_nil_of_mem (mem_instantsOf.mpr hu))
  refine ⟨fun u => ?_, fun l => ⟨never_shown_iff hz l, shown_twice_iff hz l, fun hl => ?_,
    fun m => toUniversal_of_repeats hz, fun m hm hl => ?_⟩⟩
  · rw [hshown _ ⟨u, rfl⟩, mem_instantsOf]
  · rw [hshown l hl]
    exact ⟨pairwise_instantsOf z l, fun u => mem_instantsOf⟩
  · obtain ⟨k, u, hk, hforwards⟩ := exists_forwards hz hq hm hl
    have hjump := after_le_of_mem hj hm
    exact ⟨k, u, hforwards.toUniversal_eq (never_shown_of_skips hz hm hl) (by omega), hforwards⟩

/-- Half past two and 45 seconds is skipped in New York on 10 March 2024: half an hour later the
clock shows 45 seconds past three, 45 seconds after it was put forward. -/
theorem toUniversal_exact_new_york :
    let z := newYork
    let l : LocalTime := Time.ofSeconds 1710037845
    let u : Instant := Time.ofSeconds 1710054045
    z.WellSeparated ∧ z.Settles ∧ z.JumpsWithin gapMinutes ∧ z.toUniversal l = [u]
      ∧ (∀ s, z.toLocal s ≠ l)
      ∧ ∃ m ∈ z.moves, m.Skips l ∧ ∃ k, Move.Forwards z m l k u := by
  intro z l u
  have hz : z.WellSeparated := by decide +kernel
  have hq : z.Settles := by decide +kernel
  have hj : z.JumpsWithin gapMinutes := by decide +kernel
  have hu : z.toUniversal l = [u] := by decide +kernel
  have hm : ∃ m ∈ z.moves, m.Skips l := by decide +kernel
  obtain ⟨-, hexact⟩ := toUniversal_exact hz hq hj
  obtain ⟨hnever, -, -, -, hskips⟩ := hexact l
  refine ⟨hz, hq, hj, hu, hnever.mpr hm, ?_⟩
  obtain ⟨m, hmem, hl⟩ := hm
  obtain ⟨k, s, hs, hforwards⟩ := hskips m hmem hl
  obtain rfl : s = u := by simpa [hu] using hs.symm
  exact ⟨m, hmem, hl, k, hforwards⟩

/-- Gaps of ten seconds that do not settle: the minute after a time in the first lies in the
third. -/
example :
    let z : Zone := ⟨0, [(100, 10), (121, 20), (142, 30)], by decide⟩
    z.WellSeparated ∧ z.toUniversal (Time.ofSeconds 105) = [Time.ofSeconds 195] := by decide +kernel

end Zone

end Recurrence
