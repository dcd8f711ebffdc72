import Recurrence.Proofs.Calendar.Shifts
import Recurrence.Proofs.Search.Ceilings

/-!
A cadence alone, with neither anchor nor other rules. The plan counts indexes of units and pins the
finer units, and never adds units to the base; what it accepts are the sums of the base and
multiples of the interval all the same.

Main statements: `Plan.accepted_bare_iff` and `series_bare`.
-/

namespace Recurrence

open LocalTime

namespace Cadence

def nth (b : LocalTime) (n : Nat) (u : TimeUnit) (j : Nat) : LocalTime := b.moved (j * n) u

variable {b : LocalTime} {n : Nat} {u : TimeUnit}

lemma nth_lt_nth_iff (hu : u ≠ .timeZone) (hn : 1 ≤ n) {i j : Nat} :
    nth b n u i < nth b n u j ↔ i < j := by
  have hpos : (0 : Int) < n := by omega
  rw [nth, nth, moved_lt_moved_iff hu, Int.mul_lt_mul_right hpos]
  omega

lemma nth_le_nth (hu : u ≠ .timeZone) (hn : 1 ≤ n) {i j : Nat} (h : i ≤ j) :
    nth b n u i ≤ nth b n u j := by
  rw [← not_lt, nth_lt_nth_iff hu hn]
  omega

end Cadence

namespace Plan

variable {u : TimeUnit} {n : Nat} {base t : LocalTime}

lemma conditions_bare (hu : u ≠ .timeZone) (n : Nat) (base : LocalTime) :
    conditions [.every ⟨u, n, none⟩] base
      = .cadence ⟨u, max n 1, none, base.index u⟩
        :: (kept u).map fun v => .pin v (base.part v) := by
  have hfixed : fixedUnits [.every ⟨u, n, none⟩] = ∅ := rfl
  have hpins : minimumPins [.every ⟨u, n, none⟩] = ([], ∅) := by
    unfold minimumPins
    rw [hfixed]
    rfl
  unfold conditions
  rw [hpins]
  cases u with
  | timeZone => exact absurd rfl hu
  | _ => rfl

/-- **A cadence alone accepts the times that are some intervals away** from the base without its
fraction of a second. -/
theorem accepted_bare_iff (hu : u ≠ .timeZone) (hn : 1 ≤ n) (ht : t.IsWhole) (hr : t.InReach) :
    Accepted (conditions [.every ⟨u, n, none⟩] base) t
      ↔ ∃ k : Int, t = (base.startOf .second).moved (k * n) u := by
  have hindex : base.index u = (base.startOf .second).index u := by cases u <;> rfl
  have hpart : ∀ v, base.part v = (base.startOf .second).part v := by intro v; cases v <;> rfl
  -- the cadence asks for a multiple of the interval, the pins for what addition keeps
  have hcadence : (Condition.cadence ⟨u, max n 1, none, base.index u⟩).accepts t = true
      ↔ (t.index u - (base.startOf .second).index u) % n = 0 := by
    have hmax : max (n : Int) 1 = n := max_eq_left (by omega)
    rw [hmax, hindex]
    exact decide_eq_true_iff
  have hpins : Accepted ((kept u).map fun v => .pin v (base.part v)) t
      ↔ ∀ v ∈ kept u, Keeps (base.startOf .second) t v := by
    simp only [Accepted, List.forall_mem_map, hpart]
    exact forall₂_congr fun v _ => decide_eq_true_iff
  -- together these say that the time is a sum
  have hsum := fun m => eq_moved_iff hu (Time.isWhole_ofSeconds base.seconds) ht hr m
  have hstart : (Time.ofSeconds base.seconds : LocalTime) = base.startOf .second := rfl
  rw [hstart] at hsum
  rw [conditions_bare hu, Accepted, List.forall_mem_cons, hcadence]
  constructor
  · rintro ⟨hoffset, hkept⟩
    obtain ⟨k, hk⟩ := Int.dvd_of_emod_eq_zero hoffset
    refine ⟨k, (hsum _).mpr ⟨?_, hpins.mp hkept⟩⟩
    rw [Int.mul_comm]
    omega
  · rintro ⟨k, hk⟩
    obtain ⟨hi, hkept⟩ := (hsum _).mp hk
    refine ⟨?_, hpins.mpr hkept⟩
    rw [hi, show (base.startOf .second).index u + k * n - (base.startOf .second).index u = k * n by
      omega]
    exact Int.mul_emod_left k n

end Plan

namespace Search

variable {u : TimeUnit} {n : Nat} {base : LocalTime} {s : Search} {j : Nat}

/-- From the `j`-th time of a cadence a search leads to the next one, as long as it is in the years
that are looked at and the ceiling is not reached. -/
lemma next_bare (ceiling : Nat) (hu : u ≠ .timeZone) (hn : 1 ≤ n)
    (hs : s.Recalls (Plan.conditions [.every ⟨u, n, none⟩] base)) {start : LocalTime}
    (hb : earliest ≤ start)
    (hstart : start.seconds = (Cadence.nth (base.startOf .second) n u j).seconds) :
    (∀ t, (s.next start none ceiling).1 = some t →
        t = Cadence.nth (base.startOf .second) n u (j + 1) ∧ t.date.year ≤ 9999)
      ∧ (¬ s.CutOff start none ceiling →
        (Cadence.nth (base.startOf .second) n u (j + 1)).date.year ≤ 9999 →
        (s.next start none ceiling).1 = some (Cadence.nth (base.startOf .second) n u (j + 1))) := by
  set nth := Cadence.nth (base.startOf .second) n u with hnth
  have hwhole : ∀ i, (nth i).IsWhole := fun i => isWhole_moved (Time.isWhole_ofSeconds _) _ _
  have hranges : ∀ r ∈ [Rule.every ⟨u, n, none⟩], ∀ w ∈ r.ranges, w.InARow := by
    simp [Rule.ranges]
  have hc := Plan.wellFormed_conditions hranges base
  have hafter : ∀ i, start < nth i ↔ j < i := by
    intro i
    rw [(hwhole i).lt_iff, hstart, ← (hwhole i).lt_iff, Cadence.nth_lt_nth_iff hu hn]
  -- the next time is one that a search may find, unless it comes too late
  have helig : (nth (j + 1)).date.year ≤ 9999 →
      Eligible (Plan.conditions [.every ⟨u, n, none⟩] base) start none (nth (j + 1)) := by
    intro hy
    have hlt := (hafter (j + 1)).mpr (Nat.lt_succ_self j)
    have hr : (nth (j + 1)).InReach := ⟨le_trans hb (le_of_lt hlt), hy⟩
    refine ⟨hwhole _, hlt, by simp, hy, ?_⟩
    exact (Plan.accepted_bare_iff hu hn (hwhole _) hr).mpr ⟨((j + 1 : Nat) : Int), rfl⟩
  have hfound : ∀ t, (s.next start none ceiling).1 = some t →
      t = nth (j + 1) ∧ t.date.year ≤ 9999 := by
    intro t h
    have ht := eligible_of_next hs h
    have hr : t.InReach := ⟨le_trans hb (le_of_lt ht.after), ht.year⟩
    obtain ⟨k, hk⟩ := (Plan.accepted_bare_iff hu hn ht.whole hr).mp ht.accepted
    have hjk : (j : Int) < k := by
      have hlt := ht.after
      rw [ht.whole.lt_iff, hstart, ← ht.whole.lt_iff, hk, hnth, Cadence.nth,
        moved_lt_moved_iff hu] at hlt
      exact Int.lt_of_mul_lt_mul_right hlt (by omega)
    obtain ⟨i, rfl⟩ := Int.eq_ofNat_of_zero_le (show 0 ≤ k by omega)
    have hki : t = nth i := hk
    have hle : nth (j + 1) ≤ t := hki ▸ Cadence.nth_le_nth hu hn (by omega)
    have hfirst := helig (le_trans (index_mono .year hle) ht.year)
    have hge := next_le hs hc hb (Prod.ext h rfl) hfirst.whole hfirst.after hfirst.accepted
    exact ⟨le_antisymm hge hle, ht.year⟩
  refine ⟨hfound, fun hcut hy => ?_⟩
  obtain ⟨v, -, hv⟩ := exists_next_le hs hc hb hcut (helig hy)
  rw [hv, (hfound v hv).1]

lemma nextInstant_fixed {cs : List Condition} (hs : s.Recalls cs) (offset : Int) (ceiling : Nat)
    (base : Instant) : s.nextInstant (.fixed offset) ceiling base none
      = ((s.again.next ((Zone.fixed offset).toLocal base) none ceiling).1.map
          fun l => ⟨l.seconds - offset, l.nanos⟩,
        (s.again.next ((Zone.fixed offset).toLocal base) none ceiling).2) := by
  rw [nextInstant, maxPasses, instantAfter_succ, Option.map_none]
  cases hn : s.again.next ((Zone.fixed offset).toLocal base) none ceiling with
  | mk found s₁ =>
    cases found with
    | none => rfl
    | some l =>
      have hlt : (Zone.fixed offset).toLocal base < l := (next_found hs.again hn).2.1
      have hbase : base < ⟨l.seconds - offset, l.nanos⟩ := by
        simp only [Time.lt_def, Zone.toLocal, Zone.offsetAt_fixed] at hlt ⊢
        omega
      simp [hbase]

lemma instants_bare (ceiling : Nat) (hu : u ≠ .timeZone) (hn : 1 ≤ n)
    (hs : s.Recalls (Plan.conditions [.every ⟨u, n, none⟩] base)) {start : Instant}
    (hb : earliest ≤ Zone.utc.toLocal start)
    (hstart : start.seconds = (Cadence.nth (base.startOf .second) n u j).seconds) (count i : Nat) :
    let found := (instants .utc ceiling none count s start).1
    let later := Cadence.nth (base.startOf .second) n u (j + i + 1)
    (∀ t, found[i]? = some t → Zone.utc.toLocal t = later ∧ later.date.year ≤ 9999)
      ∧ (i < count → ¬ RunCutOff .utc ceiling none count s start → later.date.year ≤ 9999 →
        ∃ t, found[i]? = some t) := by
  induction count generalizing s start j i with
  | zero => simp [instants]
  | succ count ih =>
    have hlocal : ∀ t : Instant, Zone.utc.toLocal t = ⟨t.seconds, t.nanos⟩ := by
      intro t
      rw [Zone.utc, Zone.toLocal, Zone.offsetAt_fixed, Int.add_zero]
    -- one search leads from the `j`-th time of the cadence to the next
    obtain ⟨hfound, hnext⟩ := next_bare ceiling hu hn hs.again hb
      (by rw [hlocal]; exact hstart)
    have hrecalls := hs.again.next (Zone.utc.toLocal start) none ceiling
    have hstep := nextInstant_fixed hs 0 ceiling start
    rw [instants, Zone.utc, hstep]
    rw [Zone.utc] at hfound hnext hrecalls hb
    cases hr : s.again.next ((Zone.fixed 0).toLocal start) none ceiling with
    | mk found s₁ =>
      rw [hr] at hstep hfound hnext hrecalls
      cases found with
      | none =>
        refine ⟨by simp, fun _ hrun hy => ?_⟩
        -- nothing found: the next time is out of reach, and so are all after it
        have hle := Cadence.nth_le_nth (b := base.startOf .second) hu hn
          (show j + 1 ≤ j + i + 1 by omega)
        have := hnext (not_cutOff_of_run hrun).1 (le_trans (index_mono .year hle) hy)
        cases this
      -- the zone has one offset, so the instant found shows the time found
      | some l =>
        obtain ⟨hl, hy⟩ := hfound l rfl
        have hhit : (Zone.fixed 0).toLocal ⟨l.seconds - 0, l.nanos⟩ = l := by
          rw [Zone.toLocal, Zone.offsetAt_fixed]
          simp
        cases i with
        | zero =>
          refine ⟨fun t ht => ?_, fun _ _ _ => ⟨_, rfl⟩⟩
          obtain rfl : (⟨l.seconds - 0, l.nanos⟩ : Instant) = t := by simpa using ht
          exact ⟨hhit.trans hl, hl ▸ hy⟩
        | succ i =>
          have hb' : earliest ≤ (Zone.fixed 0).toLocal ⟨l.seconds - 0, l.nanos⟩ := by
            rw [hhit]
            exact le_trans hb (le_of_lt (next_found hs.again hr).2.1)
          -- from there on it is the induction hypothesis
          have hrest := ih (j := j + 1) hrecalls hb' (by rw [← hl]; simp) i
          rw [show j + 1 + i + 1 = j + (i + 1) + 1 by omega] at hrest
          refine ⟨hrest.1, fun hi hrun => hrest.2 (by omega) ?_⟩
          exact (not_cutOff_of_run hrun).2 _ s₁ hstep

end Search

/-- **A cadence alone comes at the sums of the base and multiples of its interval:** the `k`-th
occurrence is the base without its fraction of a second plus `k` intervals, with the day cut to the
month, as long as that is not after the last year and no search stops at the ceiling; and there is
none when it is after the last year. -/
theorem series_bare {u : TimeUnit} (hu : u ≠ .timeZone) {n : Nat} (hn : 1 ≤ n) {base : Instant}
    (hb : earliest ≤ Zone.utc.toLocal base) (ceiling : Nat) {k count : Nat} (hk : 1 ≤ k)
    (hcount : k ≤ count) :
    let rules : List Rule := [.every ⟨u, n, none⟩]
    let found := (series rules .utc ceiling base count none).1
    let kth := ((Zone.utc.toLocal base).startOf .second).shift (k * n) u
    (kth.date.year ≤ 9999 → ¬ SeriesCutOff rules .utc ceiling base count none →
        found[k - 1]?.map Zone.utc.toLocal = some kth)
      ∧ (9999 < kth.date.year → found[k - 1]? = none) := by
  intro rules found kth
  set b := (Zone.utc.toLocal base).startOf .second with hb_eq
  have hbase : b.seconds = base.seconds := Int.add_zero _
  -- the base without its fraction is the time from which the sums are counted
  have hzero : Cadence.nth b n u 0 = b := by
    have hn0 : ((0 : Nat) : Int) * (n : Int) = 0 := Int.zero_mul _
    rw [Cadence.nth, hn0]
    exact moved_zero (Time.isWhole_ofSeconds _) u
  obtain ⟨hfound, hexists⟩ := Search.instants_bare ceiling hu hn
    (Search.recalls_fresh (Plan.conditions rules (Zone.utc.toLocal base))) hb
    (by rw [← hb_eq, hzero, hbase]) count (k - 1)
  rw [← hb_eq, show 0 + (k - 1) + 1 = k by omega] at hfound hexists
  -- a sum past the calendar is cut off at its end, which is past year 9999 as well
  have hyear : kth.date.year ≤ 9999 ↔ (Cadence.nth b n u k).date.year ≤ 9999 := by
    apply shift_year_le_iff hu
    have hle := index_mono .year (Cadence.nth_le_nth (b := b) hu hn (Nat.zero_le k))
    rw [hzero] at hle
    refine le_trans ?_ hle
    show Date.firstYear ≤ b.date.year
    rw [year_le_iff, ← seconds_earliest, hbase]
    have := Time.seconds_le hb
    simpa [Zone.utc, Zone.toLocal] using this
  constructor
  · intro hy hcut
    have hkth : kth = Cadence.nth b n u k := shift_eq_moved hu hy
    obtain ⟨t, ht⟩ := hexists (by omega) hcut (hyear.mp hy)
    show (found[k - 1]?).map Zone.utc.toLocal = some kth
    rw [show found[k - 1]? = some t from ht, Option.map_some, (hfound t ht).1, hkth]
  · intro hy
    by_contra hne
    obtain ⟨t, ht⟩ := Option.ne_none_iff_exists'.mp hne
    have := hyear.mpr (hfound t ht).2
    omega

/-- Every month from the last of January on: in February it comes on the leap day. -/
theorem series_bare_month_end :
    let base : Instant := Time.ofSeconds 1706695200
    let rules : List Rule := [.every ⟨.month, 1, none⟩]
    let kth :=
      ((Zone.utc.toLocal base).startOf .second).shift (((1 : Nat) : Int) * (1 : Nat)) .month
    kth = Time.ofSeconds 1709200800
      ∧ (series rules .utc 100 base 3 none).1[1 - 1]?.map Zone.utc.toLocal = some kth := by
  intro base rules kth
  have hcut : ¬ SeriesCutOff rules .utc 100 base 3 none := by decide +kernel
  have hkth : kth = Time.ofSeconds 1709200800 := by decide +kernel
  have hy : kth.date.year ≤ 9999 := by rw [hkth]; decide
  refine ⟨hkth, ?_⟩
  have hb : earliest ≤ Zone.utc.toLocal base := by decide
  exact (series_bare (u := .month) (n := 1) (by decide) (by decide) hb 100 (show 1 ≤ 1 by decide)
    (show 1 ≤ 3 by decide)).1 hy hcut

end Recurrence
