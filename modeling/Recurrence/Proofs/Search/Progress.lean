import Recurrence.Proofs.Search.Seeds
import Recurrence.Proofs.Search.Visits

/-!
A search moves forward. The rules of a text count cadences in units that times have, so a condition
that refuses a time and does not give up asks for a later one. The times that a search looks at
ascend for that reason, and it ends by itself: a ceiling only cuts it off.

Main statements: `Plan.forward_conditions`, `exists_walks`, `Walks.ascends`, `Walks.walk_eq` and
`search_progresses`.
-/

namespace Recurrence

open LocalTime

variable {c : Condition} {cs : List Condition} {t : LocalTime}

/-! ### Jumps in units that times have -/

namespace Advance

lemma toValue_ne_zone (u : TimeUnit) (r : Resolution) (t : LocalTime) (n : Int) :
    toValue u r t ≠ .units n .timeZone := by
  unfold toValue
  cases r with
  | noMatch => exact Range.ne_zone_of_wrap u n
  | invalid => simp
  | value target =>
    cases u with
    | timeZone =>
      have hnone : ¬ (t.part .timeZone < target
          ∧ target ≤ TimeUnit.maxValueIn .timeZone t.date.year t.date.month) := by
        have hpart : t.part .timeZone = 0 := rfl
        have hmax : TimeUnit.maxValueIn .timeZone t.date.year t.date.month = 0 := rfl
        omega
      simp only [if_neg hnone]
      exact Range.ne_zone_of_wrap .timeZone n
    | _ =>
      simp only
      split_ifs <;> simp [wrap, TimeUnit.parent?]

lemma toEarliest_ne_zone (as : List Advance) (t : LocalTime) (n : Int) :
    toEarliest as t ≠ .units n .timeZone := by
  rw [toEarliest_eq]
  split <;> simp

end Advance

lemma Cadence.advance_ne_zone {c : Cadence} (hc : c.unit ≠ .timeZone) (t : LocalTime) (n : Int) :
    c.advance t ≠ .units n .timeZone := by
  rw [advance_eq]
  have hwrap := Range.ne_zone_of_wrap c.unit n
  split
  · simp [hc]
  · exact hwrap
  · simp
  · split_ifs
    · simp
    · simp
    · simp [hc]
    · exact hwrap

lemma Condition.advance_ne_zone (hc : ∀ e, c = .cadence e → e.unit ≠ .timeZone) (t : LocalTime)
    (n : Int) : c.advance t ≠ .units n .timeZone := by
  cases c with
  | equals u text => exact Advance.toValue_ne_zone _ _ _ _
  | pin u value => exact Advance.toValue_ne_zone u (.value (pinned u value t)) t n
  | cadence e => exact e.advance_ne_zone (hc e rfl) t n
  | oneOf columns => exact Advance.toEarliest_ne_zone _ _ _
  | withinAny rs => exact Advance.toEarliest_ne_zone _ _ _
  | within r =>
    show (r.check t).getD (.units 1 .second) ≠ _
    cases h : r.check t with
    | none => simp
    | some a => exact Range.ne_zone_of_check h n

/-! ### Rules of texts -/

namespace Parsed

variable {D : Zone.Database} {text : String}

lemma exists_clause_of_mem_rules {w : WrittenRule} (hw : w ∈ (ofText D text).rules) :
    ∃ c ∈ (Clause.splitText D text).2, (∀ t ∈ c.tokens, t.fault = none)
      ∧ ∃ rules, Rule.ofClause c = .ok rules ∧ w.rule ∈ rules := by
  rw [ofText_eq, List.mem_flatMap] at hw
  obtain ⟨c, hc, hw⟩ := hw
  refine ⟨c, hc, ?_⟩
  unfold ofClause at hw
  split_ifs at hw with hfaulty
  · cases hw
  · refine ⟨fun t ht => ?_, ?_⟩
    · simpa [Token.isValid] using fun h => hfaulty (List.any_eq_true.mpr ⟨t, ht, h⟩)
    · split at hw
      · rename_i rules hread
        obtain ⟨r, hr, rfl⟩ := List.mem_map.mp hw
        exact ⟨rules, hread, hr⟩
      · cases hw

/-- The rules of a text look as clauses leave them, whatever problems the text has. -/
theorem formed_rules (D : Zone.Database) (text : String) :
    ∀ w ∈ (ofText D text).rules, w.rule.Formed := by
  intro w hw
  obtain ⟨c, hc, hvalid, rules, hread, hmem⟩ := exists_clause_of_mem_rules hw
  obtain ⟨hhead, hbody⟩ := genuine_of_split_scan hc
  refine Rule.formed_of_ofClause hhead (fun hk t ht => ⟨hbody hk t ht, ?_, ?_⟩) hread w.rule hmem
  · exact hvalid t (List.mem_cons_of_mem _ ht)
  · exact (Clause.not_keyword_of_split _).2 c hc t ht

end Parsed

/-- Every condition that does not give up asks for a later time than the one it is asked about. -/
def Forward (cs : List Condition) : Prop :=
  ∀ c ∈ cs, ∀ t next : LocalTime, t.date.year ≤ 9999 → (c.advance t).landing t = some next →
    t.seconds < next.seconds

/-- **The jumps of a plan for the rules of a text lead forward.** -/
theorem Plan.forward_conditions (D : Zone.Database) (text : String) (base : LocalTime) :
    Forward (conditions ((Parsed.ofText D text).rules.map WrittenRule.rule) base) := by
  intro c hc t next hy hl
  refine Advance.seconds_lt_of_landing (Condition.advance_ne_zone (fun e he => ?_) t) hy hl
  subst he
  cases ofRules_conditions _ base _ hc with
  | cadence hr seed =>
    obtain ⟨w, hw, hrule⟩ := List.mem_map.mp hr
    have hformed := Parsed.formed_rules D text w hw
    rw [hrule] at hformed
    cases hformed with
    | every hunit => exact hunit

/-- The jump that a matcher asks for, if it refuses the time. -/
def Matcher.hint? (m : Matcher) (t : LocalTime) : Option Advance :=
  if (m.accepts t).1 then none else some ((m.accepts t).2.advance t).1

/-! ### Traces -/

/-- The trace of a search that has looked at some times: it counts all and keeps the first. -/
structure Trace.Records (trace : Trace) (looked : List LocalTime) : Prop where
  count : trace.iterations = looked.length
  kept : trace.candidates.toList = looked.take (min Trace.limit trace.iterations)

namespace Trace

variable {trace : Trace} {looked : List LocalTime}

lemma records_start : start.Records [] where
  count := rfl
  kept := rfl

lemma Records.pass (h : trace.Records looked) : trace.pass.Records looked where
  count := h.count
  kept := h.kept

lemma Records.visit (h : trace.Records looked) (t : LocalTime) :
    (trace.visit t).Records (looked ++ [t]) := by
  obtain ⟨hcount, hkept⟩ := h
  have hsize : trace.candidates.size = min Trace.limit looked.length := by
    rw [← Array.length_toList, hkept, List.length_take, hcount]
    omega
  refine ⟨by simp [hcount], ?_⟩
  rw [iterations_visit, Trace.visit]
  simp only [hsize]
  split
  · rename_i hlt
    have hfits : looked.length < Trace.limit := by omega
    rw [Array.toList_push, hkept, List.take_of_length_le (by omega), List.take_of_length_le]
    rw [List.length_append, List.length_singleton]
    omega
  · rename_i hge
    have hfull : Trace.limit ≤ looked.length := by omega
    rw [hkept, List.take_append_of_le_length (by omega)]
    congr 1
    omega

lemma Records.foldl_visit (h : trace.Records looked) (ts : List LocalTime) :
    (ts.foldl Trace.visit trace).Records (looked ++ ts) := by
  induction ts generalizing trace looked with
  | nil => simpa using h
  | cons t ts ih => simpa using ih (h.visit t)

end Trace

namespace Search

variable {limit : Option LocalTime} {s s' : Search} {visits : List (Search × LocalTime)}
  {found : Option LocalTime}

/-! ### Walks without a ceiling -/

/-- A walk without a ceiling: the times that it looks at, each with the search as it is then, what
it finds and what it leaves behind. -/
inductive Walks (limit : Option LocalTime) :
    Search → LocalTime → List (Search × LocalTime) → Option LocalTime → Search → Prop
  | past {s : Search} {t : LocalTime} (h : isPast limit t = true) : Walks limit s t [] none s
  | found {s : Search} {t : LocalTime} (h : isPast limit t = false)
      (step : (Step.ofMatchers t none s.matchers).1 = .found) :
      Walks limit s t [(s, t)] (some t) (s.look t)
  | exhausted {s : Search} {t : LocalTime} (h : isPast limit t = false)
      (step : (Step.ofMatchers t none s.matchers).1 = .exhausted) :
      Walks limit s t [(s, t)] none (s.look t)
  | jump {s s' : Search} {t next : LocalTime} {visits : List (Search × LocalTime)}
      {found : Option LocalTime} (h : isPast limit t = false)
      (step : (Step.ofMatchers t none s.matchers).1 = .jump next)
      (rest : Walks limit (s.look t) next visits found s') :
      Walks limit s t ((s, t) :: visits) found s'

/-- The seconds that are left from a time on, to the end of year 9999. -/
def secondsLeft (t : LocalTime) : Nat := (firstSecond .year 10000 - t.seconds).toNat

lemma secondsLeft_pos (hy : t.date.year ≤ 9999) : 0 < secondsLeft t := by
  have := (index_lt_iff .year t 10000).mp (show t.date.year < 10000 by omega)
  unfold secondsLeft
  omega

lemma Recalls.hint_lands (hs : s.Recalls cs) (hf : Forward cs) (hy : t.date.year ≤ 9999)
    {m : Matcher} (hm : m ∈ s.matchers) {a : Advance} (ha : m.hint? t = some a) (hn : a ≠ .never) :
    ∃ next, a.landing t = some next ∧ t < next := by
  obtain ⟨c, hc, hmc⟩ := Rule.exists_of_forall₂ (List.Forall₂.flip hs) hm
  unfold Matcher.hint? at ha
  split_ifs at ha
  cases ha
  rw [(Matcher.advance_eq (Matcher.accepts_eq hmc).2).1] at hn ⊢
  obtain ⟨next, hl⟩ := Option.ne_none_iff_exists'.mp (mt Step.landing_eq_none.mp hn)
  exact ⟨next, hl, Or.inl (hf c hc t next hy hl)⟩

lemma Recalls.seconds_lt_of_jump (hs : s.Recalls cs) (hf : Forward cs) (hy : t.date.year ≤ 9999)
    {next : LocalTime} (hstep : (Step.ofMatchers t none s.matchers).1 = .jump next) :
    t.seconds < next.seconds := by
  rw [(Step.ofMatchers_eq hs t).1] at hstep
  have hcases := Step.ofConditions_cases cs t
  rw [hstep] at hcases
  obtain ⟨c, hc, -, hl⟩ := hcases
  exact hf c hc t next hy hl

/-- **A walk ends without a ceiling.** -/
theorem exists_walks (hs : s.Recalls cs) (hf : Forward cs) (limit : Option LocalTime)
    (t : LocalTime) : ∃ visits found s', Walks limit s t visits found s' := by
  -- each jump leaves fewer seconds to the end of the last year
  induction hn : secondsLeft t using Nat.strong_induction_on generalizing s t with
  | _ n ih =>
    subst hn
    cases hp : isPast limit t with
    | true => exact ⟨_, _, _, .past hp⟩
    | false =>
      obtain ⟨-, hy⟩ := isPast_eq_false.mp hp
      cases hstep : (Step.ofMatchers t none s.matchers).1 with
      | found => exact ⟨_, _, _, .found hp hstep⟩
      | exhausted => exact ⟨_, _, _, .exhausted hp hstep⟩
      | jump next =>
        have hlt := hs.seconds_lt_of_jump hf hy hstep
        have hleft : secondsLeft next < secondsLeft t := by
          have := secondsLeft_pos hy
          unfold secondsLeft at *
          omega
        obtain ⟨visits, found, s', hrest⟩ := ih _ hleft (hs.look t) next rfl
        exact ⟨_, _, _, .jump hp hstep hrest⟩

lemma Walks.recalls (h : Walks limit s t visits found s') (hs : s.Recalls cs) :
    ∀ v ∈ visits, v.1.Recalls cs ∧ v.2.date.year ≤ 9999 := by
  induction h with
  | past => simp
  | found hp | exhausted hp => simpa using ⟨hs, (isPast_eq_false.mp hp).2⟩
  | jump hp _ _ ih =>
    exact List.forall_mem_cons.mpr ⟨⟨hs, (isPast_eq_false.mp hp).2⟩, ih (hs.look _)⟩

/-- **What a walk looks at ascends** from its start to what it finds, so there is no more of it than
seconds up to the last year. -/
theorem Walks.ascends (h : Walks limit s t visits found s') (hs : s.Recalls cs) (hf : Forward cs) :
    (visits.map Prod.snd).Pairwise (· < ·)
      ∧ (∀ v ∈ visits, t.seconds ≤ v.2.seconds)
      ∧ (∀ l ∈ found, t.seconds ≤ l.seconds ∧ ∀ v ∈ visits, v.2 ≤ l)
      ∧ visits.length ≤ secondsLeft t := by
  induction h with
  | past => simp
  | found hp | exhausted hp =>
    obtain ⟨-, hy⟩ := isPast_eq_false.mp hp
    exact ⟨List.pairwise_singleton _ _, by simp, by simp, secondsLeft_pos hy⟩
  | @jump s s' t next visits found hp hstep hrest ih =>
    obtain ⟨-, hy⟩ := isPast_eq_false.mp hp
    obtain ⟨hpair, hstart, hfound, hlength⟩ := ih (hs.look t)
    have hlt := hs.seconds_lt_of_jump hf hy hstep
    have hpos := secondsLeft_pos hy
    have hlater : ∀ v ∈ visits, t.seconds < v.2.seconds := fun v hv =>
      lt_of_lt_of_le hlt (hstart v hv)
    refine ⟨List.pairwise_cons.mpr ⟨List.forall_mem_map.mpr fun v hv => Or.inl (hlater v hv),
      hpair⟩,
      List.forall_mem_cons.mpr ⟨le_refl _, fun v hv => le_of_lt (hlater v hv)⟩, fun l hl => ?_, ?_⟩
    · obtain ⟨hnext, hvisits⟩ := hfound l hl
      have hl : t.seconds < l.seconds := lt_of_lt_of_le hlt hnext
      exact ⟨le_of_lt hl, List.forall_mem_cons.mpr ⟨le_of_lt (Or.inl hl), hvisits⟩⟩
    · rw [List.length_cons]
      unfold secondsLeft at *
      omega

/-- **A ceiling cuts a walk off**, after as many times as it allows; a walk that ends before is not
changed by it. -/
theorem Walks.walk_eq (h : Walks limit s t visits found s') (n : Nat) :
    visited limit n s t = (visits.map Prod.snd).take n
      ∧ (walk limit n s t).1 = (if visits.length ≤ n then found else none) := by
  induction h generalizing n with
  | past hp => cases n <;> simp [visited, walk, hp]
  | found hp hstep => cases n <;> simp [visited, walk, hp, hstep]
  | exhausted hp hstep => cases n <;> simp [visited, walk, hp, hstep]
  | jump hp hstep hrest ih =>
    cases n with
    | zero => simp [visited, walk]
    | succ n =>
      obtain ⟨hvisited, hfound⟩ := ih n
      rw [visited, walk_succ, hp, hstep]
      simp [hvisited, hfound]

/-! ### Searches -/

def after (s : Search) (queries : List Query) : Search :=
  queries.foldl (fun s q => (s.next q.base q.limit q.ceiling).2) s

/-- The times that the searches of a chain look at, in order. -/
def looked (s : Search) (queries : List Query) : List LocalTime :=
  (s.answers queries).flatMap Prod.snd

lemma Recalls.after (hs : s.Recalls cs) (queries : List Query) : (s.after queries).Recalls cs := by
  induction queries generalizing s with
  | nil => exact hs
  | cons q queries ih => exact ih (hs.next q.base q.limit q.ceiling)

lemma records_after {past : List LocalTime} (h : s.trace.Records past) (queries : List Query) :
    (s.after queries).trace.Records (past ++ s.looked queries) := by
  induction queries generalizing s past with
  | nil => simpa [looked, answers, after] using h
  | cons q queries ih =>
    have hnext : (s.next q.base q.limit q.ceiling).2.trace.Records
        (past ++ visited q.limit q.ceiling s ((q.base.startOf .second).addSeconds 1)) := by
      rw [next, trace_walk]
      exact h.foldl_visit _
    simpa [looked, answers, after] using ih hnext

lemma Walks.after_base {base : LocalTime}
    (h : Walks limit s ((base.startOf .second).addSeconds 1) visits found s') (hs : s.Recalls cs)
    (hf : Forward cs) : (base :: visits.map Prod.snd).Pairwise (· < ·)
      ∧ (∀ l ∈ found, base < l ∧ ∀ v ∈ visits, v.2 ≤ l) ∧ visits.length ≤ secondsLeft base := by
  have hstart : ((base.startOf .second).addSeconds 1).seconds = base.seconds + 1 := by
    rw [startOf_eq]
    rfl
  obtain ⟨hpair, hlater, hfound, hlength⟩ := h.ascends hs hf
  rw [hstart] at hlater hfound
  refine ⟨List.pairwise_cons.mpr ⟨List.forall_mem_map.mpr fun v hv => Or.inl ?_, hpair⟩,
    fun l hl => ⟨Or.inl ?_, (hfound l hl).2⟩, ?_⟩
  · have := hlater v hv
    omega
  · have := (hfound l hl).1
    omega
  · unfold secondsLeft at *
    omega

lemma exists_looked (hs : s.Recalls cs) (hf : Forward cs) {past : List LocalTime}
    (hpast : s.trace.Records past) (base : LocalTime) (limit : Option LocalTime) (ceiling : Nat) :
    ∃ times, (s.next base limit ceiling).2.trace.Records (past ++ times)
      ∧ (base :: times).Pairwise (· < ·)
      ∧ ∀ l ∈ (s.next base limit ceiling).1, base < l ∧ ∀ v ∈ times, v ≤ l := by
  obtain ⟨visits, found, s', hwalks⟩ :=
    exists_walks hs hf limit ((base.startOf .second).addSeconds 1)
  obtain ⟨hpair, hfound, -⟩ := hwalks.after_base hs hf
  obtain ⟨hvisited, hanswer⟩ := hwalks.walk_eq ceiling
  refine ⟨(visits.map Prod.snd).take ceiling, ?_, ?_, fun l hl => ?_⟩
  · rw [next, trace_walk, hvisited]
    exact hpast.foldl_visit _
  · exact hpair.sublist ((List.take_sublist _ _).cons_cons base)
  · rw [next, hanswer] at hl
    split_ifs at hl
    · obtain ⟨hlt, hle⟩ := hfound l hl
      refine ⟨hlt, fun v hv => ?_⟩
      obtain ⟨w, hw, rfl⟩ := List.mem_map.mp (List.mem_of_mem_take hv)
      exact hle w hw
    · cases hl

lemma exists_looked_passes (hf : Forward cs) (zone : Zone) (ceiling : Nat) (base : Instant)
    (bound : Option Instant) (passes : Nat) {start : LocalTime} {past : List LocalTime}
    (hs : s.Recalls cs) (hpast : s.trace.Records past) :
    ∃ times, (instantAfter zone ceiling base bound passes s start).2.trace.Records (past ++ times)
      ∧ (start :: times).Pairwise (· < ·) := by
  induction passes generalizing s start past with
  | zero => exact ⟨[], by simpa [instantAfter] using hpast, List.pairwise_singleton _ _⟩
  | succ passes ih =>
    have hagain : s.again.trace.Records past := hpast.pass
    obtain ⟨times, hrecords, hpair, hfound⟩ :=
      exists_looked hs.again hf hagain start (bound.map zone.toLocal) ceiling
    have hafter := hs.again.next start (bound.map zone.toLocal) ceiling
    rw [instantAfter_succ]
    generalize s.again.next start (bound.map zone.toLocal) ceiling = res at *
    obtain ⟨found, s₁⟩ := res
    cases found with
    | none => exact ⟨times, hrecords, hpair⟩
    | some l =>
      simp only
      split
      · split_ifs <;> exact ⟨times, hrecords, hpair⟩
      · -- the next pass starts from what this one found
        obtain ⟨hlt, hle⟩ := hfound l rfl
        obtain ⟨later, hrecords, hlater⟩ := ih hafter hrecords
        obtain ⟨hl, hlater⟩ := List.pairwise_cons.mp hlater
        refine ⟨times ++ later, by simpa using hrecords, ?_⟩
        rw [← List.cons_append]
        refine List.pairwise_append.mpr ⟨hpair, hlater, fun v hv w hw => ?_⟩
        rcases List.mem_cons.mp hv with rfl | hv
        · exact lt_trans hlt (hl w hw)
        · exact lt_of_le_of_lt (hle v hv) (hl w hw)

end Search

/-- **A search moves forward, and ends by itself.** Take the rules of any text, a plan for them, and
a search of the plan, at the beginning or after any others. Without a ceiling the search looks at
finitely many times, not more than there are seconds from its base to the end of year 9999; at each
of them every matcher that refuses it gives up or asks for a later one, and they ascend. A ceiling
only cuts them off. The trace counts every time looked at and keeps the first ones in order, and it
ascends too in a search of several passes. -/
theorem search_progresses (D : Zone.Database) (text : String) (seed : LocalTime) :
    let cs := Plan.conditions ((Parsed.ofText D text).rules.map WrittenRule.rule) seed
    (∀ (earlier : List Search.Query) (base : LocalTime) (limit : Option LocalTime),
      let s := (Search.fresh cs).after earlier
      ∃ visits found s',
        Search.Walks limit s ((base.startOf .second).addSeconds 1) visits found s'
        ∧ (∀ v ∈ visits, v.2.date.year ≤ 9999 ∧ ∀ m ∈ v.1.matchers, ∀ a, m.hint? v.2 = some a →
          a ≠ .never → ∃ next, a.landing v.2 = some next ∧ v.2 < next)
        ∧ (base :: visits.map Prod.snd).Pairwise (· < ·)
        ∧ visits.length ≤ Search.secondsLeft base
        ∧ ∀ ceiling, (s.next base limit ceiling).1
          = (if visits.length ≤ ceiling then found else none)
          ∧ (s.next base limit ceiling).2.trace.Records
              ((Search.fresh cs).looked earlier ++ (visits.map Prod.snd).take ceiling))
    ∧ ∀ zone ceiling base bound, ∃ times,
      ((Search.fresh cs).nextInstant zone ceiling base bound).2.trace.Records times
        ∧ (zone.toLocal base :: times).Pairwise (· < ·) := by
  intro cs
  -- what a text is read as has forward jumps only, and the search remembers nothing false
  have hf : Forward cs := Plan.forward_conditions D text seed
  have hfresh := Search.recalls_fresh cs
  refine ⟨fun earlier base limit => ?_, fun zone ceiling base bound => ?_⟩
  · intro s
    have hs : s.Recalls cs := hfresh.after earlier
    have hpast : s.trace.Records _ := Search.records_after Trace.records_start earlier
    -- seconds run out, so the walk ends by itself
    obtain ⟨visits, found, s', hwalks⟩ :=
      Search.exists_walks hs hf limit ((base.startOf .second).addSeconds 1)
    obtain ⟨hpair, -, hlength⟩ := hwalks.after_base hs hf
    refine ⟨visits, found, s', hwalks, fun v hv => ?_, hpair, hlength, fun ceiling => ?_⟩
    · obtain ⟨hv, hy⟩ := hwalks.recalls hs v hv
      exact ⟨hy, fun m hm a ha hn => hv.hint_lands hf hy hm ha hn⟩
    -- a ceiling cuts the walk off, and the trace with it
    · obtain ⟨hvisited, hanswer⟩ := hwalks.walk_eq ceiling
      refine ⟨hanswer, ?_⟩
      rw [Search.next, Search.trace_walk, hvisited]
      exact hpast.foldl_visit _
  · exact Search.exists_looked_passes hf zone ceiling base bound Search.maxPasses hfresh
      Trace.records_start

end Recurrence
