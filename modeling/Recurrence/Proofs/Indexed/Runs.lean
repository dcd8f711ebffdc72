import Recurrence.Proofs.Indexed.Values
import Recurrence.Proofs.Rule.TrailingBlanks
import Recurrence.Proofs.Value.UsedTokens

/-!
Values with runs, by positions. A run is a span of tokens, and the spans next to a date, or on both
sides of a clock time, are asked for by number; there is one wherever it is asked for.

Main statements: `spans_eq`, `timeSpan_cases`, `dateTime_eq`, `dayTime_eq` and `read_eq`.
-/

namespace Recurrence.Indexed

open Token
open Value (isTimed hasDateDash splitTime attachDayNumbers dayPart DayParts)

abbrev Span := Nat × Nat

/-- Closes the span under way at a blank, or opens one at another token. -/
def addToSpans (found : List Span × Option Nat) (p : Token × Nat) : List Span × Option Nat :=
  match decide (p.1.kind = .blank), found.2 with
  | true, some start => (found.1 ++ [(start, p.2)], none)
  | false, none => (found.1, some p.2)
  | _, _ => found

def closeSpans (stop : Nat) (found : List Span × Option Nat) : List Span :=
  match found.2 with
  | some start => found.1 ++ [(start, stop)]
  | none => found.1

def spans (ts : List Token) : List Span :=
  closeSpans ts.length (ts.zipIdx.foldl addToSpans ([], none))

def runAt (ts : List Token) (spans : List Span) (i : Nat) : Reading (List Token) := do
  let (start, stop) ← get spans i
  slice ts start stop

def ask (f : List Token → Reading Bool) (ts : List Token) (spans : List Span) (i : Nat) :
    Reading Bool := do
  f (significant (← runAt ts spans i))

def lone (p : Token → Bool) (ts : List Token) : Bool :=
  match ts with
  | [t] => p t
  | _ => false

def isMeridiem (t : Token) : Bool :=
  match t.kind with
  | .meridiem _ => true
  | _ => false

def askTimed : List Token → List Span → Nat → Reading Bool := ask fun ts => return isTimed ts

/-- The run before a timed one, if it is an hour that belongs to it. -/
def withHour (ts : List Token) (spans : List Span) (first : Nat) : Reading Nat := do
  if first = 0 then return first
  else if !(← ask (fun ts => return lone isMeridiem ts) ts spans first) then return first
  else if !(← ask (fun ts => return lone (fun t => t.kind = .number) ts) ts spans
      (← sub first 1)) then
    return first
  else sub first 1

def lastTimed (ts : List Token) (spans : List Span) (last : Nat) : Reading Nat :=
  if last + 1 < spans.length then do
    if ← askTimed ts spans (last + 1) then lastTimed ts spans (last + 1) else return last
  else return last
termination_by spans.length - last

def timeSpan (ts : List Token) (spans : List Span) : Reading (Option (Nat × Nat)) := do
  match ← (List.range spans.length).findM? (askTimed ts spans) with
  | none => return none
  | some timed =>
    let first ← withHour ts spans timed
    return some (first, ← lastTimed ts spans first)

/-- The tokens beside a date that is the first or the last run. -/
def besideDate (ts : List Token) (spans : List Span) (date : Nat) :
    Reading (Option (List Token)) := do
  if date = 0 then
    match spans[1]? with
    | some (start, _) => return some (← slice ts start ts.length)
    | none => return none
  else if date = (← sub spans.length 1) then
    let (_, stop) ← get spans (← sub date 1)
    return some (← slice ts 0 stop)
  else return none

def isDated (ts : List Token) : Reading Bool := do
  return 0 < (← dateDashes ts)

def dateTime (tokens : List Token) : Reading Values := do
  let ts ← trim tokens
  let whole := spelling ts
  match ← select (ask isDated ts (spans ts)) (List.range (spans ts).length) with
  | [dated] =>
    let (start, stop) ← get (spans ts) dated
    match ← besideDate ts (spans ts) dated with
    | none => fail (.dateAndTimeExpected whole)
    | some time => return (← date (← slice ts start stop)) ++ (← clock time)
  | _ => fail (.blankInDate whole)

/-- The tokens with meaning of the runs before and after the clock time. -/
def others (ts : List Token) (spans : List Span) (first last : Nat) : Reading (List (List Token)) :=
  (spans.zipIdx.filter fun p => p.2 < first || last < p.2).mapM fun p => do
    return significant (← slice ts p.1.1 p.1.2)

def dayTime (tokens : List Token) : Reading Values := do
  let ts ← trim tokens
  let whole := spelling ts
  match ← timeSpan ts (spans ts) with
  | none => fail (.noClockTime whole)
  | some (first, last) =>
    let (start, _) ← get (spans ts) first
    let (_, stop) ← get (spans ts) last
    let clockValues ← clock (← slice ts start stop)
    let rest ← others ts (spans ts) first last
    let parts ← lift ((attachDayNumbers rest).foldlM
      (fun parts run => do parts.put whole (← dayPart run)) DayParts.none)
    match parts.day with
    | none => fail (.noDay whole)
    | some day =>
      let month := parts.month.toList.map fun m => (TimeUnit.month, m)
      let year := parts.year.toList.map fun y => (TimeUnit.year, y)
      return (.day, day) :: month ++ year ++ clockValues

def read (tokens : List Token) (default : Option TimeUnit) : Reading Values := do
  let ts ← trim tokens
  let words := significant ts
  let special := words.any fun t =>
    match t.kind with
    | .special _ => true
    | _ => false
  if words.isEmpty then fail .valueRequired
  else match isTimed words, ← isDated words with
    | true, true => dateTime ts
    | true, false => if special then dayTime ts else clock ts
    | false, true => date ts
    | false, false =>
      lift (if special then Value.specialDay words default else Value.single words default)

variable {ts : List Token} {as mid bs : List Run} {r : Run}

/-! ### Spans -/

def spansFrom (k : Nat) : List Run → List Span
  | [] => []
  | r :: rs => (k, k + r.tokens.length) :: spansFrom (k + r.all.length) rs

/-- The spans from a position on, with one that is open since `start`. -/
def spansOpen (start k : Nat) : List Token × List Run → List Span
  | ([], r :: rs) => (start, k + r.tokens.length) :: spansFrom (k + r.all.length) rs
  | (lead, rs) => (start, k) :: spansFrom (k + lead.length) rs

lemma spansOpen_lead {lead : List Token} (h : lead ≠ []) (start k : Nat) (rs : List Run) :
    spansOpen start k (lead, rs) = (start, k) :: spansFrom (k + lead.length) rs := by
  obtain ⟨b, lead, rfl⟩ := List.exists_cons_of_ne_nil h
  rfl

lemma spansOpen_splitRuns {t : Token} (ht : t.kind ≠ .blank) (start k : Nat) (ts : List Token) :
    spansOpen start k (splitRuns (t :: ts)) = spansOpen start (k + 1) (splitRuns ts) := by
  rw [splitRuns]
  rcases splitRuns ts with ⟨_ | ⟨b, lead⟩, _ | ⟨r, rs⟩⟩ <;>
    simp [if_neg ht, spansOpen, Run.all, Nat.add_assoc, Nat.add_comm 1]

lemma spansFrom_splitRuns {t : Token} (ht : t.kind ≠ .blank) (k : Nat) (ts : List Token) :
    spansFrom (k + (splitRuns (t :: ts)).1.length) (splitRuns (t :: ts)).2
      = spansOpen k (k + 1) (splitRuns ts) := by
  rw [splitRuns]
  rcases splitRuns ts with ⟨_ | ⟨b, lead⟩, _ | ⟨r, rs⟩⟩ <;>
    simp [if_neg ht, spansOpen, spansFrom, Run.all, Nat.add_assoc, Nat.add_comm 1]

/-- What the fold makes of the tokens from a position on, with no span under way and with one. Both
go together, because a blank leads from the one to the other and the next token back. -/
lemma closeSpans_foldl (ts : List Token) (k : Nat) (closed : List Span) :
    closeSpans (k + ts.length) ((ts.zipIdx k).foldl addToSpans (closed, none))
        = closed ++ spansFrom (k + (splitRuns ts).1.length) (splitRuns ts).2
      ∧ ∀ start, closeSpans (k + ts.length) ((ts.zipIdx k).foldl addToSpans (closed, some start))
        = closed ++ spansOpen start k (splitRuns ts) := by
  induction ts generalizing k closed with
  | nil => exact ⟨by simp [closeSpans, splitRuns, spansFrom], fun start => rfl⟩
  | cons t ts ih =>
    have hlength : k + (t :: ts).length = k + 1 + ts.length := by
      rw [List.length_cons]
      omega
    simp only [List.zipIdx_cons, List.foldl_cons, hlength]
    by_cases ht : t.kind = .blank
    · simp only [addToSpans, ht, decide_true, (ih (k + 1) _).1]
      have hsplit : splitRuns (t :: ts) = (t :: (splitRuns ts).1, (splitRuns ts).2) := by
        rw [splitRuns]
        simp only [if_pos ht]
      rw [hsplit]
      refine ⟨by simp [Nat.add_assoc, Nat.add_comm 1], fun start => ?_⟩
      rw [spansOpen_lead (by simp)]
      simp [Nat.add_assoc, Nat.add_comm 1]
    · simp only [addToSpans, ht, decide_false, (ih (k + 1) _).2]
      exact ⟨by rw [spansFrom_splitRuns ht], fun start => by rw [spansOpen_splitRuns ht]⟩

def place (ts : List Token) (as : List Run) : Nat := ((splitRuns ts).1 ++ as.flatMap Run.all).length

/-- **The spans are those of the runs.** -/
theorem spans_eq (ts : List Token) : spans ts = spansFrom (place ts []) (runs ts) := by
  have h := (closeSpans_foldl ts 0 []).1
  rw [Nat.zero_add, Nat.zero_add] at h
  rw [spans, h]
  simp [place, runs]

lemma length_spansFrom (k : Nat) (rs : List Run) : (spansFrom k rs).length = rs.length := by
  induction rs generalizing k with
  | nil => rfl
  | cons r rs ih => simp [spansFrom, ih]

lemma length_spans (ts : List Token) : (spans ts).length = (runs ts).length := by
  rw [spans_eq, length_spansFrom]

lemma spansFrom_append (k : Nat) (as bs : List Run) :
    spansFrom k (as ++ bs) = spansFrom k as ++ spansFrom (k + (as.flatMap Run.all).length) bs := by
  induction as generalizing k with
  | nil => rfl
  | cons r as ih => simp [spansFrom, ih, Nat.add_assoc]

lemma place_append (ts : List Token) (as bs : List Run) :
    place ts (as ++ bs) = place ts as + (bs.flatMap Run.all).length := by
  simp [place, Nat.add_assoc]

lemma spansFrom_place (ts : List Token) (as bs : List Run) :
    spansFrom (place ts []) (as ++ bs)
      = spansFrom (place ts []) as ++ spansFrom (place ts as) bs := by
  rw [spansFrom_append, ← place_append, List.nil_append]

lemma getElem?_spans (h : runs ts = as ++ r :: bs) :
    (spans ts)[as.length]? = some (place ts as, place ts as + r.tokens.length) := by
  have hlength := length_spansFrom (place ts []) as
  rw [spans_eq, h, spansFrom_place, List.getElem?_append_right (le_of_eq hlength), hlength,
    Nat.sub_self]
  rfl

lemma get_spans (h : runs ts = as ++ r :: bs) :
    get (spans ts) as.length = .ok (place ts as, place ts as + r.tokens.length) :=
  get_eq (getElem?_spans h)

lemma tokens_eq (h : runs ts = as ++ bs) :
    ts = ((splitRuns ts).1 ++ as.flatMap Run.all) ++ bs.flatMap Run.all := by
  have hall := splitRuns_all ts
  rw [show (splitRuns ts).2 = as ++ bs from h, List.flatMap_append, ← List.append_assoc] at hall
  exact hall.symm

lemma slice_runs (h : runs ts = as ++ (mid ++ r :: bs)) :
    slice ts (place ts as) (place ts (as ++ mid) + r.tokens.length)
      = .ok (mid.flatMap Run.all ++ r.tokens) := by
  have hslice :=
    slice_append ((splitRuns ts).1 ++ as.flatMap Run.all) (mid.flatMap Run.all ++ r.tokens)
    (r.gap ++ bs.flatMap Run.all)
  have hts : (splitRuns ts).1 ++ as.flatMap Run.all ++ (mid.flatMap Run.all ++ r.tokens)
      ++ (r.gap ++ bs.flatMap Run.all) = ts := by
    conv_rhs => rw [tokens_eq h]
    simp [Run.all]
  rw [hts] at hslice
  rwa [place_append, Nat.add_assoc, ← List.length_append]

lemma slice_run (h : runs ts = as ++ r :: bs) :
    slice ts (place ts as) (place ts as + r.tokens.length) = .ok r.tokens := by
  have hslice := slice_runs (show runs ts = as ++ ([] ++ r :: bs) from h)
  rwa [List.append_nil] at hslice

lemma slice_from (h : runs ts = as ++ bs) :
    slice ts (place ts as) ts.length = .ok (bs.flatMap Run.all) := by
  have hslice := slice_suffix ((splitRuns ts).1 ++ as.flatMap Run.all) (bs.flatMap Run.all)
  rwa [← tokens_eq h] at hslice

lemma slice_upto (h : runs ts = as ++ r :: bs) : slice ts 0 (place ts as + r.tokens.length)
    = .ok ((splitRuns ts).1 ++ as.flatMap Run.all ++ r.tokens) := by
  have hslice := slice_prefix ((splitRuns ts).1 ++ as.flatMap Run.all ++ r.tokens)
    (r.gap ++ bs.flatMap Run.all)
  have hts : (splitRuns ts).1 ++ as.flatMap Run.all ++ r.tokens ++ (r.gap ++ bs.flatMap Run.all)
      = ts := by
    conv_rhs => rw [tokens_eq h]
    simp [Run.all]
  rw [hts, List.length_append] at hslice
  exact hslice

/-! ### Runs by their position -/

lemma runAt_eq (h : runs ts = as ++ r :: bs) : runAt ts (spans ts) as.length = .ok r.tokens := by
  rw [runAt, get_spans h]
  exact slice_run h

lemma ask_eq {f : List Token → Reading Bool} {b : Bool} (h : runs ts = as ++ r :: bs)
    (hf : f r.meaning = .ok b) : ask f ts (spans ts) as.length = .ok b := by
  rw [ask, runAt_eq h]
  exact hf

lemma ask_range {f : List Token → Reading Bool} {p : List Token → Bool}
    (hf : ∀ us, f us = .ok (p us))
    {i : Nat} (hi : i ∈ List.range (spans ts).length) :
    ask f ts (spans ts) i = .ok ((runs ts)[i]?.any fun r => p r.meaning) := by
  rw [List.mem_range, length_spans] at hi
  have hruns : runs ts = (runs ts).take i ++ (runs ts)[i] :: (runs ts).drop (i + 1) := by simp
  have hlength : ((runs ts).take i).length = i := List.length_take_of_le (le_of_lt hi)
  have hask := ask_eq hruns (hf (runs ts)[i].meaning)
  rwa [hlength, ← Option.any_some (p := fun r : Run => p r.meaning), ← List.getElem?_eq_getElem hi]
    at hask

/-! ### Days with a time -/

lemma askTimed_eq (h : runs ts = as ++ r :: bs) :
    askTimed ts (spans ts) as.length = .ok (isTimed r.meaning) := ask_eq h rfl

lemma lastTimed_eq (h : runs ts = as ++ r :: bs) : lastTimed ts (spans ts) as.length
    = .ok (as.length + (bs.takeWhile fun r => isTimed r.meaning).length) := by
  induction bs generalizing as r with
  | nil =>
    rw [lastTimed, if_neg (by simp [length_spans, h])]
    rfl
  | cons s bs ih =>
    have hnext : runs ts = (as ++ [r]) ++ s :: bs := by simpa using h
    have hask := askTimed_eq hnext
    have hlast := ih hnext
    rw [List.length_append, List.length_singleton] at hask hlast
    rw [lastTimed, if_pos (by simp [length_spans, h]), hask, ok_bind, hlast]
    cases hs : isTimed s.meaning with
    | true => simp [hs, Nat.add_assoc, Nat.add_comm 1]
    | false =>
      rw [List.takeWhile_cons_of_neg (by simp [hs])]
      rfl

/-- Whether an hour that stands alone is before an am or pm that does. -/
def isHourBefore (before time : Option (List Token)) : Bool :=
  before.any (lone fun t => t.kind = .number) && time.any (lone isMeridiem)

lemma isHourBefore_eq {α : Type} (before time : Option (List Token)) (joined apart : α) :
    (match before, time with
      | some [n], some [m] =>
        match n.kind, m.kind with
        | .number, .meridiem _ => joined
        | _, _ => apart
      | _, _ => apart)
    = if isHourBefore before time then joined else apart := by
  rcases before with _ | ⟨_ | ⟨n, _ | ⟨n', ns⟩⟩⟩
  · rfl
  · rfl
  · rcases time with _ | ⟨_ | ⟨m, _ | ⟨m', ms⟩⟩⟩
    · simp [isHourBefore]
    · simp [isHourBefore, lone]
    · rcases n with ⟨kind, _⟩
      rcases m with ⟨kind', _⟩
      cases kind with
      | number => cases kind' <;> rfl
      | _ => rfl
    · simp [isHourBefore, lone]
  · rfl

lemma withHour_eq (h : runs ts = as ++ r :: bs) : withHour ts (spans ts) as.length
    = .ok (if isHourBefore (as.getLast?.map Run.meaning) (some r.meaning) then as.length - 1
      else as.length) := by
  have hask := ask_eq (f := fun ts => return lone isMeridiem ts) h rfl
  rw [withHour, hask]
  rcases List.eq_nil_or_concat as with rfl | ⟨as, hour, rfl⟩
  · rfl
  · rw [List.concat_eq_append] at h hask ⊢
    have hhour := ask_eq (f := fun ts => return lone (fun t => t.kind = .number) ts)
      (show runs ts = as ++ hour :: r :: bs by simpa using h) rfl
    have hsub : sub (as.length + 1) 1 = .ok as.length := sub_eq (Nat.le_add_left 1 as.length)
    rw [if_neg (by simp), isHourBefore, List.getLast?_concat, Option.map_some, Option.any_some,
      Option.any_some]
    simp only [ok_bind, hsub, hhour, List.length_append, List.length_singleton, Nat.add_sub_cancel]
    cases lone isMeridiem r.meaning <;> cases lone (fun t => decide (t.kind = .number)) hour.meaning
      <;> rfl

/-- Where runs divide: at the first timed run, or at the hour before it. -/
lemma splitTime_eq (rs : List Run) :
    let before := rs.takeWhile fun r => !isTimed r.meaning
    let rest := rs.dropWhile fun r => !isTimed r.meaning
    let time := rest.takeWhile fun r => isTimed r.meaning
    let after := rest.dropWhile fun r => isTimed r.meaning
    splitTime rs =
      if isHourBefore (before.getLast?.map Run.meaning) (time.head?.map Run.meaning) then
        (before.dropLast, before.drop (before.length - 1) ++ time, after)
      else (before, time, after) := isHourBefore_eq _ _ _ _

/-- **The clock time is where the runs divide**, from the first of its runs to the last. -/
theorem timeSpan_cases (ts : List Token) :
    (∃ before after, splitTime (runs ts) = (before, [], after) ∧ timeSpan ts (spans ts) = .ok none)
      ∨ ∃ before init last after, splitTime (runs ts) = (before, init ++ [last], after)
        ∧ timeSpan ts (spans ts) = .ok (some (before.length, before.length + init.length)) := by
  have hask : ∀ i ∈ List.range (spans ts).length,
      askTimed ts (spans ts) i = .ok ((runs ts)[i]?.any fun r => isTimed r.meaning) :=
    fun i hi => ask_range (fun us => rfl) hi
  have hsplit := splitTime_eq (runs ts)
  rw [timeSpan, findM?_eq hask, length_spans, find?_range, ok_bind]
  rcases findIdx?_cases (fun r : Run => isTimed r.meaning) (runs ts) with
    ⟨hidx, -, htake, hdrop⟩ | ⟨before, r, rest, hruns, hr, -, hidx, htake, hdrop⟩
  · left
    rw [hidx]
    rw [htake, hdrop] at hsplit
    refine ⟨runs ts, [], ?_, rfl⟩
    rw [hsplit, isHourBefore]
    simp
  · right
    have htime : (r :: rest).takeWhile (fun r => isTimed r.meaning)
        = r :: rest.takeWhile fun r => isTimed r.meaning := by simp [hr]
    obtain ⟨init, last, hinit⟩ :=
      (List.eq_nil_or_concat' (r :: rest.takeWhile fun r => isTimed r.meaning)).resolve_left
        (by simp)
    have hlength : (rest.takeWhile fun r => isTimed r.meaning).length = init.length := by
      simpa using congrArg List.length hinit
    dsimp only at hsplit
    rw [htake, hdrop, htime, List.head?_cons, Option.map_some, hinit] at hsplit
    rw [hidx, hsplit]
    simp only [withHour_eq hruns, ok_bind]
    split
    · -- the hour is one run earlier, and the last timed run is the same as seen from there
      rename_i hhour
      obtain ⟨before, hour, rfl⟩ : ∃ as hour, before = as ++ [hour] :=
        (List.eq_nil_or_concat' before).resolve_left (by rintro rfl; simp [isHourBefore] at hhour)
      have hfirst : runs ts = before ++ hour :: (r :: rest) := by simpa using hruns
      have hlast := lastTimed_eq hfirst
      rw [htime, List.length_cons, hlength] at hlast
      refine ⟨before, hour :: init, last, (r :: rest).dropWhile fun r => isTimed r.meaning,
        by simp, ?_⟩
      simp [hlast]
    · rw [lastTimed_eq hruns, hlength]
      exact ⟨before, init, last, _, rfl, rfl⟩

lemma mapM_slice (h : runs ts = as ++ (mid ++ bs)) (i : Nat) :
    ((spansFrom (place ts as) mid).zipIdx i).mapM (fun p => do
      return significant (← slice ts p.1.1 p.1.2)) = .ok (mid.map Run.meaning) := by
  induction mid generalizing as i with
  | nil => rfl
  | cons r mid ih =>
    have hrest := ih (show runs ts = (as ++ [r]) ++ (mid ++ bs) by simpa using h) (i + 1)
    rw [place_append, List.flatMap_singleton] at hrest
    rw [spansFrom, List.zipIdx_cons, List.mapM_cons, hrest, slice_run h]
    rfl

lemma others_eq {before init after : List Run} {last : Run}
    (h : runs ts = before ++ (init ++ [last] ++ after)) :
    others ts (spans ts) before.length (before.length + init.length)
      = .ok ((before ++ after).map Run.meaning) := by
  -- the spans of all runs are those before the clock time, of it and after it, numbered on
  have hspans : (spans ts).zipIdx = (spansFrom (place ts []) before).zipIdx
      ++ ((spansFrom (place ts before) (init ++ [last])).zipIdx before.length
        ++ (spansFrom (place ts (before ++ (init ++ [last]))) after).zipIdx
          (before.length + init.length + 1)) := by
    rw [spans_eq, h, spansFrom_place, spansFrom_append _ (init ++ [last]), ← place_append,
      List.zipIdx_append, List.zipIdx_append, length_spansFrom, length_spansFrom]
    simp [Nat.add_assoc]
  -- so numbers tell which of them a span is among
  have hbefore : ∀ p ∈ (spansFrom (place ts []) before).zipIdx, p.2 < before.length := by
    intro p hp
    have := List.snd_lt_add_of_mem_zipIdx hp
    rw [length_spansFrom] at this
    omega
  have htime : ∀ p ∈ (spansFrom (place ts before) (init ++ [last])).zipIdx before.length,
      before.length ≤ p.2 ∧ p.2 ≤ before.length + init.length := fun p hp => by
    have := List.le_snd_of_mem_zipIdx hp
    have := List.snd_lt_add_of_mem_zipIdx hp
    rw [length_spansFrom, List.length_append, List.length_singleton] at this
    omega
  have hafter : ∀ p ∈ (spansFrom (place ts (before ++ (init ++ [last]))) after).zipIdx
      (before.length + init.length + 1), before.length + init.length < p.2 :=
    fun p hp => List.le_snd_of_mem_zipIdx hp
  rw [others, hspans, List.filter_append, List.filter_append,
    List.filter_eq_self.mpr fun p hp => by simp [hbefore p hp],
    List.filter_eq_nil_iff.mpr fun p hp => by have := htime p hp; simp; omega,
    List.filter_eq_self.mpr fun p hp => by simp [hafter p hp], List.nil_append, List.mapM_append,
    mapM_slice (show runs ts = [] ++ (before ++ (init ++ [last] ++ after)) from h),
    mapM_slice (show runs ts = before ++ (init ++ [last]) ++ (after ++ []) by simpa using h)]
  exact congrArg Except.ok (List.map_append.symm)

/-! ### Trimming -/

lemma trimTrivia_around {pre post : List Token} (hpre : ∀ t ∈ pre, t.isTrivia = true)
    (hpost : ∀ t ∈ post, t.isTrivia = true) (ts : List Token) :
    trimTrivia (pre ++ ts ++ post) = trimTrivia ts := by
  rw [trimTrivia, dropWhile_append_reverse hpost, List.dropWhile_append_of_pos hpre, trimTrivia]

lemma trimTrivia_trimTrivia (ts : List Token) : trimTrivia (trimTrivia ts) = trimTrivia ts := by
  have hts : ts = ts.takeWhile isTrivia ++ trimTrivia ts
      ++ ((ts.dropWhile isTrivia).reverse.takeWhile isTrivia).reverse := by
    rw [trimTrivia, List.append_assoc, ← List.reverse_append, List.takeWhile_append_dropWhile,
      List.reverse_reverse, List.takeWhile_append_dropWhile]
  conv_rhs => rw [hts]
  refine (trimTrivia_around (fun t ht => List.mem_takeWhile_imp ht) (fun t ht => ?_) _).symm
  exact List.mem_takeWhile_imp (List.mem_reverse.mp ht)

lemma isTrivia_of_blank {us : List Token} (h : ∀ t ∈ us, t.kind = .blank) :
    ∀ t ∈ us, t.isTrivia = true :=
  fun t ht => by rw [isTrivia, h t ht]

lemma trimTrivia_gap (hr : r ∈ runs ts) (us : List Token) :
    trimTrivia (us ++ r.tokens) = trimTrivia (us ++ r.all) := by
  have h := trimTrivia_around (List.forall_mem_nil fun t : Token => t.isTrivia = true)
    (isTrivia_of_blank ((splitRuns_blank ts).2 r hr)) (us ++ r.tokens)
  rw [← h, Run.all]
  simp

lemma trimTrivia_lead (ts us : List Token) :
    trimTrivia ((splitRuns ts).1 ++ us) = trimTrivia us := by
  have h := trimTrivia_around (isTrivia_of_blank (splitRuns_blank ts).1)
    (List.forall_mem_nil fun t : Token => t.isTrivia = true) us
  rwa [List.append_nil] at h

lemma clock_congr {ts us : List Token} (h : trimTrivia ts = trimTrivia us) :
    Value.clock ts = Value.clock us := by
  rw [Value.clock, h, Value.clock]

/-! ### Readings -/

/-- **A day with a time by positions is the day with a time**: the clock time has a first and a last
run. -/
theorem dayTime_eq (tokens : List Token) : dayTime tokens = lift (Value.dayTime tokens) := by
  unfold dayTime Value.dayTime
  simp only [trim_eq, ok_bind]
  generalize trimTrivia tokens = ts
  have hall := Value.splitTime_append (runs ts)
  -- without a clock time both readings fail in the same way
  rcases timeSpan_cases ts with
    ⟨before, after, hsplit, hspan⟩ | ⟨before, init, last, after, hsplit, hspan⟩
  · rw [hsplit, hspan]
    rfl
  · rw [hsplit] at hall
    have hlast : last ∈ runs ts := by simp [← hall]
    -- the clock time starts with its first run, which may be its last
    obtain ⟨stop, hfirst⟩ : ∃ stop, get (spans ts) before.length = .ok (place ts before, stop) := by
      cases init with
      | nil => exact ⟨_, get_spans (show runs ts = before ++ last :: after by simp [← hall])⟩
      | cons r init =>
        exact ⟨_, get_spans
          (show runs ts = before ++ r :: (init ++ last :: after) by simp [← hall])⟩
    have hruns : runs ts = before ++ (init ++ last :: after) := by simp [← hall]
    have hstop := get_spans (show runs ts = (before ++ init) ++ last :: after by simp [hruns])
    have hslice := slice_runs hruns
    -- the gap behind the last run is trimmed off
    have hclock : Value.clock (init.flatMap Run.all ++ last.tokens)
        = Value.clock ((init ++ [last]).flatMap Run.all) := by
      rw [clock_congr (trimTrivia_gap hlast _)]
      simp
    rw [List.length_append] at hstop
    rw [hsplit, hspan]
    simp only [ok_bind, hfirst, hstop, hslice, clock_eq, hclock, others_eq hall.symm]
    rw [if_neg (by simp)]
    simp only [lift_bind]
    refine bind_congr fun clockValues => bind_congr fun parts => ?_
    cases parts.day <;> rfl

lemma isDated_eq (ts : List Token) : isDated ts = .ok (hasDateDash ts) := by
  obtain ⟨n, hn, hdash⟩ := dateDashes_eq ts
  rw [isDated, hn, ok_bind]
  exact congrArg Except.ok (Bool.eq_iff_iff.mpr (by rw [decide_eq_true_eq, hdash]))

/-- What there is beside a date that is the first or the last run. -/
def beside (before after : List Run) : Option (List Token) :=
  match before, after with
  | [], _ :: _ => some (after.flatMap Run.all)
  | _ :: _, [] => some (before.flatMap Run.all)
  | _, _ => none

lemma besideDate_eq {before after : List Run} (h : runs ts = before ++ r :: after) :
    ∃ time, besideDate ts (spans ts) before.length = .ok time
      ∧ time.map trimTrivia = (beside before after).map trimTrivia := by
  have hlength : (spans ts).length = before.length + (after.length + 1) := by simp [length_spans, h]
  rw [besideDate]
  -- the date is the first run, or another one comes before it
  rcases List.eq_nil_or_concat' before with rfl | ⟨init, last, rfl⟩
  · rw [List.length_nil, if_pos rfl]
    cases after with
    | nil =>
      rw [List.getElem?_eq_none (by simp [hlength])]
      exact ⟨none, rfl, rfl⟩
    | cons next after =>
      have hnext : (spans ts)[1]? = some (place ts [r], place ts [r] + next.tokens.length) :=
        getElem?_spans (show runs ts = [r] ++ next :: after from h)
      rw [hnext]
      simp only [slice_from (show runs ts = [r] ++ (next :: after) from h), ok_bind]
      exact ⟨_, rfl, rfl⟩
  · have hlast : runs ts = init ++ last :: (r :: after) := by simpa using h
    -- there is a span before the date, so one can be taken off both numbers
    have hsub : sub (spans ts).length 1 = .ok (init.length + 1 + after.length) := by
      rw [sub_eq (by omega), hlength, List.length_append, List.length_singleton]
      exact congrArg Except.ok (by omega)
    have hbefore : sub (init.length + 1) 1 = .ok init.length := sub_eq (Nat.le_add_left 1 _)
    rw [List.length_append, List.length_singleton, if_neg (by simp), hsub, ok_bind]
    cases after with
    | nil =>
      have hbeside : beside (init ++ [last]) [] = some ((init ++ [last]).flatMap Run.all) := by
        cases init <;> rfl
      rw [List.length_nil, Nat.add_zero, if_pos rfl, hbeside]
      simp only [hbefore, ok_bind, get_spans hlast, slice_upto hlast]
      refine ⟨_, rfl, ?_⟩
      -- a time in front goes up to its last run, without the gap behind that
      have htrim := trimTrivia_gap (show last ∈ runs ts by simp [hlast]) (init.flatMap Run.all)
      rw [List.append_assoc, Option.map_some, Option.map_some, trimTrivia_lead, htrim]
      simp
    | cons next after =>
      have hbeside : beside (init ++ [last]) (next :: after) = none := by cases init <;> rfl
      rw [if_neg (by simp), hbeside]
      exact ⟨none, rfl, rfl⟩

lemma lift_append (x y : Except Malformed Values) :
    (do return (← lift x) ++ (← lift y)) = lift (do return (← x) ++ (← y)) := by
  cases x <;> cases y <;> rfl

def withTime (whole : String) (run : List Token) (time : Option (List Token)) :
    Except Malformed Values :=
  match time with
  | none => throw (.dateAndTimeExpected whole)
  | some us => do return (← Value.date run) ++ (← Value.clock us)

lemma withTime_congr {time time' : Option (List Token)}
    (h : time.map trimTrivia = time'.map trimTrivia)
    (whole : String) (run : List Token) : withTime whole run time = withTime whole run time' := by
  rcases time with _ | us <;> rcases time' with _ | us'
  · rfl
  · cases h
  · cases h
  · rw [withTime, clock_congr (Option.some.inj h)]
    rfl

/-- **A date with a time by positions is the date with the time**, and the runs next to the date are
asked for where they are. -/
theorem dateTime_eq (tokens : List Token) : dateTime tokens = lift (Value.dateTime tokens) := by
  unfold dateTime Value.dateTime
  simp only [trim_eq, ok_bind]
  generalize trimTrivia tokens = ts
  -- looking at every span finds those of the dates
  have hselect : select (ask isDated ts (spans ts)) (List.range (spans ts).length)
      = .ok (positions (fun r => hasDateDash r.meaning) (runs ts)) := by
    rw [select_eq fun i hi => ask_range isDated_eq hi, length_spans, positions]
  rw [hselect, ok_bind]
  -- the runs divide at the first date, and a second one is refused
  rcases findIdx?_cases (fun r : Run => hasDateDash r.meaning) (runs ts) with
    ⟨-, hall, htake, hdrop⟩ | ⟨before, r, after, hruns, hr, hbefore, -, htake, hdrop⟩
  · rw [positions_eq_nil hall, hdrop]
    rfl
  · obtain ⟨more, hmore, hany⟩ := positions_append hbefore hr after
    have hget := get_spans hruns
    have hdate := slice_run hruns
    obtain ⟨time, htime, hbeside⟩ := besideDate_eq hruns
    rw [hruns, hmore, ← hruns, hdrop, htake]
    dsimp only
    rw [hany]
    cases more with
    | cons i more => rfl
    | nil =>
      simp only [hget, htime, hdate, ok_bind, date_eq, clock_eq]
      calc _ = lift (withTime (spelling ts) r.tokens time) := by
            cases time with
            | none => rfl
            | some us => exact lift_append _ _
        _ = lift (withTime (spelling ts) r.tokens (beside before after)) := by
            rw [withTime_congr hbeside]
        -- a date between two times is refused by both readings
        _ = _ := by
            rcases before with _ | ⟨b, before⟩ <;> rcases after with _ | ⟨a, after⟩ <;> rfl

/-! ### Values -/

/-- **A value by positions is the value.** -/
theorem read_eq (tokens : List Token) (default : Option TimeUnit) :
    read tokens default = lift (Value.read tokens default) := by
  have hdateTime : Value.dateTime (trimTrivia tokens) = Value.dateTime tokens := by
    simp only [Value.dateTime, trimTrivia_trimTrivia]
  have hdayTime : Value.dayTime (trimTrivia tokens) = Value.dayTime tokens := by
    simp only [Value.dayTime, trimTrivia_trimTrivia]
  have hdate : Value.date (trimTrivia tokens) = Value.date tokens := by
    simp only [Value.date, trimTrivia_trimTrivia]
  have hclock := clock_congr (trimTrivia_trimTrivia tokens)
  unfold read Value.read
  simp only [trim_eq, isDated_eq, ok_bind, dateTime_eq, dayTime_eq, date_eq, clock_eq, hdateTime,
    hdayTime, hdate, hclock]
  split
  · rfl
  · generalize (significant (trimTrivia tokens)).any _ = special
    cases isTimed (significant (trimTrivia tokens))
      <;> cases hasDateDash (significant (trimTrivia tokens)) <;>
      cases special <;> rfl

end Recurrence.Indexed
