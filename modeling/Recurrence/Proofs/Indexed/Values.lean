import Recurrence.Value.Date
import Recurrence.Proofs.Indexed.Basic
import Recurrence.Proofs.Value.ClockTimes

/-!
Clock times and dates by positions. A clock time with an odd number of tokens has a first field, and
a date has one whatever its tokens are, so the field that is asked for is there.

Main statements: `trim_eq`, `dateDashes_eq`, `clock_eq` and `date_eq`.
-/

namespace Recurrence.Indexed

open Token
open Value (isDateDash hasDateDash isYear dateField)
open Value (rejectUnit blankAtColon splitMeridiem clockNumbers clockHour)

def trim (ts : List Token) : Reading (List Token) :=
  let start := (ts.findIdx? fun t => !t.isTrivia).getD ts.length
  let stop := ((lastIdx? (fun t => !t.isTrivia) ts).map (· + 1)).getD start
  slice ts start stop

lemma trim_eq (ts : List Token) : trim ts = .ok (trimTrivia ts) := by
  unfold trim
  rcases findIdx?_cases (fun t => !t.isTrivia) ts with
    ⟨hidx, hall, -⟩ | ⟨pre, t, post, rfl, ht, hpre, hidx, -⟩
  · have hdrop : ts.dropWhile isTrivia = [] :=
      List.dropWhile_eq_nil_iff.mpr fun t ht => by simpa using hall t ht
    -- nothing but trivia: no first token to keep, and no last one
    rcases lastIdx?_cases (fun t => !t.isTrivia) ts with
      ⟨hlast, -⟩ | ⟨pre, t, post, rfl, ht, -⟩
    · simpa [hidx, hlast, trimTrivia, hdrop] using slice_suffix ts []
    · rw [hall t (by simp)] at ht
      cases ht
  -- what is kept goes from the first token that is not trivia to the last
  · rcases lastIdx?_cases (fun t => !t.isTrivia) (t :: post) with
      ⟨-, hall⟩ | ⟨mid, s, suf, hmid, hs, hsuf, hlast⟩
    · rw [hall t (by simp)] at ht
      cases ht
    -- it starts and ends with tokens that are not, so trimming stops there
    · have htrimmed : Trimmed (mid ++ [s]) := by
        refine ⟨?_, s, by simp, by simpa using hs⟩
        cases mid with
        | nil => exact ⟨s, rfl, by simpa using hs⟩
        | cons m mid =>
          obtain rfl : t = m := by simpa using congrArg List.head? hmid
          exact ⟨t, rfl, by simpa using ht⟩
      have htrim := trimTrivia_append htrimmed (fun t ht => by simpa using hpre t ht)
        (fun t ht => by simpa using hsuf t ht)
      rw [hidx, lastIdx?_append _ pre hlast, hmid]
      have hslice := slice_append pre (mid ++ [s]) suf
      simp only [List.append_assoc, List.singleton_append] at htrim hslice
      simp only [Option.getD_some, Option.map_some, htrim]
      simpa [Nat.add_assoc] using hslice

/-! ### Date dashes -/

def isEdge (t : Token) : Bool :=
  match t.kind with
  | .special day => day.takesOffset
  | _ => false

/-- Whether the token before a position is an edge and the one after it a number. -/
def isOffset (ts : List Token) (i : Nat) : Bool :=
  let afterEdge :=
    match i with
    | 0 => false
    | before + 1 => ts[before]?.any isEdge
  afterEdge && ts[i + 1]?.any fun n => n.kind = .number

def dashAt (ts : List Token) (i : Nat) : Reading Bool := do
  let t ← get ts i
  return t.kind = .dash && !isOffset ts i

def dateDashes (ts : List Token) : Reading Nat := do
  return (← select (dashAt ts) (List.range ts.length)).length

variable {ts : List Token}

lemma isDateDash_eq (left : Option Token) (t : Token) (rest : List Token) : isDateDash left t rest
    = (decide (t.kind = .dash) && !(left.any isEdge && rest.head?.any fun n => n.kind = .number)) :=
  rfl

lemma isOffset_append (pre : List Token) (t : Token) (rest : List Token) :
    (decide (t.kind = .dash) && !isOffset (pre ++ t :: rest) pre.length)
      = isDateDash pre.getLast? t rest := by
  have hafter : (pre ++ t :: rest)[pre.length + 1]? = rest.head? := by
    rw [List.getElem?_append_right (by omega), List.head?_eq_getElem?]
    simp
  unfold isOffset
  rw [isDateDash_eq, hafter]
  rcases List.eq_nil_or_concat pre with rfl | ⟨pre, s, rfl⟩
  · rfl
  · have hbefore : (pre ++ [s] ++ t :: rest)[pre.length]? = some s := by simp
    have hlast : (pre ++ [s]).getLast? = some s := List.getLast?_concat
    rw [List.concat_eq_append, List.length_append, List.length_singleton, hlast]
    simp only [hbefore]

def isDashAt (ts : List Token) (i : Nat) : Bool :=
  (ts[i]?.any fun t => t.kind = .dash) && !isOffset ts i

lemma dashAt_eq {i : Nat} (hi : i < ts.length) : dashAt ts i = .ok (isDashAt ts i) := by
  rw [dashAt, get_eq (List.getElem?_eq_getElem hi), isDashAt, List.getElem?_eq_getElem hi]
  rfl

lemma isDashAt_append (pre : List Token) (t : Token) (rest : List Token) :
    isDashAt (pre ++ t :: rest) pre.length = isDateDash pre.getLast? t rest := by
  rw [← isOffset_append, isDashAt]
  simp

lemma length_dateFields (pre ts : List Token) : (Value.dateFields pre.getLast? ts).length
    = ((List.range' pre.length ts.length).filter (isDashAt (pre ++ ts))).length + 1 := by
  induction ts generalizing pre with
  | nil => rfl
  | cons t ts ih =>
    have hrest := ih (pre ++ [t])
    rw [List.append_assoc, List.singleton_append, List.length_append, List.length_singleton,
      List.getLast?_append, List.getLast?_singleton, Option.some_or] at hrest
    rw [List.length_cons, List.range'_succ, List.filter_cons, isDashAt_append, Value.dateFields]
    split
    · rw [List.length_cons, List.length_cons, hrest]
    · rw [← hrest]
      cases hfields : Value.dateFields (some t) ts with
      | nil => exact absurd hfields (Value.dateFields_ne_nil _ _)
      | cons field fields => rfl

theorem dateDashes_eq (ts : List Token) :
    ∃ n, dateDashes ts = .ok n ∧ (0 < n ↔ hasDateDash ts = true) := by
  have hselect : select (dashAt ts) (List.range ts.length)
      = .ok ((List.range ts.length).filter (isDashAt ts)) :=
    select_eq fun i hi => dashAt_eq (List.mem_range.mp hi)
  have hlength := length_dateFields [] ts
  refine ⟨_, by rw [dateDashes, hselect]; rfl, ?_⟩
  rw [List.nil_append, List.length_nil, ← List.range_eq_range', List.getLast?_nil] at hlength
  rw [hasDateDash, hlength, decide_eq_true_eq]
  omega

/-! ### Dates -/

/-- Adds a token to the fields of a date, or opens another one after a date dash. -/
def addToDate (ts : List Token) (fields : List (List Token)) (p : Token × Nat) :
    List (List Token) :=
  if p.1.kind = .dash && !isOffset ts p.2 then fields ++ [[]]
  else match fields.getLast? with
  | some field => fields.dropLast ++ [field ++ [p.1]]
  | none => fields

def dateFields (ts : List Token) : List (List Token) := ts.zipIdx.foldl (addToDate ts) [[]]

def date (tokens : List Token) : Reading Values := do
  let ts ← trim tokens
  let whole := spelling ts
  if ts.any fun t => t.kind = .blank then fail (.blankInDate whole)
  else
    lift (rejectUnit (significant ts) .date)
    let fields := dateFields (significant ts)
    if 3 < fields.length then fail (.tooManyDashes whole)
    else if fields.any List.isEmpty then fail (.nothingAroundDash whole)
    else
      let first ← get fields 0
      let units :=
        if isYear first then [TimeUnit.year, .month, .day] else [.month, .day]
      if units.length < fields.length then fail (.tooManyDateFields whole)
      else lift ((units.zip fields).mapM fun (unit, field) => return (unit, ← dateField unit field))

lemma foldl_addToDate (pre ts : List Token) (done : List (List Token)) (cur : List Token) :
    (ts.zipIdx pre.length).foldl (addToDate (pre ++ ts)) (done ++ [cur])
      = match Value.dateFields pre.getLast? ts with
        | [] => done ++ [cur]
        | field :: fields => done ++ (cur ++ field) :: fields := by
  induction ts generalizing pre done cur with
  | nil => simp [Value.dateFields]
  | cons t ts ih =>
    have hrest := ih (pre ++ [t])
    simp only [List.append_assoc, List.singleton_append, List.length_append, List.length_singleton,
      List.getLast?_append, List.getLast?_singleton, Option.some_or] at hrest
    rw [List.zipIdx_cons, List.foldl_cons, addToDate, isOffset_append, Value.dateFields]
    cases hfields : Value.dateFields (some t) ts with
    | nil => exact absurd hfields (Value.dateFields_ne_nil _ _)
    | cons field fields =>
      simp only [hfields] at hrest
      split
      · rw [hrest]
        simp
      · rw [List.getLast?_concat, List.dropLast_concat]
        simp only [hrest]
        simp

lemma dateFields_eq (ts : List Token) : dateFields ts = Value.dateFields none ts := by
  have h := foldl_addToDate [] ts [] []
  rw [List.nil_append, List.nil_append, List.length_nil, List.getLast?_nil] at h
  rw [dateFields, h]
  cases hfields : Value.dateFields none ts with
  | nil => exact absurd hfields (Value.dateFields_ne_nil none ts)
  | cons field fields => rfl

/-- **A date by positions is the date**, and has a first field. -/
theorem date_eq (tokens : List Token) : date tokens = lift (Value.date tokens) := by
  unfold date Value.date
  simp only [trim_eq, ok_bind, dateFields_eq]
  split
  · rfl
  cases rejectUnit (significant (trimTrivia tokens)) .date with
  | error cause => rfl
  | ok u =>
    cases hfields : Value.dateFields none (significant (trimTrivia tokens)) with
    | nil => exact absurd hfields (Value.dateFields_ne_nil _ _)
    | cons field fields =>
      have hfirst : get (field :: fields) 0 = .ok field := rfl
      have hhead : (field :: fields).head?.any isYear = isYear field := rfl
      rw [hhead]
      simp only [hfirst, ok_bind]
      by_cases hyear : isYear field = true
      · simp only [if_pos hyear]
        split_ifs <;> rfl
      · simp only [if_neg hyear]
        split_ifs <;> rfl

/-! ### Clock times -/

/-- Adds the text of a number to the fields of a clock time. Numbers stand at even positions, colons
between them. -/
def addToClock (whole : String) (fields : List String) (p : Token × Nat) :
    Except Malformed (List String) :=
  if p.2 % 2 = 0 then
    if p.1.kind = .number then .ok (fields ++ [p.1.text])
    else .error (.unexpectedInClock p.1.text whole)
  else if p.1.kind = .colon then .ok fields
  else .error (.unexpectedInClock p.1.text whole)

def clock (tokens : List Token) : Reading Values := do
  let ts ← trim tokens
  let whole := spelling ts
  if blankAtColon ts then fail (.blankAroundColon whole)
  else
    lift (rejectUnit (significant ts) .clockTime)
    let (words, half) := splitMeridiem (significant ts)
    let fields ← lift (words.zipIdx.foldlM (addToClock whole) [])
    if words.length % 2 = 0 then fail (.nothingAfterColon whole)
    else if 3 < fields.length then fail (.tooManyColons whole)
    else
      let hour ← lift (clockHour half (← get fields 0))
      let rest ← slice fields 1 fields.length
      return (.hour, hour) :: (rest.zip [TimeUnit.minute, .second]).map fun (text, unit) =>
        (unit, Text.dropZeros text)

lemma foldlM_addToClock (whole : String) (ts : List Token) {k : Nat} (hk : k % 2 = 0)
    (fields : List String) :
    ((ts.zipIdx k).foldlM (addToClock whole) fields >>= fun all =>
        if ts.length % 2 = 0 then .error (.nothingAfterColon whole) else .ok all)
      = (fields ++ ·) <$> clockNumbers whole ts := by
  induction ts using List.twoStepInduction generalizing k fields with
  | nil => rfl
  | singleton n =>
    rw [clockNumbers, List.zipIdx_cons, List.foldlM_cons, addToClock, if_pos hk]
    split <;> rfl
  | cons_cons n c ts ih _ =>
    have hnext : (k + 1) % 2 ≠ 0 := by omega
    have hlength : (n :: c :: ts).length % 2 = ts.length % 2 := by
      rw [List.length_cons, List.length_cons]
      omega
    rw [clockNumbers, hlength, List.zipIdx_cons, List.zipIdx_cons, List.foldlM_cons, addToClock,
      if_pos hk]
    by_cases hn : n.kind = .number
    · rw [if_pos hn, if_neg (not_not.mpr hn), ok_bind, List.foldlM_cons, addToClock, if_neg hnext]
      by_cases hc : c.kind = .colon
      · rw [if_pos hc, if_neg (not_not.mpr hc), ok_bind, ih (by omega)]
        cases clockNumbers whole ts with
        | error cause => rfl
        | ok texts => exact congrArg Except.ok (List.append_assoc fields [n.text] texts)
      · rw [if_neg hc, if_pos hc]
        rfl
    · rw [if_neg hn, if_pos hn]
      rfl

lemma clockNumbers_ne_nil {whole : String} {ts : List Token} {texts : List String}
    (h : clockNumbers whole ts = .ok texts) : texts ≠ [] := by
  cases Value.clockNumbers_eq_ok_iff.mp h <;> simp

/-- **A clock time by positions is the clock time**: an odd number of tokens has a first field. -/
theorem clock_eq (tokens : List Token) : clock tokens = lift (Value.clock tokens) := by
  unfold clock Value.clock
  simp only [trim_eq, ok_bind]
  split
  · rfl
  cases rejectUnit (significant (trimTrivia tokens)) .clockTime with
  | error cause => rfl
  | ok u =>
    obtain ⟨words, half⟩ := splitMeridiem (significant (trimTrivia tokens))
    -- the fold over numbered tokens collects the numbers between colons
    have hnumbers := foldlM_addToClock (spelling (trimTrivia tokens)) words (k := 0) rfl []
    simp only [List.nil_append, id_map'] at hnumbers
    simp only [lift_ok, ok_bind, ← hnumbers]
    cases hfields : words.zipIdx.foldlM (addToClock (spelling (trimTrivia tokens))) [] with
    | error cause => rfl
    | ok fields =>
      rw [hfields, ok_bind] at hnumbers
      simp only [ok_bind]
      split_ifs at hnumbers ⊢ with hodd
      · rfl
      -- there is a first number, since the tokens do not end before one
      · match fields, clockNumbers_ne_nil hnumbers.symm with
        | h :: more, _ =>
          have hfirst : get (h :: more) 0 = .ok h := rfl
          simp only [lift_ok, ok_bind, hfirst]
          match more with
          | [] | [_] | [_, _] =>
            dsimp only
            cases clockHour half h <;> rfl
          | _ :: _ :: _ :: _ =>
            rw [if_pos (by simp)]
            rfl

end Recurrence.Indexed
