import Recurrence.Proofs.Value.Forms

/-!
Values of recast tokens. When the letters of tokens are changed for others and their places are
forgotten, every reader of values gives the same result, with the same change in its texts.

Main statement: `read_recast`.
-/

namespace Recurrence

/-- A change of characters that leaves digits and blanks as they are. -/
structure Text.Recast (f : Char → Char) : Prop where
  digit : ∀ c : Char, c.isDigit = true → f c = c
  isDigit : ∀ c : Char, (f c).isDigit = c.isDigit
  blank : f ' ' = ' '

def Token.recast (f : Char → Char) (t : Token) : Token := ⟨t.kind, t.text.map f, 0, 0, 0, none⟩

def Values.recast (f : Char → Char) (vs : Values) : Values := vs.map fun v => (v.1, v.2.map f)

/-! ### Readings side by side -/

/-- Two readings fail together, and what the second gives is made of what the first gives. -/
inductive Carries {α β : Type} (g : α → β) : Except Malformed α → Except Malformed β → Prop
  | ok (a : α) : Carries g (.ok a) (.ok (g a))
  | error (cause cause' : Malformed) : Carries g (.error cause) (.error cause')

namespace Carries

variable {α β γ δ : Type} {g : α → β} {k : γ → δ} {x : Except Malformed α} {y : Except Malformed β}

lemma pure_eq {a : α} {b : β} (h : b = g a) : Carries g (pure a) (pure b) := h ▸ .ok a

lemma bind {f : α → Except Malformed γ} {f' : β → Except Malformed δ} (h : Carries g x y)
    (hf : ∀ a, Carries k (f a) (f' (g a))) : Carries k (x >>= f) (y >>= f') := by
  cases h with
  | ok a => exact hf a
  | error e e' => exact .error e e'

lemma map {f : α → γ} {f' : β → δ} (h : Carries g x y) (hf : ∀ a, f' (g a) = k (f a)) :
    Carries k (x.map f) (y.map f') := by
  cases h with
  | ok a => exact pure_eq (hf a)
  | error e e' => exact .error e e'

lemma ite {p q : Prop} [Decidable p] [Decidable q] {x x' : Except Malformed γ}
    {y y' : Except Malformed δ}
    (hpq : q ↔ p) (h : p → Carries k x y) (h' : ¬p → Carries k x' y') :
    Carries k (if p then x else x') (if q then y else y') := by
  by_cases hp : p
  · rw [if_pos hp, if_pos (hpq.2 hp)]
    exact h hp
  · rw [if_neg hp, if_neg (mt hpq.1 hp)]
    exact h' hp

lemma guard {p q : Prop} [Decidable p] [Decidable q] (hpq : q ↔ p) (cause cause' : Malformed)
    {f : PUnit → Except Malformed γ} {f' : PUnit → Except Malformed δ}
    (h : Carries k (f ⟨⟩) (f' ⟨⟩)) :
    Carries k (if p then throw cause >>= f else f ⟨⟩) (if q then throw cause' >>= f' else f' ⟨⟩) :=
  .ite hpq (fun _ => .error cause cause') fun _ => h

lemma mapM {ι κ : Type} {i : ι → κ} {f : ι → Except Malformed γ} {f' : κ → Except Malformed δ}
    {l : List ι} (h : ∀ a, Carries k (f a) (f' (i a))) :
    Carries (List.map k) (l.mapM f) ((l.map i).mapM f') := by
  induction l with
  | nil => exact .ok []
  | cons a l ih =>
    rw [List.map_cons, List.mapM_cons, List.mapM_cons]
    exact (h a).bind fun c => ih.bind fun cs => .ok (c :: cs)

lemma foldlM {ι κ : Type} {i : ι → κ} {f : γ → ι → Except Malformed γ}
    {f' : δ → κ → Except Malformed δ}
    (h : ∀ c a, Carries k (f c a) (f' (k c) (i a))) (l : List ι) (c : γ) :
    Carries k (l.foldlM f c) ((l.map i).foldlM f' (k c)) := by
  induction l generalizing c with
  | nil => exact .ok c
  | cons a l ih =>
    rw [List.map_cons, List.foldlM_cons, List.foldlM_cons]
    exact (h c a).bind ih

end Carries

/-! ### Texts -/

namespace Text

variable {f : Char → Char}

@[simp] lemma map_append (f : Char → Char) (s t : String) :
    (s ++ t).map f = s.map f ++ t.map f := by
  apply String.toList_inj.1
  simp [String.toList_map]

@[simp] lemma map_empty (f : Char → Char) : "".map f = "" := by
  apply String.toList_inj.1
  simp [String.toList_map]

lemma map_eq_empty {s : String} : s.map f = "" ↔ s = "" := by
  rw [← String.toList_eq_nil_iff, String.toList_map, List.map_eq_nil_iff, String.toList_eq_nil_iff]

lemma Recast.map_of_isNumeral (hf : Recast f) {s : String} (hs : isNumeral s = true) :
    s.map f = s := by
  apply String.toList_inj.1
  rw [String.toList_map]
  conv_rhs => rw [← List.map_id s.toList]
  exact List.map_congr_left fun c hc => hf.digit c (List.all_eq_true.1 hs c hc)

lemma Recast.map_toString (hf : Recast f) (n : Nat) : (toString n).map f = toString n :=
  hf.map_of_isNumeral (isNumeral_toString n)

lemma Recast.isNumeral_map (hf : Recast f) (s : String) : isNumeral (s.map f) = isNumeral s := by
  rw [isNumeral, isNumeral, String.toList_map, List.all_map]
  exact congrArg s.toList.all (funext hf.isDigit)

lemma Recast.word?_map (hf : Recast f) (s : String) : word? (s.map f) = word? s := by
  by_cases hs : isNumeral s = true
  · rw [hf.map_of_isNumeral hs]
  · have hs' : ¬ isNumeral (s.map f) = true := by rwa [hf.isNumeral_map]
    rw [word?, word?, if_neg fun h => hs' h.2.1, if_neg fun h => hs h.2.1]

lemma Recast.eq_digit_iff (hf : Recast f) {c d : Char} (hd : d.isDigit = true) :
    f c = d ↔ c = d := by
  constructor
  · rintro rfl
    rw [hf.isDigit] at hd
    exact (hf.digit c hd).symm
  · rintro rfl
    exact hf.digit c hd

lemma Recast.dropZeros_map (hf : Recast f) (s : String) :
    dropZeros (s.map f) = (dropZeros s).map f := by
  have hzeros : s.toList.dropWhile ((fun c => decide (c = '0')) ∘ f)
      = s.toList.dropWhile fun c => decide (c = '0') := by
    congr 1
    funext c
    exact decide_eq_decide.2 (hf.eq_digit_iff rfl)
  unfold dropZeros
  rw [String.toList_map, List.dropWhile_map, hzeros]
  cases s.toList.dropWhile fun c => decide (c = '0') with
  | nil => exact (hf.map_toString 0).symm
  | cons c cs =>
    apply String.toList_inj.1
    simp [String.toList_map]

end Text

/-! ### Tokens -/

namespace Token

variable {f : Char → Char}

@[simp] lemma kind_recast (f : Char → Char) (t : Token) : (t.recast f).kind = t.kind := rfl

@[simp] lemma text_recast (f : Char → Char) (t : Token) : (t.recast f).text = t.text.map f := rfl

@[simp] lemma isGlue_recast (f : Char → Char) (t : Token) : (t.recast f).isGlue = t.isGlue := rfl

@[simp] lemma unit?_recast (f : Char → Char) (t : Token) : (t.recast f).unit? = t.unit? := rfl

lemma significant_recast (f : Char → Char) (ts : List Token) :
    significant (ts.map (recast f)) = (significant ts).map (recast f) := List.filter_map

lemma trimTrivia_recast (f : Char → Char) (ts : List Token) :
    trimTrivia (ts.map (recast f)) = (trimTrivia ts).map (recast f) := by
  have htrivia : isTrivia ∘ recast f = isTrivia := rfl
  rw [trimTrivia, trimTrivia, List.dropWhile_map, htrivia, ← List.map_reverse, List.dropWhile_map,
    htrivia, List.map_reverse]

lemma joinAfter_recast (hf : Text.Recast f) (t : Token) (ts : List Token) :
    joinAfter (t.recast f) (ts.map (recast f)) = (joinAfter t ts).map f := by
  have hspace (b : Bool) :
      (if b = true then "" else " ") = (if b = true then "" else " " : String).map f := by
    apply String.toList_inj.1
    cases b <;> simp [String.toList_map, hf.blank]
  induction ts generalizing t with
  | nil => exact (Text.map_empty f).symm
  | cons u us ih =>
    simp only [List.map_cons, joinAfter, ih, isGlue_recast, text_recast, Text.map_append]
    exact congrArg (· ++ _ ++ _) (hspace _)

lemma join_recast (hf : Text.Recast f) (ts : List Token) :
    join (ts.map (recast f)) = (join ts).map f := by
  cases ts with
  | nil => exact (Text.map_empty f).symm
  | cons t ts => rw [List.map_cons, join, join, joinAfter_recast hf, Text.map_append, text_recast]

lemma spelling_recast (hf : Text.Recast f) (ts : List Token) :
    spelling (ts.map (recast f)) = (spelling ts).map f := by
  rw [spelling, spelling, significant_recast, join_recast hf]

def Run.recast (f : Char → Char) (r : Run) : Run :=
  ⟨r.tokens.map (Token.recast f), r.gap.map (Token.recast f)⟩

lemma Run.all_recast (f : Char → Char) (r : Run) :
    (r.recast f).all = r.all.map (Token.recast f) := by
  rw [Run.all, Run.all, List.map_append]
  rfl

lemma Run.meaning_recast (f : Char → Char) (r : Run) :
    (r.recast f).meaning = r.meaning.map (Token.recast f) := significant_recast f r.tokens

lemma splitRuns_recast (f : Char → Char) (ts : List Token) : splitRuns (ts.map (recast f))
    = ((splitRuns ts).1.map (recast f), (splitRuns ts).2.map (Run.recast f)) := by
  induction ts with
  | nil => rfl
  | cons t ts ih =>
    rw [List.map_cons, splitRuns, splitRuns, ih]
    rcases splitRuns ts with ⟨lead, runs⟩
    by_cases ht : t.kind = .blank
    · simp [ht]
    · cases lead <;> cases runs <;> simp [ht, Run.recast]

lemma runs_recast (f : Char → Char) (ts : List Token) :
    runs (ts.map (recast f)) = (runs ts).map (Run.recast f) := by
  rw [runs, runs, splitRuns_recast]

end Token

/-! ### Values -/

namespace Value

open Token

variable {f : Char → Char}

lemma special?_recast (hf : Text.Recast f) (ts : List Token) :
    special? (ts.map (recast f)) = (special? ts).map fun p => (p.1, p.2.map f) := by
  -- the map leaves digits, signs and blanks alone
  have hspace (s : String) : s.map f ++ " " = (s ++ " ").map f := by
    apply String.toList_inj.1
    simp [String.toList_map, hf.blank]
  have hoffset {b : Bool} {p q : SpecialDay × String} (h : q = (p.1, p.2.map f)) :
      (if b = true then some q else none)
        = (if b = true then some p else none).map fun p => (p.1, p.2.map f) := by
    cases b
    · rfl
    · exact congrArg some h
  rcases ts with _ | ⟨head, rest⟩
  · rfl
  unfold special?
  rw [List.map_cons]
  dsimp only [kind_recast]
  -- the kinds of the tokens stay, so the same branch is taken
  cases head.kind with
  | special day =>
    cases day with
    | ordinal n =>
      rcases rest with _ | ⟨a, rest⟩
      · exact congrArg (fun s => some (SpecialDay.ordinal n, s)) (hf.map_toString n).symm
      · rfl
    | closestWeekday =>
      rcases rest with _ | ⟨a, _ | ⟨b, rest⟩⟩
      · rfl
      · by_cases ha : a.kind = .number
        · simp [ha, hspace, hf.dropZeros_map]
        · simp [ha]
      · rfl
    | edge _ | edgeDay _ | edgeWeekday _ | nthWeekday _ =>
      rcases rest with _ | ⟨a, _ | ⟨b, _ | ⟨c, rest⟩⟩⟩
      · rfl
      · rfl
      · exact hoffset (by simp [hf.dropZeros_map])
      · rfl
  | _ => rfl

lemma rejectUnit_recast (f : Char → Char) (ts : List Token) (format : ValueFormat) :
    Carries id (rejectUnit ts format) (rejectUnit (ts.map (recast f)) format) := by
  have hunit : (fun t : Token => t.unit?.isSome) ∘ recast f = fun t => t.unit?.isSome := rfl
  unfold rejectUnit
  rw [List.find?_map, hunit]
  cases ts.find? fun t => t.unit?.isSome with
  | none => exact .ok _
  | some word => exact .error _ _

lemma explicitUnit_recast (f : Char → Char) (ts : List Token) :
    Carries (fun p => (p.1, p.2.map (recast f))) (explicitUnit ts)
      (explicitUnit (ts.map (recast f))) := by
  have hsome : (fun t : Token => t.unit?.isSome) ∘ recast f = fun t => t.unit?.isSome := rfl
  have hnone : (fun t : Token => t.unit?.isNone) ∘ recast f = fun t => t.unit?.isNone := rfl
  unfold explicitUnit
  dsimp only
  rw [List.filter_map, List.filter_map, hsome, hnone]
  generalize (ts.filter fun t => t.unit?.isSome) = words
  rcases words with _ | ⟨word, _ | ⟨extra, rest⟩⟩
  · exact .ok _
  · exact .ok _
  · exact .error _ _

/-! #### Clock times -/

lemma blankAtColon_recast (f : Char → Char) (ts : List Token) :
    blankAtColon (ts.map (recast f)) = blankAtColon ts := by
  unfold blankAtColon
  rw [← List.map_tail, List.zip_map, List.any_map]
  rfl

lemma clockNumbers_recast (f : Char → Char) (whole whole' : String) : ∀ ts : List Token,
    Carries (List.map (String.map f)) (clockNumbers whole ts)
      (clockNumbers whole' (ts.map (recast f)))
  | [] => .error _ _
  | [_] => .ite Iff.rfl (fun _ => .ok [_]) fun _ => .error _ _
  | _ :: _ :: rest => .ite Iff.rfl (fun _ => .error _ _) fun _ =>
    .ite Iff.rfl (fun _ => .error _ _) fun _ =>
      (clockNumbers_recast f whole whole' rest).map fun _ => rfl

lemma clockHour_recast (hf : Text.Recast f) (half : Option Meridiem) (text : String) :
    Carries (String.map f) (clockHour half text) (clockHour half (text.map f)) := by
  unfold clockHour
  rw [hf.dropZeros_map]
  cases half with
  | none => exact .ok _
  | some half =>
    dsimp only
    rw [hf.word?_map]
    cases Text.word? (Text.dropZeros text) with
    | none => exact .error _ _
    | some h =>
      dsimp only
      split_ifs
      · exact .pure_eq (hf.map_toString _).symm
      · exact .error _ _

lemma splitMeridiem_recast (f : Char → Char) (ts : List Token) :
    splitMeridiem (ts.map (recast f))
      = ((splitMeridiem ts).1.map (recast f), (splitMeridiem ts).2) := by
  unfold splitMeridiem
  rw [List.getLast?_map]
  cases ts.getLast? with
  | none => rfl
  | some last =>
    rw [Option.map_some]
    dsimp only [kind_recast]
    cases last.kind <;> simp

lemma clock_recast (hf : Text.Recast f) (ts : List Token) :
    Carries (Values.recast f) (clock ts) (clock (ts.map (recast f))) := by
  unfold clock
  dsimp only
  rw [trimTrivia_recast, significant_recast, splitMeridiem_recast, blankAtColon_recast]
  refine .guard Iff.rfl _ _ ((rejectUnit_recast f _ _).bind fun _ => ?_)
  refine (clockNumbers_recast f _ _ _).bind fun texts => ?_
  rcases texts with _ | ⟨h, _ | ⟨m, _ | ⟨s, _ | ⟨r, rest⟩⟩⟩⟩
  · exact .error _ _
  · exact (clockHour_recast hf _ h).bind fun _ => .ok _
  · exact (clockHour_recast hf _ h).bind fun _ =>
      .pure_eq (by simp [Values.recast, hf.dropZeros_map])
  · exact (clockHour_recast hf _ h).bind fun _ =>
      .pure_eq (by simp [Values.recast, hf.dropZeros_map])
  · exact .error _ _

/-! #### Dates -/

lemma isDateDash_recast (f : Char → Char) (left : Option Token) (t : Token) (rest : List Token) :
    isDateDash (left.map (recast f)) (t.recast f) (rest.map (recast f))
      = isDateDash left t rest := by
  unfold isDateDash
  rw [List.head?_map, Option.any_map, Option.any_map]
  rfl

lemma dateFields_recast (f : Char → Char) (left : Option Token) (ts : List Token) :
    dateFields (left.map (recast f)) (ts.map (recast f))
      = (dateFields left ts).map (List.map (recast f)) := by
  induction ts generalizing left with
  | nil => rfl
  | cons t ts ih =>
    have hrest := ih (some t)
    rw [Option.map_some] at hrest
    rw [List.map_cons, dateFields, dateFields, isDateDash_recast, hrest]
    split_ifs
    · rfl
    · cases dateFields (some t) ts <;> rfl

lemma dateFields_none_recast (f : Char → Char) (ts : List Token) :
    dateFields none (ts.map (recast f)) = (dateFields none ts).map (List.map (recast f)) :=
  dateFields_recast f none ts

lemma hasDateDash_recast (f : Char → Char) (ts : List Token) :
    hasDateDash (ts.map (recast f)) = hasDateDash ts := by
  rw [hasDateDash, hasDateDash, dateFields_none_recast, List.length_map]

lemma isYear_recast (f : Char → Char) :
    ∀ field : List Token, isYear (field.map (recast f)) = isYear field
  | [] => rfl
  | [t] => by
    show (_ && decide ((t.text.map f).length = 4)) = (_ && decide (t.text.length = 4))
    rw [String.length_map]
    rfl
  | _ :: _ :: _ => rfl

lemma special_dateField_recast (hf : Text.Recast f) (u : TimeUnit) (field : List Token)
    (cause cause' : Malformed) : Carries (String.map f)
      (match u, special? field with
        | .month, some (.edge _, value) => .ok value
        | .day, some (.closestWeekday, _) => .error cause
        | .day, some (_, value) => .ok value
        | _, _ => .error cause)
      (match u, special? (field.map (recast f)) with
        | .month, some (.edge _, value) => .ok value
        | .day, some (.closestWeekday, _) => .error cause'
        | .day, some (_, value) => .ok value
        | _, _ => .error cause') := by
  rw [special?_recast hf]
  rcases special? field with _ | ⟨day, value⟩
  · cases u <;> exact .error _ _
  · cases u <;> cases day <;> first | exact .ok _ | exact .error _ _

lemma dateField_recast (hf : Text.Recast f) (u : TimeUnit) (field : List Token) :
    Carries (String.map f) (dateField u field) (dateField u (field.map (recast f))) := by
  rcases field with _ | ⟨t, _ | ⟨t', rest⟩⟩
  · exact special_dateField_recast hf u [] _ _
  · refine .ite Iff.rfl (fun _ => .pure_eq (hf.dropZeros_map _)) fun _ =>
      .ite Iff.rfl (fun _ => .ok _) fun _ => ?_
    exact special_dateField_recast hf u [t] _ _
  · exact special_dateField_recast hf u (t :: t' :: rest) _ _

lemma date_recast (hf : Text.Recast f) (ts : List Token) :
    Carries (Values.recast f) (date ts) (date (ts.map (recast f))) := by
  have hempty : List.isEmpty ∘ List.map (recast f) = List.isEmpty :=
    funext fun field => by cases field <;> rfl
  have hyear : (fun field : List Token => isYear (field.map (recast f))) = isYear :=
    funext (isYear_recast f)
  unfold date
  dsimp only
  rw [trimTrivia_recast, significant_recast, dateFields_none_recast, List.length_map, List.any_map,
    List.any_map, List.head?_map, Option.any_map, hempty, hyear, List.zip_map_right]
  refine .guard Iff.rfl _ _ ((rejectUnit_recast f _ _).bind fun _ => ?_)
  refine .guard Iff.rfl _ _ (.guard Iff.rfl _ _ (.guard Iff.rfl _ _ (.mapM fun p => ?_)))
  exact (dateField_recast hf p.1 p.2).bind fun _ => .ok _

/-! #### Days and times -/

lemma isTimed_recast (f : Char → Char) (ts : List Token) :
    isTimed (ts.map (recast f)) = isTimed ts := by
  rw [isTimed, isTimed, List.any_map]
  rfl

lemma recast_append (f : Char → Char) (vs ws : Values) :
    Values.recast f (vs ++ ws) = Values.recast f vs ++ Values.recast f ws := List.map_append

lemma all_flatMap_recast (f : Char → Char) (rs : List Run) :
    (rs.map (Run.recast f)).flatMap Run.all = (rs.flatMap Run.all).map (recast f) := by
  rw [List.flatMap_map, List.map_flatMap]
  exact congrArg rs.flatMap (funext (Run.all_recast f))

lemma dateTime_recast (hf : Text.Recast f) (ts : List Token) :
    Carries (Values.recast f) (dateTime ts) (dateTime (ts.map (recast f))) := by
  -- whether a run is a date depends on kinds alone
  have hdated :
      (fun r : Run => hasDateDash r.meaning) ∘ Run.recast f = fun r => hasDateDash r.meaning :=
    funext fun r => by rw [Function.comp_apply, Run.meaning_recast, hasDateDash_recast]
  have hnot : (fun r : Run => !hasDateDash r.meaning) ∘ Run.recast f = fun r =>
      !hasDateDash r.meaning :=
    funext fun r => congrArg not (congrFun hdated r)
  unfold dateTime
  dsimp only
  rw [trimTrivia_recast, runs_recast, List.takeWhile_map, List.dropWhile_map, hnot]
  generalize (runs (trimTrivia ts)).takeWhile (fun r => !hasDateDash r.meaning) = before
  generalize (runs (trimTrivia ts)).dropWhile (fun r => !hasDateDash r.meaning) = rest
  rcases rest with _ | ⟨run, after⟩
  · exact .error _ _
  rw [List.map_cons]
  dsimp only
  rw [List.any_map, hdated]
  refine .guard Iff.rfl _ _ ?_
  have hread (rs : List Run) : Carries (Values.recast f)
      (do return (← date run.tokens) ++ (← clock (rs.flatMap Run.all)))
      (do return (← date (run.recast f).tokens)
          ++ (← clock ((rs.map (Run.recast f)).flatMap Run.all))) := by
    rw [all_flatMap_recast]
    exact (date_recast hf run.tokens).bind fun _ => (clock_recast hf _).bind fun _ =>
      .pure_eq (recast_append f _ _).symm
  rcases before with _ | ⟨b, before⟩ <;> rcases after with _ | ⟨a, after⟩
  · exact .error _ _
  · exact hread (a :: after)
  · exact hread (b :: before)
  · exact .error _ _

def DayParts.recast (f : Char → Char) (p : DayParts) : DayParts :=
  ⟨p.day.map (String.map f), p.month.map (String.map f), p.year.map (String.map f)⟩

lemma put_recast (f : Char → Char) (p : DayParts) (whole whole' : String) (v : TimeUnit × String) :
    Carries (DayParts.recast f) (p.put whole v) ((p.recast f).put whole' (v.1, v.2.map f)) := by
  have hsome (o : Option String) : (o.map (String.map f)).isSome = true ↔ o.isSome = true := by
    rw [Option.isSome_map]
  obtain ⟨u, text⟩ := v
  cases u <;> exact .ite (hsome _) (fun _ => .error _ _) fun _ => .ok _

lemma attachDayNumbers_recast (f : Char → Char) (parts : List (List Token)) :
    attachDayNumbers (parts.map (List.map (recast f)))
      = (attachDayNumbers parts).map (List.map (recast f)) := by
  -- on the recursion of the function; the kinds decide its branch
  induction parts using attachDayNumbers.induct with
  | case1 t n rest h ih =>
    have h' : (t.recast f).kind = .special .closestWeekday ∧ (n.recast f).kind = .number := h
    simp only [List.map_cons, List.map_nil, attachDayNumbers]
    rw [if_pos h', if_pos h, ih]
    rfl
  | case2 t n rest h ih =>
    have h' : ¬((t.recast f).kind = .special .closestWeekday ∧ (n.recast f).kind = .number) := h
    simp only [List.map_cons, List.map_nil, attachDayNumbers] at ih ⊢
    rw [if_neg h', if_neg h, ih]
    rfl
  | case3 run rest h ih =>
    have hrun (run : List Token) (rest : List (List Token)) (h : ∀ t n rest', run = [t] →
      rest = [n] :: rest' → False) :
        attachDayNumbers (run :: rest) = run :: attachDayNumbers rest :=
          attachDayNumbers.eq_2 run rest h
    rw [List.map_cons, hrun, hrun run rest h, ih, List.map_cons]
    -- were the recast runs such a pair, so were the runs themselves
    intro t' n' rest' ht hn
    obtain ⟨t, ts, rfl, -, hts⟩ := List.map_eq_cons_iff.1 ht
    obtain ⟨ns, rest'', rfl, hns, -⟩ := List.map_eq_cons_iff.1 hn
    obtain ⟨n, ns', rfl, -, hns'⟩ := List.map_eq_cons_iff.1 hns
    rw [List.map_eq_nil_iff] at hts hns'
    subst hts hns'
    exact h t n rest'' rfl rfl
  | case4 => rfl

/-- A run that is not a month or a year, so that it is a special day. -/
lemma special_dayPart_recast (hf : Text.Recast f) (run : List Token) :
    Carries (fun p : TimeUnit × String => (p.1, p.2.map f))
      (do
        rejectUnit run .clockTime
        match special? run with
        | some (_, value) => return (.day, value)
        | none => throw (.unexpectedInDayTime (join run)))
      (do
        rejectUnit (run.map (recast f)) .clockTime
        match special? (run.map (recast f)) with
        | some (_, value) => return (.day, value)
        | none => throw (.unexpectedInDayTime (join (run.map (recast f))))) := by
  refine (rejectUnit_recast f _ _).bind fun _ => ?_
  rw [special?_recast hf]
  rcases special? run with _ | ⟨day, value⟩
  · exact .error _ _
  · exact .ok _

lemma dayPart_recast (hf : Text.Recast f) (run : List Token) :
    Carries (fun p => (p.1, p.2.map f)) (dayPart run) (dayPart (run.map (recast f))) := by
  have hspecial := special_dayPart_recast hf run
  rcases run with _ | ⟨t, _ | ⟨t', rest⟩⟩
  · exact hspecial
  · refine .ite Iff.rfl (fun _ => .ok _) fun _ => .ite ?_ (fun _ => .ok _) fun _ =>
      .ite Iff.rfl (fun _ => .error _ _) fun _ => hspecial
    rw [← isYear_recast f [t]]
  · exact hspecial

lemma splitTime_recast (f : Char → Char) (rs : List Run) :
    splitTime (rs.map (Run.recast f)) = ((splitTime rs).1.map (Run.recast f),
      (splitTime rs).2.1.map (Run.recast f), (splitTime rs).2.2.map (Run.recast f)) := by
  have htimed : (fun r : Run => isTimed r.meaning) ∘ Run.recast f = fun r => isTimed r.meaning :=
    funext fun r => by rw [Function.comp_apply, Run.meaning_recast, isTimed_recast]
  have hnot : (fun r : Run => !isTimed r.meaning) ∘ Run.recast f = fun r => !isTimed r.meaning :=
    funext fun r => congrArg not (congrFun htimed r)
  have hmeaning : Run.meaning ∘ Run.recast f = List.map (recast f) ∘ Run.meaning :=
    funext (Run.meaning_recast f)
  unfold splitTime
  dsimp only
  rw [List.takeWhile_map, List.dropWhile_map, hnot, List.takeWhile_map, List.dropWhile_map, htimed,
    List.getLast?_map, List.head?_map, Option.map_map, Option.map_map, hmeaning, ← Option.map_map,
    ← Option.map_map, List.length_map, ← List.map_dropLast, ← List.map_drop, ← List.map_append]
  generalize rs.takeWhile (fun r => !isTimed r.meaning) = before
  generalize (rs.dropWhile fun r => !isTimed r.meaning).takeWhile (fun r => isTimed r.meaning)
    = time
  rcases before.getLast?.map Run.meaning with _ | ⟨_ | ⟨n, _ | ⟨n', ns⟩⟩⟩
  · rfl
  · rfl
  · rcases time.head?.map Run.meaning with _ | ⟨_ | ⟨m, _ | ⟨m', ms⟩⟩⟩
    · rfl
    · rfl
    · simp only [Option.map_some, List.map_cons, List.map_nil, kind_recast]
      cases n.kind <;> cases m.kind <;> rfl
    · rfl
  · rfl

lemma dayTime_recast (hf : Text.Recast f) (ts : List Token) :
    Carries (Values.recast f) (dayTime ts) (dayTime (ts.map (recast f))) := by
  have hmeaning (rs : List Run) : (rs.map (Run.recast f)).map Run.meaning
      = (rs.map Run.meaning).map (List.map (recast f)) := by
    rw [List.map_map, List.map_map]
    exact congrArg rs.map (funext (Run.meaning_recast f))
  unfold dayTime
  dsimp only
  rw [trimTrivia_recast, runs_recast, splitTime_recast]
  rcases splitTime (runs (trimTrivia ts)) with ⟨before, time, after⟩
  dsimp only
  rw [all_flatMap_recast, ← List.map_append, hmeaning, attachDayNumbers_recast]
  refine .guard (by rw [List.isEmpty_map]) _ _ ((clock_recast hf _).bind fun vs => ?_)
  refine (Carries.foldlM (k := DayParts.recast f) (fun p run => ?_) _ DayParts.none).bind fun p =>
    ?_
  · exact (dayPart_recast hf run).bind fun v => put_recast f p _ _ v
  · obtain ⟨day, month, year⟩ := p
    cases day with
    | none => exact .error _ _
    | some day => cases month <;> cases year <;> exact .ok _

/-! #### Values in any format -/

lemma specialDay_recast (hf : Text.Recast f) (ts : List Token) (default : Option TimeUnit) :
    Carries (Values.recast f) (specialDay ts default) (specialDay (ts.map (recast f)) default) := by
  refine (explicitUnit_recast f ts).bind fun p => ?_
  obtain ⟨explicit, rest⟩ := p
  dsimp only
  rw [special?_recast hf]
  rcases special? rest with _ | ⟨day, value⟩
  · exact .error _ _
  · rw [Option.map_some]
    dsimp only
    generalize explicit.or default = unit
    rcases unit with _ | unit
    · exact .ok _
    · cases unit <;> cases day <;> first | exact .ok _ | exact .error _ _

lemma single_recast (hf : Text.Recast f) (ts : List Token) (default : Option TimeUnit) :
    Carries (Values.recast f) (single ts default) (single (ts.map (recast f)) default) := by
  refine (explicitUnit_recast f ts).bind fun p => ?_
  obtain ⟨explicit, rest⟩ := p
  rcases rest with _ | ⟨value, _ | ⟨extra, rest⟩⟩
  · exact .error _ _
  · dsimp only
    rw [List.map_cons, List.map_nil]
    dsimp only [kind_recast, text_recast]
    cases value.kind with
    | number =>
      rw [hf.dropZeros_map]
      cases explicit.or default with
      | none => exact .error _ _
      | some u => exact .ok _
    | weekday | month =>
      cases explicit with
      | none => exact .ok _
      | some v => exact .ite Iff.rfl (fun _ => .ok _) fun _ => .error _ _
    | _ => exact .error _ _
  · exact .error _ _

/-- **Values are read alike from recast tokens.** -/
theorem read_recast (hf : Text.Recast f) (ts : List Token) (default : Option TimeUnit) :
    Carries (Values.recast f) (read ts default) (read (ts.map (recast f)) default) := by
  unfold read
  dsimp only
  rw [trimTrivia_recast, significant_recast, isTimed_recast, hasDateDash_recast, List.isEmpty_map,
    List.any_map]
  refine .ite Iff.rfl (fun _ => .error _ _) fun _ => ?_
  cases isTimed (significant (trimTrivia ts)) <;> cases hasDateDash (significant (trimTrivia ts))
  · exact .ite Iff.rfl (fun _ => specialDay_recast hf _ default) fun _ => single_recast hf _ default
  · exact date_recast hf ts
  · exact .ite Iff.rfl (fun _ => dayTime_recast hf ts) fun _ => clock_recast hf ts
  · exact dateTime_recast hf ts

end Value

end Recurrence
