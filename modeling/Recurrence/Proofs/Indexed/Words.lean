import Recurrence.Text.DecimalDigit
import Recurrence.Proofs.Indexed.Basic
import Recurrence.Proofs.Resolution.Forms
import Recurrence.Proofs.Text.Numerals

/-!
Special-day words by the parts that a pattern takes out of them. A part goes by its number, and a
word that the pattern is for can lack some of them; the ones that are asked for are there.

Main statements: `ordinalDay_eq`, `nthWeekday_eq` and `classify_eq`.
-/

namespace Recurrence.Indexed

open SpecialDay

/-- The parts that a pattern takes out of a word, from the whole on. A part that the pattern can do
without may be missing. -/
abbrev Parts := List (Option (List Char))

def part (ps : Parts) (i : Nat) : Reading (List Char) :=
  match ps[i]? with
  | some (some cs) => .ok cs
  | _ => .error .outOfRange

def part? (ps : Parts) (i : Nat) : Option (List Char) := ps[i]?.join

/-! ### Ordinal numbers -/

/-- The parts of a day number: its digits, of any script, and the ending. -/
def dayParts? (word : String) : Option Parts :=
  let digits := word.toList.takeWhile Text.isDecimalDigit
  let ending := word.toList.dropWhile Text.isDecimalDigit
  if 1 ≤ digits.length ∧ digits.length ≤ 2 ∧ dropEnding? ending = some [] then
    some [some word.toList, some digits, some ending]
  else none

def ordinalDay (word : String) : Reading (Option Nat) :=
  match dayParts? word with
  | none => return none
  | some ps => do
    let digits ← part ps 1
    return (Text.word? (String.ofList digits)).filter fun n => 1 ≤ n ∧ n ≤ 31

/-- Digits of other scripts stand where only ASCII ones count. -/
lemma takeWhile_isDigit {cs : List Char}
    (h : ∀ c ∈ cs.takeWhile Text.isDecimalDigit, c.isDigit = true) :
    cs.takeWhile Char.isDigit = cs.takeWhile Text.isDecimalDigit
      ∧ cs.dropWhile Char.isDigit = cs.dropWhile Text.isDecimalDigit := by
  induction cs with
  | nil => exact ⟨rfl, rfl⟩
  | cons c cs ih =>
    by_cases hc : Text.isDecimalDigit c = true
    · rw [List.takeWhile_cons_of_pos hc] at h
      obtain ⟨hdigit, hrest⟩ := List.forall_mem_cons.mp h
      simp [hc, hdigit, ih hrest]
    · have hdigit : ¬ c.isDigit = true :=
        fun hd => hc (by rw [Text.isDecimalDigit, hd, Bool.true_or])
      simp [hc, hdigit]

lemma isDigit_of_ordinalDay? {word : String} {n : Nat} (h : ordinalDay? word = some n) :
    ∀ c ∈ word.toList.takeWhile Text.isDecimalDigit, c.isDigit = true := by
  intro c hc
  obtain ⟨ds, ls, hword, hds, hls⟩ := digitsThenLetters_of_ordinalDay? h
  have hmem : c ∈ ds ++ ls := hword ▸ (List.takeWhile_sublist _).subset hc
  rcases List.mem_append.mp hmem with hc' | hc'
  · exact hds c hc'
  · exact absurd (hls c hc') (EdgeText.not_letter_of_isDecimalDigit (List.mem_takeWhile_imp hc))

lemma filter_word? {digits : List Char} (h : ∀ c ∈ digits, c.isDigit = true) :
    (Text.word? (String.ofList digits)).filter (fun n => 1 ≤ n ∧ n ≤ 31)
      = if 1 ≤ Text.digitsValue digits ∧ Text.digitsValue digits ≤ 31 then
          some (Text.digitsValue digits)
        else none := by
  have hvalue : Text.numeralValue (String.ofList digits) = Text.digitsValue digits := by
    rw [Text.numeralValue, String.toList_ofList]
  by_cases hday : 1 ≤ Text.digitsValue digits ∧ Text.digitsValue digits ≤ 31
  · have hne : digits ≠ [] := by
      rintro rfl
      exact absurd hday.1 (by decide)
    have hnumeral : Text.isNumeral (String.ofList digits) = true := by
      rw [Text.isNumeral, String.toList_ofList]
      exact List.all_eq_true.mpr h
    have hmax : Text.digitsValue digits ≤ Text.wordMax := le_trans hday.2 (by decide)
    rw [if_pos hday, Text.word?, hvalue, String.toList_ofList, if_pos ⟨hne, hnumeral, hmax⟩,
      Option.filter_some_pos (by simpa using hday)]
  · rw [if_neg hday, Option.filter_eq_none_iff]
    intro n hn
    obtain ⟨-, -, rfl, -⟩ := Text.word?_eq_some hn
    simpa [hvalue] using hday

/-- The part of the digits is always there. -/
theorem ordinalDay_eq (word : String) : ordinalDay word = .ok (ordinalDay? word) := by
  unfold ordinalDay dayParts?
  simp only
  by_cases hdigits : ∀ c ∈ word.toList.takeWhile Text.isDecimalDigit, c.isDigit = true
  · obtain ⟨htake, hdrop⟩ := takeWhile_isDigit hdigits
    rw [ordinalDay?, htake, hdrop]
    have hpos : 1 ≤ Text.digitsValue (word.toList.takeWhile Text.isDecimalDigit) →
        1 ≤ (word.toList.takeWhile Text.isDecimalDigit).length := by
      rw [Nat.one_le_iff_ne_zero, Nat.one_le_iff_ne_zero, Ne, Ne, List.length_eq_zero_iff]
      exact mt fun hnil => by rw [hnil]; rfl
    split_ifs with hparts hday hday
    · show Except.ok (Option.filter _ _) = _
      rw [filter_word? hdigits, if_pos hday.2.2]
    · show Except.ok (Option.filter _ _) = _
      rw [filter_word? hdigits, if_neg fun h => hday ⟨hparts.2.1, hparts.2.2, h⟩]
    · exact absurd ⟨hpos hday.2.2.1, hday.1, hday.2.1⟩ hparts
    · rfl
  · -- a digit of another script is no number
    have hnone : ordinalDay? word = none :=
      Option.eq_none_iff_forall_ne_some.mpr fun n hn => hdigits (isDigit_of_ordinalDay? hn)
    have hword : Text.word? (String.ofList (word.toList.takeWhile Text.isDecimalDigit)) = none := by
      refine if_neg fun h => hdigits (List.all_eq_true.mp ?_)
      simpa [Text.isNumeral] using h.2.1
    rw [hnone]
    split_ifs
    · simp [part, hword, pure, Except.pure]
    · rfl

/-! ### Weekdays of a month -/

/-- An ordinal number spelled out at the front, and what comes after it. -/
def numberWord? (cs : List Char) : Option (List Char × List Char) :=
  ordinalWords.findSome? fun (word, _) =>
    (dropFolded? word.toList cs).map fun after => (cs.take word.length, after)

/-- The number of a weekday compound, a digit or a word, and what comes after it. -/
def numberParts? (cs : List Char) : Option (Option (List Char) × Option (List Char) × List Char) :=
  match cs with
  | [] => none
  | c :: rest =>
    if ['1', '2', '3', '4', '5'].contains c then
      (dropEnding? rest).map fun after => (some [c], none, after)
    else (numberWord? cs).map fun (word, after) => (none, some word, after)

/-- The parts of a weekday compound: a digit, a number in a word, a last after either, a last
without a number, and the weekday. -/
def compoundParts? (cs : List Char) : Option Parts :=
  match dropFolded? "last".toList cs with
  | some weekday => some [some cs, none, none, none, some (cs.take 4), some weekday]
  | none => (numberParts? cs).map fun (digit, word, rest) =>
    match dropFolded? "last".toList rest with
    | some weekday => [some cs, digit, word, some (rest.take 4), none, some weekday]
    | none => [some cs, digit, word, none, none, some rest]

def numberOf (digit word : Option (List Char)) : Option Int :=
  match digit, word with
  | some digit, _ => (Text.word? (String.ofList digit)).map Int.ofNat
  | none, some word => some ((ordinalWords.lookup (String.ofList word).toLower).getD 5)
  | none, none => none

def nthWeekday (word : String) : Reading (Option NthWeekday) :=
  match compoundParts? word.toList with
  | none => return none
  | some ps => do
    let name ← part ps 5
    match Weekday.ofName? (String.ofList name) with
    | none => return none
    | some weekday =>
      if (part? ps 4).isSome then return some ⟨1, .last, weekday⟩
      else
        let edge := if (part? ps 3).isSome then Edge.last else .first
        return (numberOf (part? ps 1) (part? ps 2)).map fun nth => ⟨nth, edge, weekday⟩

/-- A number spelled with a long s is in no table. -/
lemma number_of_dropFolded? {cs rest : List Char} {word : String} {n : Int}
    (hmem : (word, n) ∈ ordinalWords) (h : dropFolded? word.toList cs = some rest) :
    (if (cs.take word.length).map Char.toLower = word.toList then n else 5)
      = (ordinalWords.lookup (String.ofList (cs.take word.length)).toLower).getD 5 := by
  obtain ⟨pre, rfl, hpre⟩ := dropFolded?_eq_some h
  have hlength : word.length = pre.length := by
    rw [← String.length_toList, ← hpre, List.length_map]
  rw [hlength, List.take_left]
  have hsmall : (String.ofList pre).toLower.toList = pre.map Char.toLower := by
    rw [toList_toLower, String.toList_ofList]
  -- in small letters the word is that of the entry, or it was read with a long s
  by_cases hword : pre.map Char.toLower = word.toList
  · have heq : (String.ofList pre).toLower = word := String.toList_inj.mp (hsmall.trans hword)
    have hlookup : ∀ p ∈ ordinalWords, ordinalWords.lookup p.1 = some p.2 := by decide
    rw [if_pos hword, heq, hlookup _ hmem, Option.getD_some]
  · rw [if_neg hword]
    -- with a long s in it, it is no word of the table, whose words are small letters
    cases hlookup : ordinalWords.lookup (String.ofList pre).toLower with
    | none => rfl
    | some m =>
      refine absurd ?_ hword
      rw [← hpre]
      apply List.map_congr_left
      intro c hc
      have hlower : ∀ p ∈ ordinalWords, p.1.toList.all Char.isLower = true := by decide
      have hc : c.toLower.isLower = true := by
        refine List.all_eq_true.mp (hlower _ (mem_of_lookup hlookup)) _ ?_
        rw [hsmall]
        exact List.mem_map_of_mem hc
      rw [fold, if_neg]
      rintro rfl
      exact absurd hc (by decide)

lemma dropOrdinalWord?_eq (cs : List Char) : dropOrdinalWord? cs = (numberWord? cs).map
    fun (word, rest) => ((ordinalWords.lookup (String.ofList word).toLower).getD 5, rest) := by
  suffices h : ∀ l ⊆ ordinalWords,
      (l.findSome? fun (word, n) => (dropFolded? word.toList cs).map fun rest =>
        (if (cs.take word.length).map Char.toLower = word.toList then n else 5, rest))
      = (l.findSome? fun (word, _) =>
          (dropFolded? word.toList cs).map fun after => (cs.take word.length, after)).map
        fun (word, rest) => ((ordinalWords.lookup (String.ofList word).toLower).getD 5, rest) from
    h ordinalWords fun _ h => h
  intro l hl
  induction l with
  | nil => rfl
  | cons p l ih =>
    obtain ⟨word, n⟩ := p
    obtain ⟨hmem, hl⟩ := List.cons_subset.mp hl
    rw [List.findSome?_cons, List.findSome?_cons]
    dsimp only
    cases h : dropFolded? word.toList cs with
    | none => exact ih hl
    | some rest => simp only [Option.map_some, number_of_dropFolded? hmem h]

lemma dropNth?_eq (cs : List Char) : dropNth? cs
    = (numberParts? cs).bind fun (digit, word, rest) =>
        (numberOf digit word).map fun n => (n, rest) := by
  cases cs with
  | nil => rfl
  | cons c rest =>
    by_cases hc : c = '1' ∨ c = '2' ∨ c = '3' ∨ c = '4' ∨ c = '5'
    · rcases hc with rfl | rfl | rfl | rfl | rfl <;>
      · simp only [dropNth?, numberParts?]
        cases dropEnding? rest <;> rfl
    · have hdigit : ['1', '2', '3', '4', '5'].contains c = false := by simpa using hc
      have hword : dropNth? (c :: rest) = dropOrdinalWord? (c :: rest) := by
        simp only [not_or] at hc
        unfold dropNth?
        split <;> simp_all
      rw [hword, dropOrdinalWord?_eq, numberParts?, hdigit]
      cases numberWord? (c :: rest) <;> rfl

/-- The part of the weekday is always there. -/
theorem nthWeekday_eq (word : String) : nthWeekday word = .ok (nthWeekday? word) := by
  unfold nthWeekday compoundParts? nthWeekday?
  generalize "last".toList = last
  cases dropFolded? last word.toList with
  | some rest =>
    cases h : Weekday.ofName? (String.ofList rest) <;> simp [part, part?, h, pure, Except.pure]
  | none =>
    rw [dropNth?_eq]
    cases numberParts? word.toList with
    | none => rfl
    | some p =>
      obtain ⟨digit, number, rest⟩ := p
      simp only [Option.map_some, Option.bind_some]
      cases hlast : dropFolded? last rest with
      | some weekday =>
        cases h : Weekday.ofName? (String.ofList weekday) <;>
          cases hn : numberOf digit number <;> simp [part, part?, h, hn, hlast, pure, Except.pure]
      | none =>
        cases h : Weekday.ofName? (String.ofList rest) <;>
          cases hn : numberOf digit number <;> simp [part, part?, h, hn, hlast, pure, Except.pure]

/-! ### Words -/

def isCompound (word : String) : Reading Bool := do
  if (← ordinalDay word).isSome then return true
  else return (← nthWeekday word).isSome

def specialDay (word : String) : Reading (Option SpecialDay) := do
  let small := word.toLower
  match words.lookup small with
  | some s => return some s
  | none =>
    match ← nthWeekday small with
    | some n => return some (.nthWeekday n)
    | none => return (← ordinalDay small).map ordinal

def classify (D : Zone.Database) (word : String) : Reading (Except Token.Fault Token.Kind) := do
  let small := word.toLower
  if Text.isNumeral word then return .ok .number
  else if h : Keyword.isRuleWord word = true then return .ok (.keyword (Keyword.opened word h))
  else if word.toList.head? = some '@' then return .error .unknownKeyword
  else if Token.anchorWords.contains small then return .ok .anchor
  else match TimeUnit.ofWord? word with
  | some u => return .ok (.unit u)
  | none =>
    if (MonthName.number? word).isSome then return .ok .month
    else if (Weekday.ofName? word).isSome then return .ok .weekday
    else if word.toList.contains '/' && D.isKnown word then return .ok .zoneId
    else match ← specialDay word with
    | some s => return .ok (.special s)
    | none =>
      if small = "am" then return .ok (.meridiem .am)
      else if small = "pm" then return .ok (.meridiem .pm)
      else if small = "and" then return .ok .conjunction
      else return .error .unrecognized

lemma isCompound_eq (word : String) : isCompound word = .ok (SpecialDay.isCompound word) := by
  rw [isCompound, ordinalDay_eq, nthWeekday_eq, ok_bind, SpecialDay.isCompound]
  cases ordinalDay? word <;> rfl

lemma specialDay_eq (word : String) : specialDay word = .ok (ofWord? word) := by
  unfold specialDay ofWord?
  simp only [nthWeekday_eq, ordinalDay_eq, ok_bind]
  cases words.lookup word.toLower with
  | some s => rfl
  | none => cases nthWeekday? word.toLower <;> rfl

/-- Classifying a word takes no part out of it that is missing. -/
theorem classify_eq (D : Zone.Database) (word : String) :
    classify D word = .ok (Token.classify D word) := by
  unfold classify Token.classify
  simp only [specialDay_eq, ok_bind]
  refine ok_ite rfl (ok_dite (fun _ => rfl) fun _ => ok_ite rfl (ok_ite rfl ?_))
  cases TimeUnit.ofWord? word with
  | some u => rfl
  | none =>
    refine ok_ite rfl (ok_ite rfl (ok_ite rfl ?_))
    cases ofWord? word with
    | some s => rfl
    | none => exact ok_ite rfl (ok_ite rfl (ok_ite rfl rfl))

end Recurrence.Indexed
