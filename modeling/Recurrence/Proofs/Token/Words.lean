import Mathlib.Data.List.TakeWhile
import Mathlib.Tactic.Lemma
import Recurrence.Token.Scan

/-!
The characters of words. A word that means something has its digits in front of its letters and no
sign in it, so a scan keeps it whole: digits and letters that meet in it make a compound, and
whether they do is not changed by the letter case.

Main statement: `solid_of_wordKind`.
-/

namespace Recurrence

lemma mem_of_lookup {α β : Type} [BEq α] [LawfulBEq α] {table : List (α × β)} {a : α} {b : β}
    (h : table.lookup a = some b) : (a, b) ∈ table := by
  obtain ⟨before, after, rfl, -⟩ := List.lookup_eq_some_iff.1 h
  exact List.mem_append_right before List.mem_cons_self

/-! ### Letter case -/

lemma isLower_iff {c : Char} : c.isLower = true ↔ 97 ≤ c.toNat ∧ c.toNat ≤ 122 := by
  show (decide (c.val ≥ 'a'.val) && decide (c.val ≤ 'z'.val)) = true ↔ _
  rw [Bool.and_eq_true, decide_eq_true_eq, decide_eq_true_eq, ge_iff_le,
    UInt32.le_iff_toNat_le, UInt32.le_iff_toNat_le]
  exact Iff.rfl

lemma isAlpha_iff {c : Char} :
    c.isAlpha = true ↔ (65 ≤ c.toNat ∧ c.toNat ≤ 90) ∨ (97 ≤ c.toNat ∧ c.toNat ≤ 122) := by
  have hupper : c.isUpper = true ↔ 65 ≤ c.toNat ∧ c.toNat ≤ 90 := by
    show decide (c.val ≥ 'A'.val ∧ c.val ≤ 'Z'.val) = true ↔ _
    rw [decide_eq_true_eq, ge_iff_le, UInt32.le_iff_toNat_le, UInt32.le_iff_toNat_le]
    exact Iff.rfl
  show (c.isUpper || c.isLower) = true ↔ _
  rw [Bool.or_eq_true, hupper, isLower_iff]

lemma Text.isBlank_of_toNat {c : Char} (h : 0x21 ≤ c.toNat ∧ c.toNat ≤ 0x7e) :
    Text.isBlank c = false := by
  rw [Text.isBlank, decide_eq_true h.1, decide_eq_true h.2]
  rfl

lemma toNat_toLower (c : Char) :
    c.toLower.toNat = if 65 ≤ c.toNat ∧ c.toNat ≤ 90 then c.toNat + 32 else c.toNat := by
  unfold Char.toLower
  have hiff : (c.val ≥ 'A'.val ∧ c.val ≤ 'Z'.val) ↔ (65 ≤ c.toNat ∧ c.toNat ≤ 90) := by
    simp only [ge_iff_le, UInt32.le_iff_toNat_le]
    exact Iff.rfl
  split
  · rename_i h
    have hval : c.toNat = c.val.toNat := rfl
    have hsub : ('a'.val - 'A'.val).toNat = 32 := rfl
    have hle := (hiff.1 h).2
    rw [if_pos (hiff.1 h)]
    show (c.val + ('a'.val - 'A'.val)).toNat = c.val.toNat + 32
    rw [UInt32.toNat_add, hsub, Nat.mod_eq_of_lt (by omega)]
  · rename_i h
    rw [if_neg (mt hiff.2 h)]

lemma toLower_toLower (c : Char) : c.toLower.toLower = c.toLower := by
  apply Char.toNat_inj.1
  rw [toNat_toLower, if_neg]
  rw [toNat_toLower]
  split <;> omega

lemma map_toLower_again (cs : List Char) :
    (cs.map Char.toLower).map Char.toLower = cs.map Char.toLower := by
  rw [List.map_map]
  exact List.map_congr_left fun c _ => toLower_toLower c

lemma toLower_eq_iff {c d : Char} (hd : d.toNat < 65 ∨ 122 < d.toNat) : c.toLower = d ↔ c = d := by
  rw [← Char.toNat_inj, ← Char.toNat_inj, toNat_toLower]
  split <;> omega

lemma isDigit_toLower (c : Char) : c.toLower.isDigit = c.isDigit := by
  have h0 : '0'.toNat = 48 := rfl
  have h9 : '9'.toNat = 57 := rfl
  rw [Bool.eq_iff_iff, Char.isDigit_iff_toNat, Char.isDigit_iff_toNat, toNat_toLower, h0, h9]
  split <;> omega

lemma toList_toLower (w : String) : w.toLower.toList = w.toList.map Char.toLower :=
  String.toList_map

namespace SpecialDay

variable {c : Char} {cs rest : List Char} {w : String}

@[simp] lemma fold_toLower (c : Char) : fold c.toLower = fold c := by
  have hiff : c.toLower = 'ſ' ↔ c = 'ſ' := toLower_eq_iff (Or.inr (by decide))
  simp only [fold, hiff, toLower_toLower]

lemma dropFolded?_toLower (ws cs : List Char) :
    dropFolded? ws (cs.map Char.toLower) = (dropFolded? ws cs).map (List.map Char.toLower) := by
  induction ws generalizing cs with
  | nil => simp [dropFolded?]
  | cons w ws ih =>
    cases cs with
    | nil => simp [dropFolded?]
    | cons c cs =>
      simp only [List.map_cons, dropFolded?, fold_toLower, ih]
      split <;> rfl

lemma dropEnding?_toLower (cs : List Char) :
    dropEnding? (cs.map Char.toLower) = (dropEnding? cs).map (List.map Char.toLower) := by
  unfold dropEnding?
  generalize ["st", "nd", "rd", "th"] = endings
  induction endings with
  | nil => rfl
  | cons e es ih =>
    rw [List.findSome?_cons, List.findSome?_cons, dropFolded?_toLower]
    cases dropFolded? e.toList cs with
    | none => exact ih
    | some rest => rfl

lemma dropOrdinalWord?_toLower (cs : List Char) : dropOrdinalWord? (cs.map Char.toLower)
    = (dropOrdinalWord? cs).map fun p => (p.1, p.2.map Char.toLower) := by
  unfold dropOrdinalWord?
  generalize ordinalWords = words
  induction words with
  | nil => rfl
  | cons p ps ih =>
    obtain ⟨word, n⟩ := p
    rw [List.findSome?_cons, List.findSome?_cons]
    dsimp only
    rw [dropFolded?_toLower]
    cases dropFolded? word.toList cs with
    | none => exact ih
    | some rest => simp only [Option.map_some, ← List.map_take, map_toLower_again]

lemma dropNth?_toLower (cs : List Char) : dropNth? (cs.map Char.toLower)
    = (dropNth? cs).map fun p => (p.1, p.2.map Char.toLower) := by
  have ending (n : Int) (cs : List Char) :
      (dropEnding? (cs.map Char.toLower)).map (fun r => (n, r))
        = ((dropEnding? cs).map fun r => (n, r)).map fun p => (p.1, p.2.map Char.toLower) := by
    rw [dropEnding?_toLower]
    cases dropEnding? cs <;> rfl
  cases cs with
  | nil => exact dropOrdinalWord?_toLower []
  | cons c rest =>
    -- a digit from one to five has its own ending, any other start is a word
    by_cases hc : c = '1' ∨ c = '2' ∨ c = '3' ∨ c = '4' ∨ c = '5'
    · rcases hc with rfl | rfl | rfl | rfl | rfl
      · exact ending 1 rest
      · exact ending 2 rest
      · exact ending 3 rest
      · exact ending 4 rest
      · exact ending 5 rest
    -- digits have no case
    · have hc' : ¬(c.toLower = '1' ∨ c.toLower = '2' ∨ c.toLower = '3' ∨ c.toLower = '4'
          ∨ c.toLower = '5') := by
        rwa [toLower_eq_iff (by decide), toLower_eq_iff (by decide), toLower_eq_iff (by decide),
          toLower_eq_iff (by decide), toLower_eq_iff (by decide)]
      have word {c : Char} {rest : List Char}
          (hc : ¬(c = '1' ∨ c = '2' ∨ c = '3' ∨ c = '4' ∨ c = '5')) :
          dropNth? (c :: rest) = dropOrdinalWord? (c :: rest) := by
        simp only [not_or] at hc
        unfold dropNth?
        split <;> simp_all
      rw [List.map_cons, word hc', word hc, ← List.map_cons, dropOrdinalWord?_toLower]

lemma nthWeekday?_toLower (w : String) : nthWeekday? w.toLower = nthWeekday? w := by
  have weekday (cs : List Char) : Weekday.ofName? (String.ofList (cs.map Char.toLower))
      = Weekday.ofName? (String.ofList cs) := by
    have hsmall : (String.ofList (cs.map Char.toLower)).toLower = (String.ofList cs).toLower := by
      apply String.toList_inj.1
      rw [toList_toLower, toList_toLower, String.toList_ofList, String.toList_ofList,
        map_toLower_again]
    rw [Weekday.ofName?, Weekday.ofName?, hsmall]
  simp only [nthWeekday?, toList_toLower, dropFolded?_toLower, dropNth?_toLower]
  cases dropFolded? "last".toList w.toList with
  | some rest => simp only [Option.map_some, weekday]
  | none =>
    cases dropNth? w.toList with
    | none => rfl
    | some p =>
      simp only [Option.map_some, Option.map_none, dropFolded?_toLower]
      cases dropFolded? "last".toList p.2 with
      | none => simp only [Option.map_none, weekday]
      | some rest => simp only [Option.map_some, weekday]

lemma takeWhile_isDigit_toLower (cs : List Char) :
    (cs.map Char.toLower).takeWhile Char.isDigit = cs.takeWhile Char.isDigit := by
  induction cs with
  | nil => rfl
  | cons c cs ih =>
    rw [List.map_cons, List.takeWhile_cons, List.takeWhile_cons, isDigit_toLower, ih]
    split
    · rename_i h
      have : c.toLower = c := by
        have h9 : '9'.toNat = 57 := rfl
        have := (Char.isDigit_iff_toNat.1 h).2
        rw [← Char.toNat_inj, toNat_toLower, if_neg (by omega)]
      rw [this]
    · rfl

lemma dropWhile_isDigit_toLower (cs : List Char) :
    (cs.map Char.toLower).dropWhile Char.isDigit
      = (cs.dropWhile Char.isDigit).map Char.toLower := by
  induction cs with
  | nil => rfl
  | cons c cs ih =>
    rw [List.map_cons, List.dropWhile_cons, List.dropWhile_cons, isDigit_toLower, ih]
    split <;> rfl

lemma ordinalDay?_toLower (w : String) : ordinalDay? w.toLower = ordinalDay? w := by
  have hnil (o : Option (List Char)) : o.map (List.map Char.toLower) = some [] ↔ o = some [] := by
    cases o <;> simp
  simp only [ordinalDay?, toList_toLower, takeWhile_isDigit_toLower, dropWhile_isDigit_toLower,
    dropEnding?_toLower, hnil]

/-! ### Letters -/

/-- Whether a character is a letter of a word: one of ASCII, or the long s. -/
def IsLetter (c : Char) : Prop := (fold c).isLower = true

lemma isLetter_of_isLower_toLower (h : c.toLower.isLower = true) : IsLetter c := by
  unfold IsLetter fold
  split
  · rfl
  · exact h

/-- A letter is of ASCII, but for the long s. -/
lemma IsLetter.toNat (h : IsLetter c) :
    c = 'ſ' ∨ (65 ≤ c.toNat ∧ c.toNat ≤ 90) ∨ (97 ≤ c.toNat ∧ c.toNat ≤ 122) := by
  unfold IsLetter fold at h
  split at h
  · exact Or.inl ‹_›
  · rw [isLower_iff, toNat_toLower] at h
    split at h <;> omega

lemma IsLetter.not_digit (h : IsLetter c) : c.isDigit = false := by
  have h0 : '0'.toNat = 48 := rfl
  have h9 : '9'.toNat = 57 := rfl
  rw [← Bool.not_eq_true, Char.isDigit_iff_toNat]
  rcases h.toNat with rfl | h | h
  · decide
  · omega
  · omega

lemma IsLetter.alphabetic (h : IsLetter c) : Text.isAlphabetic c = true := by
  rcases h.toNat with rfl | h
  · decide +kernel
  · rw [Text.isAlphabetic, isAlpha_iff.2 h, Bool.true_or]

lemma not_breaking_of_ascii (h : 0x21 ≤ c.toNat ∧ c.toNat ≤ 0x7e)
    (hs : ∀ b ∈ [',', ':', '-', '+', '[', ']', '.', ';', '!', '?', '(', ')'], c ≠ b) :
    Scan.isBreaking c = false := by
  have hnul : c ≠ '\x00' := by
    rintro rfl
    exact absurd h (by decide)
  rw [Scan.isBreaking, Text.isBlank_of_toNat h, Bool.false_or, ← Bool.not_eq_true,
    List.contains_iff_mem, List.mem_cons, not_or]
  exact ⟨hnul, fun hmem => hs c hmem rfl⟩

lemma not_breaking_of_toNat (h : (48 ≤ c.toNat ∧ c.toNat ≤ 57) ∨ (64 ≤ c.toNat ∧ c.toNat ≤ 90)
    ∨ (97 ≤ c.toNat ∧ c.toNat ≤ 122)) : Scan.isBreaking c = false := by
  refine not_breaking_of_ascii (by omega) fun b hb hcb => ?_
  have hsigns : [',', ':', '-', '+', '[', ']', '.', ';', '!', '?', '(', ')'].all (fun b =>
      decide ¬((48 ≤ b.toNat ∧ b.toNat ≤ 57) ∨ (64 ≤ b.toNat ∧ b.toNat ≤ 90)
        ∨ (97 ≤ b.toNat ∧ b.toNat ≤ 122))) = true := by decide
  exact of_decide_eq_true (List.all_eq_true.1 hsigns b hb) (hcb ▸ h)

lemma IsLetter.not_breaking (h : IsLetter c) : Scan.isBreaking c = false := by
  rcases h.toNat with rfl | h | h
  · decide
  · exact not_breaking_of_toNat (by omega)
  · exact not_breaking_of_toNat (by omega)

lemma not_breaking_of_isDigit (h : c.isDigit = true) : Scan.isBreaking c = false := by
  have h0 : '0'.toNat = 48 := rfl
  have h9 : '9'.toNat = 57 := rfl
  have := Char.isDigit_iff_toNat.1 h
  exact not_breaking_of_toNat (by omega)

/-! ### What is read off words -/

lemma isLetter_of_fold {ws pre : List Char} (hws : ws.all Char.isLower = true)
    (h : pre.map fold = ws) : ∀ c ∈ pre, IsLetter c := fun _ hc =>
  List.all_eq_true.1 hws _ (h ▸ List.mem_map_of_mem hc)

lemma dropFolded?_eq_some {ws : List Char} (h : dropFolded? ws cs = some rest) :
    ∃ pre, cs = pre ++ rest ∧ pre.map fold = ws := by
  induction ws generalizing cs with
  | nil => exact ⟨[], Option.some.inj h, rfl⟩
  | cons w ws ih =>
    cases cs with
    | nil => cases h
    | cons c cs =>
      unfold dropFolded? at h
      split at h
      · obtain ⟨pre, rfl, hpre⟩ := ih h
        exact ⟨c :: pre, rfl, by rw [List.map_cons, hpre, ‹fold c = w›]⟩
      · cases h

def LettersTo (cs rest : List Char) : Prop := ∃ pre, cs = pre ++ rest ∧ ∀ c ∈ pre, IsLetter c

lemma lettersTo_of_dropFolded? {ws : List Char} (hws : ws.all Char.isLower = true)
    (h : dropFolded? ws cs = some rest) : LettersTo cs rest := by
  obtain ⟨pre, hcs, hpre⟩ := dropFolded?_eq_some h
  exact ⟨pre, hcs, isLetter_of_fold hws hpre⟩

lemma LettersTo.letters (h : LettersTo cs rest) (hrest : ∀ c ∈ rest, IsLetter c) :
    ∀ c ∈ cs, IsLetter c := by
  obtain ⟨pre, rfl, hpre⟩ := h
  exact List.forall_mem_append.2 ⟨hpre, hrest⟩

lemma lettersTo_of_dropEnding? (h : dropEnding? cs = some rest) : LettersTo cs rest := by
  obtain ⟨e, he, hd⟩ := List.exists_of_findSome?_eq_some h
  have hlower : ∀ e ∈ ["st", "nd", "rd", "th"], e.toList.all Char.isLower = true := by decide
  exact lettersTo_of_dropFolded? (hlower e he) hd

lemma lettersTo_of_dropOrdinalWord? {n : Int} (h : dropOrdinalWord? cs = some (n, rest)) :
    LettersTo cs rest := by
  obtain ⟨p, hp, hd⟩ := List.exists_of_findSome?_eq_some h
  obtain ⟨rest', hrest', heq⟩ := Option.map_eq_some_iff.1 hd
  obtain rfl : rest' = rest := congrArg Prod.snd heq
  have hlower : ∀ p ∈ ordinalWords, p.1.toList.all Char.isLower = true := by decide
  exact lettersTo_of_dropFolded? (hlower p hp) hrest'

/-- Words of which the characters are letters, after some digits perhaps. -/
def DigitsThenLetters (cs : List Char) : Prop :=
  ∃ ds ls, cs = ds ++ ls ∧ (∀ c ∈ ds, c.isDigit = true) ∧ ∀ c ∈ ls, IsLetter c

lemma digitsThenLetters_of_dropNth? {n : Int} (h : dropNth? cs = some (n, rest))
    (hrest : ∀ c ∈ rest, IsLetter c) : DigitsThenLetters cs := by
  have key {d : Char} {tail : List Char} {m : Int} (hd : d.isDigit = true)
      (h : (dropEnding? tail).map (fun r => (m, r)) = some (n, rest)) :
      DigitsThenLetters (d :: tail) := by
    obtain ⟨r, hr, heq⟩ := Option.map_eq_some_iff.1 h
    obtain rfl : r = rest := congrArg Prod.snd heq
    exact ⟨[d], tail, rfl, by simpa using hd, (lettersTo_of_dropEnding? hr).letters hrest⟩
  unfold dropNth? at h
  split at h
  · exact key rfl h
  · exact key rfl h
  · exact key rfl h
  · exact key rfl h
  · exact key rfl h
  · exact ⟨[], cs, rfl, by simp, (lettersTo_of_dropOrdinalWord? h).letters hrest⟩

lemma isLetter_of_toLower (h : w.toLower.toList.all Char.isLower = true) :
    ∀ c ∈ w.toList, IsLetter c := by
  rw [toList_toLower, List.all_map] at h
  exact fun c hc => isLetter_of_isLower_toLower (List.all_eq_true.1 h c hc)

lemma isLetter_of_lookup {α : Type} {table : List (String × α)} {a : α}
    (ht : table.all (fun p => p.1.toList.all Char.isLower) = true)
    (h : table.lookup w.toLower = some a) : ∀ c ∈ w.toList, IsLetter c := by
  exact isLetter_of_toLower (List.all_eq_true.1 ht _ (mem_of_lookup h))

lemma isLetter_of_keyword {q : Keyword} (h : Keyword.words.lookup w.toLower = some q) :
    ∀ c ∈ w.toList, IsLetter c := isLetter_of_lookup (by decide) h

lemma isLetter_of_unitWord {u : TimeUnit} (h : TimeUnit.ofWord? w = some u) :
    ∀ c ∈ w.toList, IsLetter c := isLetter_of_lookup (by decide) h

lemma isLetter_of_monthName {n : Int} (h : MonthName.number? w = some n) :
    ∀ c ∈ w.toList, IsLetter c := isLetter_of_lookup (by decide) h

lemma isLetter_of_weekdayName {d : Weekday} (h : Weekday.ofName? w = some d) :
    ∀ c ∈ w.toList, IsLetter c := isLetter_of_lookup (by decide) h

lemma isLetter_of_word {day : SpecialDay} (h : words.lookup w.toLower = some day) :
    ∀ c ∈ w.toList, IsLetter c := isLetter_of_lookup (by decide) h

lemma isLetter_of_anchorWord (h : w.toLower ∈ Token.anchorWords) : ∀ c ∈ w.toList, IsLetter c := by
  have hsmall : Token.anchorWords.all (fun a => a.toList.all Char.isLower) = true := by decide
  exact isLetter_of_toLower (List.all_eq_true.1 hsmall _ h)

lemma isLetter_of_weekday {d : Weekday} (h : Weekday.ofName? (String.ofList cs) = some d) :
    ∀ c ∈ cs, IsLetter c := by
  have := isLetter_of_weekdayName h
  rwa [String.toList_ofList] at this

lemma digitsThenLetters_of_nthWeekday? {n : NthWeekday} (h : nthWeekday? w = some n) :
    DigitsThenLetters w.toList := by
  unfold nthWeekday? at h
  dsimp only at h
  split at h
  · rename_i rest hrest
    obtain ⟨d, hd, -⟩ := Option.map_eq_some_iff.1 h
    exact ⟨[], _, rfl, by simp,
      (lettersTo_of_dropFolded? (by decide) hrest).letters (isLetter_of_weekday hd)⟩
  · split at h
    · cases h
    · rename_i n' rest hnth
      split at h
      · rename_i rest' hrest'
        obtain ⟨d, hd, -⟩ := Option.map_eq_some_iff.1 h
        exact digitsThenLetters_of_dropNth? hnth
          ((lettersTo_of_dropFolded? (by decide) hrest').letters (isLetter_of_weekday hd))
      · obtain ⟨d, hd, -⟩ := Option.map_eq_some_iff.1 h
        exact digitsThenLetters_of_dropNth? hnth (isLetter_of_weekday hd)

lemma digitsThenLetters_of_ordinalDay? {n : Nat} (h : ordinalDay? w = some n) :
    DigitsThenLetters w.toList := by
  unfold ordinalDay? at h
  dsimp only at h
  split at h
  · rename_i hw
    exact ⟨_, _, (List.takeWhile_append_dropWhile).symm, fun c hc => List.mem_takeWhile_imp hc,
      (lettersTo_of_dropEnding? hw.2.1).letters (by simp)⟩
  · cases h

lemma ofWord?_eq_some {day : SpecialDay} (h : ofWord? w = some day) :
    words.lookup w.toLower = some day ∨ (∃ n, nthWeekday? w = some n ∧ day = nthWeekday n)
      ∨ ∃ n, ordinalDay? w = some n ∧ day = ordinal n := by
  unfold ofWord? at h
  dsimp only at h
  rw [nthWeekday?_toLower, ordinalDay?_toLower] at h
  split at h
  · rename_i d hd
    exact Or.inl (hd.trans h)
  split at h
  · rename_i n hn
    cases h
    exact Or.inr (Or.inl ⟨n, hn, rfl⟩)
  · obtain ⟨n, hn, rfl⟩ := Option.map_eq_some_iff.1 h
    exact Or.inr (Or.inr ⟨n, hn, rfl⟩)

lemma digit_or_letter {w : String} {day : SpecialDay} (h : ofWord? w = some day) :
    ∀ c ∈ w.toList, c.isDigit = true ∨ IsLetter c := by
  have compound (h : DigitsThenLetters w.toList) : ∀ c ∈ w.toList, c.isDigit = true
      ∨ IsLetter c := by
    obtain ⟨ds, ls, hw, hd, hl⟩ := h
    rw [hw]
    exact List.forall_mem_append.2 ⟨fun c hc => Or.inl (hd c hc), fun c hc => Or.inr (hl c hc)⟩
  rcases ofWord?_eq_some h with hd | ⟨n, hn, -⟩ | ⟨n, hn, -⟩
  · exact fun c hc => Or.inr (isLetter_of_word hd c hc)
  · exact compound (digitsThenLetters_of_nthWeekday? hn)
  · exact compound (digitsThenLetters_of_ordinalDay? hn)

end SpecialDay

namespace Token

open SpecialDay

/-- A word in one piece: no sign in it, digits only in front of its letters, and where the two meet
it is a compound. -/
structure Solid (w : List Char) : Prop where
  nonempty : w ≠ []
  unbroken : ∀ c ∈ w, Scan.isBreaking c = false
  parts : ∃ ds ls, w = ds ++ ls ∧ (∀ c ∈ ds, c.isDigit = true) ∧ (∀ c ∈ ls, c.isDigit = false)
    ∧ (ds = [] ∨ ls = [] ∨ (∀ c ∈ ls, Text.isAlphabetic c = true)
      ∧ isCompound (String.ofList w) = true)

variable {D : Zone.Database} {w : String} {k : Kind}

lemma solid_of_isNumeral (hw : w ≠ "") (h : Text.isNumeral w = true) : Solid w.toList := by
  have hd := List.all_eq_true.1 h
  exact ⟨fun h0 => hw (String.toList_eq_nil_iff.1 h0),
    fun c hc => not_breaking_of_isDigit (hd c hc), _, [], (List.append_nil _).symm, hd, by simp,
    Or.inr (Or.inl rfl)⟩

lemma solid_of_letters (hw : w ≠ "") (h : ∀ c ∈ w.toList, IsLetter c) : Solid w.toList :=
  ⟨fun h0 => hw (String.toList_eq_nil_iff.1 h0), fun c hc => (h c hc).not_breaking, [], _, rfl,
    by simp, fun c hc => (h c hc).not_digit, Or.inl rfl⟩

lemma solid_of_compound (hw : w ≠ "") (h : DigitsThenLetters w.toList)
    (hc : isCompound w = true) : Solid w.toList := by
  obtain ⟨ds, ls, hcs, hd, hl⟩ := h
  refine ⟨fun h0 => hw (String.toList_eq_nil_iff.1 h0), ?_, ds, ls, hcs, hd,
    fun c hc => (hl c hc).not_digit,
    Or.inr (Or.inr ⟨fun c hc => (hl c hc).alphabetic, by rwa [String.ofList_toList]⟩)⟩
  rw [hcs]
  exact List.forall_mem_append.2
    ⟨fun c hc => not_breaking_of_isDigit (hd c hc), fun c hc => (hl c hc).not_breaking⟩

lemma solid_of_keyword {q : Keyword} (hw : w ≠ "") (h : Keyword.ofWord? w = some q) :
    Solid w.toList := by
  have hl := isLetter_of_keyword h
  unfold Keyword.bare at hl
  split at hl
  · rename_i cs hcs
    rw [String.toList_ofList] at hl
    refine ⟨fun h0 => hw (String.toList_eq_nil_iff.1 h0), ?_, [], w.toList, rfl, by simp, ?_,
      Or.inl rfl⟩
    · rw [hcs]
      exact List.forall_mem_cons.2 ⟨by decide, fun c hc => (hl c hc).not_breaking⟩
    · rw [hcs]
      exact List.forall_mem_cons.2 ⟨rfl, fun c hc => (hl c hc).not_digit⟩
  · exact solid_of_letters hw hl

lemma solid_of_special {d : SpecialDay} (hw : w ≠ "") (h : SpecialDay.ofWord? w = some d) :
    Solid w.toList := by
  rcases ofWord?_eq_some h with hd | ⟨n, hn, -⟩ | ⟨n, hn, -⟩
  · exact solid_of_letters hw (isLetter_of_word hd)
  · exact solid_of_compound hw (digitsThenLetters_of_nthWeekday? hn) (by simp [isCompound, hn])
  · exact solid_of_compound hw (digitsThenLetters_of_ordinalDay? hn) (by simp [isCompound, hn])

/-! ### What words are -/

def wordKind (word : String) : Except Fault Kind := classify .empty word

/-- What makes a word the kind of word it is: what it is, and for special days what it is not. -/
inductive Means (w : String) : Kind → Prop
  | number (h : Text.isNumeral w = true) : Means w .number
  | keyword {q : Keyword} (h : Keyword.ofWord? w = some q) : Means w (.keyword q)
  | anchor (h : w.toLower ∈ anchorWords) : Means w .anchor
  | unit {u : TimeUnit} (h : TimeUnit.ofWord? w = some u) : Means w (.unit u)
  | month (h : (MonthName.number? w).isSome = true) : Means w .month
  | weekday (h : (Weekday.ofName? w).isSome = true) : Means w .weekday
  | special {d : SpecialDay} (h : SpecialDay.ofWord? w = some d)
      (hmonth : MonthName.number? w = none) (hweekday : Weekday.ofName? w = none) :
      Means w (.special d)
  | am (h : w.toLower = "am") : Means w (.meridiem .am)
  | pm (h : w.toLower = "pm") : Means w (.meridiem .pm)
  | conjunction (h : w.toLower = "and") : Means w .conjunction

/-- Each kind of word has one way to be it. -/
theorem means_of_wordKind (h : wordKind w = .ok k) : Means w k := by
  -- in the order of the lexer: the first reading that fits is the one
  unfold wordKind classify at h
  dsimp only at h
  split at h
  · cases h
    exact .number ‹_›
  split at h
  · cases h
    exact .keyword (Option.some_get _).symm
  split at h
  · cases h
  split at h
  · cases h
    exact .anchor (List.contains_iff_mem.1 ‹_›)
  split at h
  · cases h
    exact .unit ‹_›
  split at h
  · cases h
    exact .month ‹_›
  rename_i hmonth
  split at h
  · cases h
    exact .weekday ‹_›
  rename_i hweekday
  split at h
  -- no zone is known in the empty database
  · rename_i hzone
    rw [Zone.Database.isKnown_empty, Bool.and_false] at hzone
    cases hzone
  split at h
  · cases h
    exact .special ‹_› (Option.not_isSome_iff_eq_none.1 hmonth)
      (Option.not_isSome_iff_eq_none.1 hweekday)
  split at h
  · cases h
    exact .am ‹_›
  split at h
  · cases h
    exact .pm ‹_›
  split at h
  · cases h
    exact .conjunction ‹_›
  · cases h

lemma wordKind_of_isNumeral (h : Text.isNumeral w = true) : wordKind w = .ok .number := by
  unfold wordKind classify
  exact if_pos h

lemma isNumeral_iff_of_wordKind (h : wordKind w = .ok k) :
    Text.isNumeral w = true ↔ k = .number := by
  refine ⟨fun hn => ?_, ?_⟩
  · rw [wordKind_of_isNumeral hn] at h
    exact (Except.ok.inj h).symm
  · rintro rfl
    cases means_of_wordKind h with
    | number h => exact h

lemma eq_none_of_not_letter {α : Type} {o : Option α}
    (ho : ∀ {a}, o = some a → ∀ c ∈ w.toList, IsLetter c) {c : Char} (hc : c ∈ w.toList)
    (hn : ¬ IsLetter c) : o = none :=
  Option.eq_none_iff_forall_ne_some.2 fun _ ha => hn (ho ha c hc)

lemma not_anchorWord {c : Char} (hc : c ∈ w.toList) (hn : ¬ IsLetter c) :
    anchorWords.contains w.toLower = false := by
  rw [← Bool.not_eq_true, List.contains_iff_mem]
  exact fun hmem => hn (isLetter_of_anchorWord hmem c hc)

lemma bare_eq_self (hat : w.toList.head? ≠ some '@') : Keyword.bare w = w := by
  unfold Keyword.bare
  split
  · rename_i cs hcs
    exact absurd (by rw [hcs, List.head?_cons]) hat
  · rfl

lemma parts_of_ordinalDay? {n : Nat} (h : ordinalDay? w = some n) :
    (∃ c ∈ w.toList, c.isDigit = true) ∧ Text.isNumeral w = false := by
  unfold ordinalDay? at h
  dsimp only at h
  split at h
  · rename_i hw
    constructor
    · obtain ⟨c, hc⟩ : ∃ c, c ∈ w.toList.takeWhile Char.isDigit := by
        refine List.exists_mem_of_ne_nil _ fun hnil => ?_
        rw [hnil] at hw
        exact absurd hw.2.2.1 (by decide)
      exact ⟨c, (List.takeWhile_sublist _).subset hc, List.mem_takeWhile_imp hc⟩
    · rw [← Bool.not_eq_true]
      intro hall
      have hnil : w.toList.dropWhile Char.isDigit = [] :=
        List.dropWhile_eq_nil_iff.2 (List.all_eq_true.1 hall)
      rw [hnil] at hw
      cases hw.2.1
  · cases h

/-- An ordinal in digits is no word of another kind. -/
lemma wordKind_of_ordinalDay? {n : Nat} (h : ordinalDay? w = some n)
    (hnth : nthWeekday? w = none) : wordKind w = .ok (.special (.ordinal n)) := by
  -- a digit stands first and letters behind the digits
  obtain ⟨⟨d, hd, hdigit⟩, hnumeral⟩ := parts_of_ordinalDay? h
  obtain ⟨ds, ls, hw, hds, hls⟩ := digitsThenLetters_of_ordinalDay? h
  have hplain {c : Char} (hc : c ∈ w.toList) : c.isDigit = true ∨ IsLetter c :=
    (List.mem_append.1 (hw ▸ hc)).imp (hds c) (hls c)
  have hfirst : ¬ w.toList.head? = some '@' := fun hhead =>
    (hplain (List.mem_of_head? hhead)).elim (by decide) fun h => by cases h
  have hletter : ¬ IsLetter d := fun hl => by rw [hl.not_digit] at hdigit; cases hdigit
  -- no word of a list has a digit in it, so only the special days are left
  have hanchor := not_anchorWord hd hletter
  have hkeyword : Keyword.isRuleWord w = false := by
    rw [← Keyword.isSome_ofWord?, Keyword.ofWord?, bare_eq_self hfirst,
      eq_none_of_not_letter isLetter_of_keyword hd hletter]
    rfl
  have hunit : TimeUnit.ofWord? w = none := eq_none_of_not_letter isLetter_of_unitWord hd hletter
  have hmonth : MonthName.number? w = none :=
    eq_none_of_not_letter isLetter_of_monthName hd hletter
  have hweekday : Weekday.ofName? w = none :=
    eq_none_of_not_letter isLetter_of_weekdayName hd hletter
  have hword : SpecialDay.words.lookup w.toLower = none :=
    eq_none_of_not_letter isLetter_of_word hd hletter
  have hspecial : SpecialDay.ofWord? w = some (.ordinal n) := by
    simp only [SpecialDay.ofWord?, hword, nthWeekday?_toLower, ordinalDay?_toLower, hnth, h,
      Option.map_some]
  unfold wordKind classify
  simp only [hnumeral, hkeyword, hfirst, hanchor, hunit, hmonth, hweekday, hspecial,
    Zone.Database.isKnown_empty, Bool.and_false, Option.isSome_none, Bool.false_eq_true, if_false,
    dif_neg, not_false_eq_true]

def canonicalWords : List (String × Kind) :=
  [("@every", .keyword .every), ("@at", .keyword .pick), ("@on", .keyword .pick),
   ("@in", .keyword .pick), ("@between", .keyword .between), ("@tz", .keyword .zone),
   ("AnchoredOn", .anchor), ("and", .conjunction), ("Last", .special (.edge .last))]

lemma wordKind_canonicalWords : ∀ p ∈ canonicalWords, wordKind p.1 = .ok p.2 := by decide +kernel

lemma wordKind_units : ∀ u ∈ TimeUnit.descending,
    wordKind u.name = .ok (.unit u) ∧ wordKind (u.name ++ "s") = .ok (.unit u) := by
  decide +kernel

/-- A word that means something is in one piece. -/
theorem solid_of_wordKind (hw : w ≠ "") (h : wordKind w = .ok k) : Solid w.toList := by
  have small {t : String} (ht : t.toList.all Char.isLower = true) (h : w.toLower = t) :
      Solid w.toList := solid_of_letters hw (isLetter_of_toLower (h ▸ ht))
  cases means_of_wordKind h with
  | number hnumeral => exact solid_of_isNumeral hw hnumeral
  | keyword hkeyword => exact solid_of_keyword hw hkeyword
  | anchor hanchor => exact solid_of_letters hw (isLetter_of_anchorWord hanchor)
  | unit hunit => exact solid_of_letters hw (isLetter_of_unitWord hunit)
  | month hmonth =>
    obtain ⟨n, hn⟩ := Option.isSome_iff_exists.1 hmonth
    exact solid_of_letters hw (isLetter_of_monthName hn)
  | weekday hweekday =>
    obtain ⟨n, hn⟩ := Option.isSome_iff_exists.1 hweekday
    exact solid_of_letters hw (isLetter_of_weekdayName hn)
  | special hspecial => exact solid_of_special hw hspecial
  | am hsmall | pm hsmall | conjunction hsmall => exact small (by decide) hsmall

/-! ### Zones -/

lemma cons_of_isName {id : String} (h : Zone.isName id = true) : ∃ c cs, id.toList = c :: cs
    ∧ c.isAlpha = true ∧ ∀ d ∈ cs, Zone.isNameChar d = true := by
  unfold Zone.isName at h
  split at h
  · cases h
  · rename_i c cs hcs
    rw [Bool.and_eq_true, List.all_eq_true] at h
    exact ⟨c, cs, hcs, h⟩

lemma toNat_of_isNameChar {c : Char} (h : Zone.isNameChar c = true) :
    0x21 ≤ c.toNat ∧ c.toNat ≤ 0x7e := by
  have h0 : '0'.toNat = 48 := rfl
  have h9 : '9'.toNat = 57 := rfl
  have hsigns : ['/', '_', '-', '+'].all (fun c => 0x21 ≤ c.toNat ∧ c.toNat ≤ 0x7e) = true := by
    decide
  rw [Zone.isNameChar, Bool.or_eq_true, Char.isAlphanum, Bool.or_eq_true, isAlpha_iff,
    Char.isDigit_iff_toNat, List.contains_iff_mem] at h
  rcases h with (h | h) | h
  · omega
  · omega
  · simpa using List.all_eq_true.1 hsigns c h

lemma toNat_of_isName {id : String} (h : Zone.isName id = true) :
    ∀ c ∈ id.toList, 0x21 ≤ c.toNat ∧ c.toNat ≤ 0x7e := by
  obtain ⟨c, cs, hcs, halpha, hrest⟩ := cons_of_isName h
  have hfirst : Zone.isNameChar c = true := by
    rw [Zone.isNameChar, Char.isAlphanum, halpha, Bool.true_or, Bool.true_or]
  rw [hcs]
  exact List.forall_mem_cons.2 ⟨toNat_of_isNameChar hfirst, fun d hd =>
    toNat_of_isNameChar (hrest d hd)⟩

lemma not_letter_slash : ¬ IsLetter '/' := show ¬ (fold '/').isLower = true by decide

lemma slash_notMem_of_wordKind (h : wordKind w = .ok k) : '/' ∉ w.toList := by
  -- every other kind of word is made of letters and digits
  intro hslash
  cases means_of_wordKind h with
  | number hn => exact absurd (List.all_eq_true.1 hn '/' hslash) (by decide)
  | keyword hq =>
    have hbare : '/' ∈ (Keyword.bare w).toList := by
      unfold Keyword.bare
      split
      · rename_i cs hcs
        rw [hcs] at hslash
        rw [String.toList_ofList]
        exact (List.mem_cons.1 hslash).resolve_left (by decide)
      · exact hslash
    exact not_letter_slash (isLetter_of_keyword hq '/' hbare)
  | anchor ha => exact not_letter_slash (isLetter_of_anchorWord ha '/' hslash)
  | unit hu => exact not_letter_slash (isLetter_of_unitWord hu '/' hslash)
  | month hm =>
    obtain ⟨n, hn⟩ := Option.isSome_iff_exists.1 hm
    exact not_letter_slash (isLetter_of_monthName hn '/' hslash)
  | weekday hd =>
    obtain ⟨n, hn⟩ := Option.isSome_iff_exists.1 hd
    exact not_letter_slash (isLetter_of_weekdayName hn '/' hslash)
  | special hs =>
    rcases digit_or_letter hs '/' hslash with hd | hl
    · cases hd
    · exact not_letter_slash hl
  | am hs | pm hs | conjunction hs =>
    exact not_letter_slash (isLetter_of_toLower (hs ▸ by decide) '/' hslash)

/-- **What a word is in a database:** a zone that is known there, or what it is in every other. -/
theorem classify_eq (D : Zone.Database) (w : String) : classify D w
    = if '/' ∈ w.toList ∧ D.isKnown w = true then .ok .zoneId else wordKind w := by
  split
  · rename_i hzone
    obtain ⟨hslash, hknown⟩ := hzone
    -- the word has a slash, and no list that is looked up before has a word with one
    have hnumeral : Text.isNumeral w = false := by
      rw [← Bool.not_eq_true]
      exact fun hn => absurd (List.all_eq_true.1 hn '/' hslash) (by decide)
    have hat : ¬ w.toList.head? = some '@' := by
      obtain ⟨c, cs, hcs, halpha, -⟩ := cons_of_isName (D.named w hknown)
      intro hhead
      rw [hcs] at hhead
      obtain rfl : c = '@' := Option.some.inj hhead
      cases halpha
    have hunit : TimeUnit.ofWord? w = none :=
      eq_none_of_not_letter isLetter_of_unitWord hslash not_letter_slash
    have hmonth : MonthName.number? w = none :=
      eq_none_of_not_letter isLetter_of_monthName hslash not_letter_slash
    have hweekday : Weekday.ofName? w = none :=
      eq_none_of_not_letter isLetter_of_weekdayName hslash not_letter_slash
    unfold classify
    simp only [hnumeral, D.notKeyword w hknown, hat, not_anchorWord hslash not_letter_slash,
      hunit, hmonth, hweekday, List.contains_iff_mem.2 hslash, hknown, Option.isSome_none,
      Bool.false_eq_true, if_false, dif_neg, not_false_eq_true, Bool.and_true, if_true]
  · rename_i hzone
    -- and a name that is not known is read as if there were no zones
    have hzone' : (w.toList.contains '/' && D.isKnown w) = false := by
      rw [← Bool.not_eq_true, Bool.and_eq_true, List.contains_iff_mem]
      exact hzone
    unfold wordKind classify
    simp only [hzone', Zone.Database.isKnown_empty, Bool.and_false]

lemma classify_of_wordKind (h : wordKind w = .ok k) : classify D w = .ok k := by
  rw [classify_eq, if_neg fun hzone => slash_notMem_of_wordKind h hzone.1, h]

lemma wordKind_or_zone (h : classify D w = .ok k) :
    wordKind w = .ok k ∨ k = .zoneId ∧ '/' ∈ w.toList := by
  rw [classify_eq] at h
  split at h
  · exact Or.inr ⟨(Except.ok.inj h).symm, And.left ‹_›⟩
  · exact Or.inl h

/-! ### Tokens of words -/

lemma ofWord?_of_kind {q : Keyword} {line column : Nat}
    (h : (ofWord D w line column).kind = .keyword q) : Keyword.ofWord? w = some q := by
  unfold ofWord at h
  split at h
  · rename_i k hk
    obtain rfl : k = .keyword q := h
    rcases wordKind_or_zone hk with hk | ⟨hk, -⟩
    · cases means_of_wordKind hk with
      | keyword hq => exact hq
    · cases hk
  · cases h

lemma opensZone_ofWord (line column : Nat) :
    (ofWord D w line column).opensZone = ((ofWord D w line column).kind == .keyword .zone) := by
  have htext : (ofWord D w line column).text = w := by
    unfold ofWord
    split <;> rfl
  unfold opensZone
  split
  · rename_i q hq
    rw [htext, hq, Bool.eq_iff_iff, Keyword.isZoneWord_iff, ofWord?_of_kind hq, beq_iff_eq]
    simp
  · rename_i hq
    exact (beq_eq_false_iff_ne.2 (hq _)).symm

end Token

namespace Scan

lemma opensZone_wordToken (D : Zone.Database) (s : Scan) :
    (s.wordToken D).opensZone = ((s.wordToken D).kind == .keyword .zone) := by
  unfold wordToken
  dsimp only
  split
  · rfl
  · exact Token.opensZone_ofWord _ _

end Scan

end Recurrence
