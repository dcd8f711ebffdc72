import Recurrence.Proofs.Text.Numerals
import Recurrence.Proofs.Token.Genuine
import Recurrence.Proofs.Token.Scanning
import Recurrence.Value.Reading

/-!
How special days are spelled: a word, a word with an offset, or the closest-weekday word with its
day number. Genuine tokens that are read as a special day give a text that is spelled so, and tokens
of such a text are read as the same special day.

Main statements: `spelling_of_special?` and `DaySpelling.special?`.
-/

namespace Recurrence

namespace Lexeme

def number (n : Nat) : Lexeme := ⟨.number, toString n⟩

/-- Whether the lexeme is a blank, punctuation that is ignored, or the end of the text. -/
def isTrivia (l : Lexeme) : Bool := (l.placed 0 0 0).isTrivia

end Lexeme

namespace Token

variable {t : Token} {ts : List Token} {l : Lexeme} {ls : List Lexeme} {w : String}

lemma Spells.kind (h : t.Spells l) : t.kind = l.kind := by
  obtain ⟨_, _, _, rfl⟩ := h
  rfl

lemma Spells.text (h : t.Spells l) : t.text = l.text := by
  obtain ⟨_, _, _, rfl⟩ := h
  rfl

lemma Spells.isTrivia (h : t.Spells l) : t.isTrivia = l.isTrivia := by
  obtain ⟨_, _, _, rfl⟩ := h
  rfl

lemma spell_cons (h : Spell ts (l :: ls)) :
    ∃ line column endColumn ts', ts = l.placed line column endColumn :: ts' ∧ Spell ts' ls := by
  obtain ⟨_, ts', ⟨line, column, endColumn, rfl⟩, hts, rfl⟩ := List.forall₂_cons_right_iff.1 h
  exact ⟨line, column, endColumn, ts', rfl, hts⟩

lemma spell_nil (h : Spell ts []) : ts = [] := List.forall₂_nil_right_iff.1 h

lemma spell_singleton (h : Spell ts [l]) :
    ∃ line column endColumn, ts = [l.placed line column endColumn] := by
  obtain ⟨line, column, endColumn, ts', rfl, hnil⟩ := spell_cons h
  exact ⟨line, column, endColumn, by rw [spell_nil hnil]⟩

lemma Spell.forall_kind {P : Kind → Prop} (h : Spell ts ls) (hl : ∀ l ∈ ls, P l.kind) :
    ∀ t ∈ ts, P t.kind := by
  induction h with
  | nil => simp
  | cons ht _ ih =>
    obtain ⟨hl, hls⟩ := List.forall_mem_cons.1 hl
    exact List.forall_mem_cons.2 ⟨ht.kind ▸ hl, ih hls⟩

lemma Spell.significant (h : Spell ts ls) :
    Spell (significant ts) (ls.filter fun l => !l.isTrivia) := by
  induction h with
  | nil => exact .nil
  | cons ht _ ih =>
    rw [Token.significant, List.filter_cons, List.filter_cons, ht.isTrivia]
    split
    · exact .cons ht ih
    · exact ih

lemma wordKind_toString (n : Nat) : wordKind (toString n) = .ok .number :=
  wordKind_of_isNumeral (Text.isNumeral_toString n)

lemma Genuine.wordKind_of_kind {k : Kind} (h : t.Genuine) (hk : t.kind = k)
    (hword : k.isWord = true) (hzone : k ≠ .zoneId) : wordKind t.text = .ok k := by
  subst hk
  unfold Genuine at h
  split at h
  all_goals simp_all [Kind.isWord]

lemma Genuine.sign_text (h : t.Genuine) (hsign : t.kind = .plus ∨ t.kind = .dash) :
    t.text = "+" ∨ t.text = "-" := by
  rcases hsign with hsign | hsign
  · exact Or.inl (by simpa [Genuine, hsign] using h)
  · exact Or.inr (by simpa [Genuine, hsign] using h)

lemma Genuine.isNumeral (h : t.Genuine) (hk : t.kind = .number) : Text.isNumeral t.text = true :=
  (isNumeral_iff_of_wordKind (h.wordKind_of_kind hk rfl nofun)).2 rfl

end Token

namespace SpecialDay

/-- Whether a special-day word is a value without a number after it. -/
def standsAlone : SpecialDay → Bool
  | closestWeekday | ordinal _ => false
  | _ => true

lemma standsAlone_iff {d : SpecialDay} :
    d.standsAlone = true ↔ d ≠ closestWeekday ∧ ∀ n, d ≠ ordinal n := by
  cases d <;> simp [standsAlone]

lemma ordinal_bounds {w : String} {n : Nat} (h : ofWord? w = some (ordinal n)) :
    1 ≤ n ∧ n ≤ 31 := by
  rcases ofWord?_eq_some h with hd | ⟨m, -, hm⟩ | ⟨m, hordinal, hm⟩
  · have hwords : ∀ p ∈ words, p.2.standsAlone = true ∨ p.2 = closestWeekday := by decide
    have := hwords (w.toLower, ordinal n) (mem_of_lookup hd)
    simp [standsAlone] at this
  · cases hm
  · cases hm
    unfold ordinalDay? at hordinal
    dsimp only at hordinal
    split at hordinal
    · rename_i hw
      cases hordinal
      exact ⟨hw.2.2.1, hw.2.2.2⟩
    · cases hordinal

end SpecialDay

namespace Value

open Token Scan

/-- How a special day is spelled, but for ordinals, of which only the number is kept. -/
inductive DaySpelling : SpecialDay → String → List Lexeme → Prop
  | word {day : SpecialDay} {w : String} (hw : wordKind w = .ok (.special day))
      (hday : day.standsAlone = true) : DaySpelling day w [⟨.special day, w⟩]
  | offset {day : SpecialDay} {w : String} {sign : Lexeme} (n : Nat)
      (hw : wordKind w = .ok (.special day)) (hday : day.takesOffset = true)
      (hsign : sign = .plus ∨ sign = .dash) :
      DaySpelling day (w ++ sign.text ++ toString n) [⟨.special day, w⟩, sign, .number n]
  | closest {w : String} (n : Nat) (hw : wordKind w = .ok (.special .closestWeekday)) :
      DaySpelling .closestWeekday (w ++ " " ++ toString n)
        [⟨.special .closestWeekday, w⟩, .blank, .number n]

variable {day : SpecialDay} {text : String} {ts : List Token} {ls : List Lexeme}

lemma dropZeros_of_number {t : Token} (ht : t.Genuine) (hk : t.kind = .number) :
    Text.dropZeros t.text = toString (Text.numeralValue t.text) :=
  Text.dropZeros_eq (ht.isNumeral hk)

lemma DaySpelling.wordKind_of_letters (h : DaySpelling day text ls)
    (hletters : ∀ c ∈ text.toList, SpecialDay.IsLetter c) :
    wordKind text = .ok (.special day) := by
  have hsign {c : Char} (hc : c ∈ text.toList) (hbreaking : Scan.isBreaking c = true) : False := by
    rw [(hletters c hc).not_breaking] at hbreaking
    cases hbreaking
  cases h with
  | word hw => exact hw
  | offset n _ _ hs =>
    rcases hs with rfl | rfl
    · exact (hsign (c := '+') (by simp [Lexeme.plus]) (by decide)).elim
    · exact (hsign (c := '-') (by simp [Lexeme.dash]) (by decide)).elim
  | closest n => exact (hsign (c := ' ') (by simp) (by decide)).elim

lemma not_letters_toString (n : Nat) :
    ¬ ∀ c ∈ (toString n).toList, SpecialDay.IsLetter c := by
  intro hletters
  obtain ⟨c, hc⟩ := List.exists_mem_of_ne_nil _ fun h =>
    Text.toString_ne_empty n (String.toList_eq_nil_iff.1 h)
  have hdigit := Text.isDigit_of_mem_toString hc
  rw [(hletters c hc).not_digit] at hdigit
  cases hdigit

/-- The tokens that are read as a special day, and the text they give. -/
inductive SpecialTokens : List Token → SpecialDay → String → Prop
  | ordinal {head : Token} {n : Nat} (hhead : head.kind = .special (.ordinal n)) :
      SpecialTokens [head] (.ordinal n) (toString n)
  | word {head : Token} {day : SpecialDay} (hhead : head.kind = .special day)
      (hday : day.standsAlone = true) : SpecialTokens [head] day head.text
  | closest {head n : Token} (hhead : head.kind = .special .closestWeekday)
    (hn : n.kind = .number) :
      SpecialTokens [head, n] .closestWeekday (head.text ++ " " ++ Text.dropZeros n.text)
  | offset {head sign n : Token} {day : SpecialDay} (hhead : head.kind = .special day)
      (hday : day.takesOffset = true) (hsign : sign.kind = .plus ∨ sign.kind = .dash)
      (hn : n.kind = .number) :
      SpecialTokens [head, sign, n] day (head.text ++ sign.text ++ Text.dropZeros n.text)

/-- There is no other way to be read as a special day. -/
theorem specialTokens_of_special? (h : special? ts = some (day, text)) :
    SpecialTokens ts day text := by
  cases ts with
  | nil => cases h
  | cons head rest =>
    unfold Value.special? at h
    dsimp only at h
    -- an ordinal stands alone, a closest day has a number, an edge may have an offset
    split at h
    · rename_i d hd
      split at h
      · cases h
        exact .ordinal hd
      · cases h
      · split at h
        · rename_i hn
          cases h
          exact .closest hd hn
        · cases h
      · cases h
      · rename_i hordinal hclosest
        cases h
        exact .word hd (SpecialDay.standsAlone_iff.2 ⟨hclosest, hordinal⟩)
      · rename_i sign n _ _
        split at h
        · rename_i hoffset
          simp only [Bool.and_eq_true, Bool.or_eq_true, decide_eq_true_eq] at hoffset
          cases h
          exact .offset hd hoffset.1.1 hoffset.1.2 hoffset.2
        · cases h
      · cases h
    · cases h

/-- What genuine tokens that are read as a special day spell. -/
theorem spelling_of_special? (hts : ∀ t ∈ ts, t.Genuine) (h : special? ts = some (day, text)) :
    (∃ n, 1 ≤ n ∧ n ≤ 31 ∧ day = .ordinal n ∧ text = toString n)
      ∨ ∃ ls, DaySpelling day text ls := by
  cases specialTokens_of_special? h with
  | @ordinal head n hhead =>
    cases means_of_wordKind ((hts head List.mem_cons_self).wordKind_of_kind hhead rfl nofun) with
    | special hordinal =>
      obtain ⟨h1, h31⟩ := SpecialDay.ordinal_bounds hordinal
      exact Or.inl ⟨_, h1, h31, rfl, rfl⟩
  | @word head _ hhead hday =>
    exact Or.inr ⟨_, .word ((hts head List.mem_cons_self).wordKind_of_kind hhead rfl nofun) hday⟩
  | @closest head n hhead hn =>
    rw [dropZeros_of_number (hts n (by simp)) hn]
    exact Or.inr ⟨_, .closest _ ((hts head List.mem_cons_self).wordKind_of_kind hhead rfl nofun)⟩
  | @offset head sign n _ hhead hday hsign hn =>
    have hw := (hts head List.mem_cons_self).wordKind_of_kind hhead rfl nofun
    rw [dropZeros_of_number (hts n (by simp)) hn]
    rcases (hts sign (by simp)).sign_text hsign with htext | htext
    · rw [htext]
      exact Or.inr ⟨_, .offset _ hw hday (Or.inl rfl)⟩
    · rw [htext]
      exact Or.inr ⟨_, .offset _ hw hday (Or.inr rfl)⟩

lemma reads_number (n : Nat) : Reads signs (toString n).toList [.number n] :=
  reads_word (Text.toString_ne_empty n) (wordKind_toString n) (by decide)

/-- The tokens of a special day are read as it. -/
theorem DaySpelling.special? (h : DaySpelling day text ls) (hts : Spell ts ls) :
    special? (significant ts) = some (day, text) := by
  cases h with
  | word hw hday =>
    obtain ⟨_, _, _, rfl⟩ := spell_singleton hts
    cases day <;> first | rfl | cases hday
  | @offset _ w _ n hw hday hsign =>
    obtain ⟨_, _, _, _, rfl, h₁⟩ := spell_cons hts
    obtain ⟨_, _, _, _, rfl, h₂⟩ := spell_cons h₁
    obtain ⟨_, _, _, rfl⟩ := spell_singleton h₂
    have hread (sign : Lexeme) : some (day, w ++ sign.text ++ Text.dropZeros (toString n))
        = some (day, w ++ sign.text ++ toString n) := by rw [Text.dropZeros_toString]
    rcases hsign with rfl | rfl <;> cases day <;> first | exact hread _ | cases hday
  | closest n hw =>
    obtain ⟨_, _, _, _, rfl, h₁⟩ := spell_cons hts
    obtain ⟨_, _, _, _, rfl, h₂⟩ := spell_cons h₁
    obtain ⟨_, _, _, rfl⟩ := spell_singleton h₂
    show some (_, _ ++ " " ++ Text.dropZeros (toString n)) = _
    rw [Text.dropZeros_toString]
    rfl

end Value

end Recurrence
