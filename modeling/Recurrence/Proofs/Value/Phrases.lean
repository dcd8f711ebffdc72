import Recurrence.Proofs.Token.Runs
import Recurrence.Proofs.Value.Forms
import Recurrence.Rule.Canonical

/-!
Reading back the phrases of canonical texts. Each phrase is known by its tokens: a clock time, a
date with dashes, a day with a time after it. Whatever stands around it, its tokens are read as the
values that it was made of.
-/

namespace Recurrence

open Token

/-- Whether a token can stand in a value: no keyword, no sign of a list or a range. -/
def Lexeme.isPlain (l : Lexeme) : Bool :=
  match l.kind with
  | .keyword _ | .anchor | .conjunction | .comma | .openBracket | .closeBracket => false
  | .punctuation | .endOfInput | .unknown => false
  | _ => true

/-- A text with the tokens of a value: they can stand in one, and no blank is at either end. -/
structure Phrase (text : String) (ls : List Lexeme) : Prop where
  reads : Scan.Reads Scan.signs text.toList ls
  plain : ∀ l ∈ ls, l.isPlain = true
  first : ∃ l, ls.head? = some l ∧ l.kind ≠ .blank
  closed : Scan.Closed ls

namespace Phrase

variable {text text' : String} {ls ls' : List Lexeme}

lemma word {w : String} {k : Kind} (hw : w ≠ "") (h : wordKind w = .ok k)
    (hplain : (⟨k, w⟩ : Lexeme).isPlain = true) : Phrase w [⟨k, w⟩] := by
  have hk : k ≠ .keyword .zone := by
    rintro rfl
    cases hplain
  have hblank : k ≠ .blank := by
    rintro rfl
    cases isWord_of_wordKind h
  exact ⟨Scan.reads_word hw h hk, by simpa using hplain, ⟨_, rfl, hblank⟩, ⟨_, rfl, hblank⟩⟩

lemma append {c : Char} {l : Lexeme} (h : Phrase text ls) (h' : Phrase text' ls')
    (hc : (c, l) ∈ Scan.signLexemes) (hl : l.isPlain = true) :
    Phrase (text ++ String.singleton c ++ text') (ls ++ l :: ls') := by
  have hmem : c ∈ Scan.signs := by
    have : ∀ p ∈ Scan.signLexemes, p.1 ∈ Scan.signs := by decide
    exact this _ hc
  refine ⟨?_, ?_, ?_, ?_⟩
  · rw [String.toList_append, String.toList_append, String.toList_singleton, List.append_assoc]
    exact h.reads.append h'.reads hc hmem fun _ => h.closed
  · exact List.forall_mem_append.2 ⟨h.plain, List.forall_mem_cons.2 ⟨hl, h'.plain⟩⟩
  · obtain ⟨a, ha, hk⟩ := h.first
    exact ⟨a, by rw [List.head?_append, ha]; rfl, hk⟩
  · obtain ⟨a, ha, hk⟩ := h'.closed
    obtain ⟨init, rfl⟩ := List.getLast?_eq_some_iff.1 ha
    exact ⟨a, by rw [List.getLast?_append, List.getLast?_cons, List.getLast?_append]; simp, hk⟩

lemma spaced (h : Phrase text ls) (h' : Phrase text' ls') :
    Phrase (text ++ " " ++ text') (ls ++ .blank :: ls') :=
  h.append h' (c := ' ') (by decide) rfl

lemma dashed (h : Phrase text ls) (h' : Phrase text' ls') :
    Phrase (text ++ "-" ++ text') (ls ++ .dash :: ls') :=
  h.append h' (c := '-') (by decide) rfl

lemma number (n : Nat) : Phrase (toString n) [.number n] :=
  word (Text.toString_ne_empty n) (wordKind_toString n) rfl

lemma day {day : SpecialDay} (h : Value.DaySpelling day text ls) : Phrase text ls := by
  have hword {w : String} {day : SpecialDay} (hw : wordKind w = .ok (.special day)) :
      Phrase w [⟨.special day, w⟩] := by
    refine word ?_ hw rfl
    rintro rfl
    cases hw
  cases h with
  | word hw => exact hword hw
  | offset n hw _ hsign =>
    rcases hsign with rfl | rfl
    · exact (hword hw).append (number n) (c := '+') (by decide) rfl
    · exact (hword hw).dashed (number n)
  | closest n hw => exact (hword hw).spaced (number n)

end Phrase

namespace Value

variable {ts : List Token} {text : String} {ls : List Lexeme}

/-! ### Clock times -/

def twoDigits (n : Nat) : Lexeme := ⟨.number, Text.twoDigits n⟩

def clockLexemes (h m : Nat) : Option Nat → List Lexeme
  | none => [twoDigits h, .colon, twoDigits m]
  | some s => [twoDigits h, .colon, twoDigits m, .colon, twoDigits s]

def clockText (h m : Nat) : Option Nat → String
  | none => Text.twoDigits h ++ ":" ++ Text.twoDigits m
  | some s => Text.twoDigits h ++ ":" ++ Text.twoDigits m ++ ":" ++ Text.twoDigits s

def clockValues (h m : Nat) : Option Nat → Values
  | none => [(.hour, toString h), (.minute, toString m)]
  | some s => [(.hour, toString h), (.minute, toString m), (.second, toString s)]

lemma phrase_twoDigits (n : Nat) : Phrase (Text.twoDigits n) [twoDigits n] :=
  .word (Text.twoDigits_ne_empty n) (wordKind_of_isNumeral (Text.isNumeral_twoDigits n))
    rfl

lemma phrase_clock (h m : Nat) (s : Option Nat) :
    Phrase (clockText h m s) (clockLexemes h m s) := by
  have hm := (phrase_twoDigits h).append (phrase_twoDigits m) (c := ':') (l := .colon)
    (by decide) rfl
  cases s with
  | none => exact hm
  | some s => exact hm.append (phrase_twoDigits s) (c := ':') (by decide) rfl

lemma clock_of_spell {h m : Nat} {s : Option Nat} (hts : Spell ts (clockLexemes h m s)) :
    clock ts = .ok (clockValues h m s) := by
  cases s with
  | none =>
    obtain ⟨_, _, _, _, rfl, h₁⟩ := spell_cons hts
    obtain ⟨_, _, _, _, rfl, h₂⟩ := spell_cons h₁
    obtain ⟨_, _, _, rfl⟩ := spell_singleton h₂
    show Except.ok [(_, Text.dropZeros (Text.twoDigits h)), (_, Text.dropZeros (Text.twoDigits m))]
      = _
    rw [Text.dropZeros_twoDigits, Text.dropZeros_twoDigits]
    rfl
  | some s =>
    obtain ⟨_, _, _, _, rfl, h₁⟩ := spell_cons hts
    obtain ⟨_, _, _, _, rfl, h₂⟩ := spell_cons h₁
    obtain ⟨_, _, _, _, rfl, h₃⟩ := spell_cons h₂
    obtain ⟨_, _, _, _, rfl, h₄⟩ := spell_cons h₃
    obtain ⟨_, _, _, rfl⟩ := spell_singleton h₄
    show Except.ok [(_, Text.dropZeros (Text.twoDigits h)), (_, Text.dropZeros (Text.twoDigits m)),
      (_, Text.dropZeros (Text.twoDigits s))] = _
    rw [Text.dropZeros_twoDigits, Text.dropZeros_twoDigits, Text.dropZeros_twoDigits]
    rfl

/-! ### Dates -/

lemma dateFields_ne_nil (left : Option Token) (ts : List Token) : dateFields left ts ≠ [] := by
  cases ts with
  | nil => simp [dateFields]
  | cons t ts =>
    rw [dateFields]
    split
    · simp
    · split <;> simp

/-- Tokens that no date dash divides: whatever follows, the first field goes on. -/
def Undivided (ts : List Token) : Prop :=
  ∀ left rest field fields, dateFields ts.getLast? rest = field :: fields →
    dateFields left (ts ++ rest) = (ts ++ field) :: fields

lemma dateFields_cons {t : Token} {rest field : List Token} {fields : List (List Token)}
    {left : Option Token} (ht : isDateDash left t rest = false)
    (h : dateFields (some t) rest = field :: fields) :
    dateFields left (t :: rest) = (t :: field) :: fields := by
  rw [dateFields, if_neg (by rw [ht]; decide), h]

lemma undivided_singleton {t : Token} (ht : t.kind ≠ .dash) : Undivided [t] := by
  intro left rest field fields h
  exact dateFields_cons (by simp [isDateDash, ht]) h

/-- An edge and its offset are in one field. -/
lemma undivided_offset {w sign n : Token} {day : SpecialDay} (hw : w.kind = .special day)
    (hday : day.takesOffset = true) (hn : n.kind = .number) : Undivided [w, sign, n] := by
  intro left rest field fields h
  refine dateFields_cons (by simp [isDateDash, hw]) ?_
  refine dateFields_cons (by simp [isDateDash, hw, hday, hn]) ?_
  exact dateFields_cons (by simp [isDateDash, hn]) h

lemma Undivided.dateFields_end (h : Undivided ts) (left : Option Token) :
    dateFields left ts = [ts] := by
  have := h left [] [] [] rfl
  rwa [List.append_nil] at this

lemma Undivided.append {us : List Token} (h : Undivided ts) (h' : Undivided us)
    (hus : us ≠ []) : Undivided (ts ++ us) := by
  intro left rest field fields hrest
  rw [List.append_assoc, List.append_assoc]
  refine h left _ _ _ (h' _ rest _ _ ?_)
  rwa [List.getLast?_append_of_ne_nil _ hus] at hrest

lemma Undivided.dateFields_dash {d : Token} {rest : List Token} (h : Undivided ts)
    (hd : isDateDash ts.getLast? d rest = true) (left : Option Token) :
    dateFields left (ts ++ d :: rest) = ts :: dateFields (some d) rest := by
  have := h left (d :: rest) [] (dateFields (some d) rest)
    (by rw [dateFields, if_pos hd])
  rwa [List.append_nil] at this

/-- How the month or the day of a date is spelled. -/
inductive FieldSpelling : TimeUnit → String → List Lexeme → Prop
  | number (u : TimeUnit) (n : Nat) : FieldSpelling u (toString n) [.number n]
  | name {w : String} (h : wordKind w = .ok .month) : FieldSpelling .month w [⟨.month, w⟩]
  | special {u : TimeUnit} {day : SpecialDay} {text : String} {ls : List Lexeme}
      (h : DaySpelling day text ls) (hclosest : day ≠ .closestWeekday)
      (hu : u = .day ∨ u = .month ∧ ∃ e, day = .edge e) : FieldSpelling u text ls

/-- What the tokens of a field of a date are like. -/
structure FieldTokens (u : TimeUnit) (text : String) (ts : List Token) : Prop where
  read : dateField u ts = .ok text
  undivided : Undivided ts
  meaning : ∀ t ∈ ts, t.isTrivia = false ∧ t.unit?.isSome = false
  untimed : isTimed ts = false
  nonempty : ts ≠ []

lemma dateField_special {u : TimeUnit} {day : SpecialDay} (h : special? ts = some (day, text))
    (hclosest : day ≠ .closestWeekday) (hu : u = .day ∨ u = .month ∧ ∃ e, day = .edge e)
    (hts : ∀ t, ts = [t] → t.kind ≠ .number ∧ t.kind ≠ .month) : dateField u ts = .ok text := by
  unfold dateField
  extract_lets invalid special
  have hspecial : special = .ok text := by
    dsimp only [special, invalid]
    rw [h]
    rcases hu with rfl | ⟨rfl, e, rfl⟩
    · cases day <;> first | rfl | exact absurd rfl hclosest
    · rfl
  split
  · rename_i t
    obtain ⟨hn, hm⟩ := hts t rfl
    rw [if_neg hn, if_neg (fun hc => hm hc.2)]
    exact hspecial
  · exact hspecial

lemma FieldSpelling.tokens {u : TimeUnit} (h : FieldSpelling u text ls) (hts : Spell ts ls) :
    FieldTokens u text ts := by
  cases h with
  | number u n =>
    obtain ⟨_, _, _, rfl⟩ := spell_singleton hts
    refine ⟨?_, undivided_singleton (by rintro ⟨⟩), ?_, rfl, by simp⟩
    · show Except.ok (Text.dropZeros (toString n)) = _
      rw [Text.dropZeros_toString]
    · exact List.forall_mem_singleton.2 ⟨rfl, rfl⟩
  | name h =>
    obtain ⟨_, _, _, rfl⟩ := spell_singleton hts
    exact ⟨rfl, undivided_singleton (by rintro ⟨⟩), List.forall_mem_singleton.2 ⟨rfl, rfl⟩, rfl,
      by simp⟩
  | @special u day text ls h hclosest hu =>
    have hspecial := h.special? hts
    cases h with
    | word hw hday =>
      obtain ⟨_, _, _, rfl⟩ := spell_singleton hts
      exact ⟨dateField_special hspecial hclosest hu
        (by rintro _ ⟨⟩; exact ⟨by rintro ⟨⟩, by rintro ⟨⟩⟩),
        undivided_singleton (by rintro ⟨⟩), List.forall_mem_singleton.2 ⟨rfl, rfl⟩, rfl, by simp⟩
    | offset n hw hday hsign =>
      obtain ⟨_, _, _, _, rfl, h₁⟩ := spell_cons hts
      obtain ⟨_, _, _, _, rfl, h₂⟩ := spell_cons h₁
      obtain ⟨_, _, _, rfl⟩ := spell_singleton h₂
      -- either sign is read as a part of the value, not as a dash between fields
      rcases hsign with rfl | rfl <;>
        exact ⟨dateField_special hspecial hclosest hu (by rintro _ ⟨⟩),
          undivided_offset rfl hday rfl,
          List.forall_mem_cons.2 ⟨⟨rfl, rfl⟩,
            List.forall_mem_cons.2 ⟨⟨rfl, rfl⟩, List.forall_mem_singleton.2 ⟨rfl, rfl⟩⟩⟩,
          rfl, by simp⟩
    | closest n hw => exact absurd rfl hclosest

/-- What the tokens of a date are like. -/
structure DateTokens (vs : Values) (ts : List Token) : Prop where
  read : date ts = .ok vs
  dashed : ∀ rest, hasDateDash (ts ++ rest) = true
  meaning : ∀ t ∈ ts, t.isTrivia = false ∧ t.unit?.isSome = false
  untimed : isTimed ts = false
  nonempty : ts ≠ []

lemma significant_eq (h : ∀ t ∈ ts, t.isTrivia = false) : significant ts = ts :=
  List.filter_eq_self.2 fun t ht => by simp [h t ht]

lemma trimmed_of_meaning (hne : ts ≠ []) (h : ∀ t ∈ ts, t.isTrivia = false) : Trimmed ts := by
  refine ⟨⟨ts.head hne, List.head?_eq_some_head hne, h _ (List.head_mem hne)⟩,
    ⟨ts.getLast hne, List.getLast?_eq_some_getLast hne, h _ (List.getLast_mem hne)⟩⟩

lemma rejectUnit_eq_ok {format : ValueFormat} (h : ∀ t ∈ ts, t.unit?.isSome = false) :
    rejectUnit ts format = .ok () := by
  have hnone : ts.find? (fun t => t.unit?.isSome) = none :=
    List.find?_eq_none.2 fun t ht => by simp [h t ht]
  rw [rejectUnit, hnone]

lemma date_of_fields {fields : List (List Token)} {vs : Values} (units : List TimeUnit)
    (hne : ts ≠ []) (hts : ∀ t ∈ ts, t.isTrivia = false ∧ t.unit?.isSome = false)
    (hfields : dateFields none ts = fields) (hempty : ∀ field ∈ fields, field ≠ [])
    (hunits : (if fields.head?.any isYear then [TimeUnit.year, .month, .day] else [.month, .day])
      = units)
    (hlength : fields.length ≤ units.length)
    (hread : ((units.zip fields).mapM fun (unit, field) => do
      return (unit, ← dateField unit field)) = .ok vs) : date ts = .ok vs := by
  have hmeaning : ∀ t ∈ ts, t.isTrivia = false := fun t ht => (hts t ht).1
  have hblank : (ts.any fun t => t.kind = .blank) = false := by
    rw [List.any_eq_false]
    intro t ht hk
    have := hmeaning t ht
    simp [isTrivia, of_decide_eq_true hk] at this
  have hthree : ¬ 3 < fields.length := by
    have : units.length ≤ 3 := by
      rw [← hunits]
      split <;> decide
    omega
  have hnone : fields.any List.isEmpty = false := by
    rw [List.any_eq_false]
    intro field hf he
    exact hempty field hf (List.isEmpty_iff.1 he)
  unfold date
  rw [trimTrivia_eq (trimmed_of_meaning hne hmeaning)]
  simp only [hblank, significant_eq hmeaning, rejectUnit_eq_ok fun t ht => (hts t ht).2, hfields,
    if_neg hthree, hnone, hunits, if_neg (not_lt.2 hlength)]
  exact hread

lemma isYear_number {n : Nat} (hn : 1000 ≤ n ∧ n ≤ 9999) {line column endColumn : Nat} :
    isYear [(Lexeme.number n).placed line column endColumn] = true := by
  have h₁ := (Nat.length_repr_le_iff (n := n) (k := 4) (by decide)).2 (by omega)
  have h₂ := mt (Nat.length_repr_le_iff (n := n) (k := 3) (by decide)).1 (by omega)
  have : n.repr.length = 4 := by omega
  simp only [isYear, Bool.and_eq_true, decide_eq_true_eq]
  exact ⟨rfl, this⟩

lemma isDateDash_append {left : Option Token} {d : Token} {rest : List Token} (hts : ts ≠ []) :
    isDateDash left d (ts ++ rest) = isDateDash left d ts := by
  cases ts with
  | nil => exact absurd rfl hts
  | cons t ts => rfl

lemma Undivided.hasDateDash {d : Token} {rest : List Token} (h : Undivided ts)
    (hd : isDateDash ts.getLast? d rest = true) : hasDateDash (ts ++ d :: rest) = true := by
  have := List.length_pos_iff.2 (dateFields_ne_nil (some d) rest)
  rw [Value.hasDateDash, h.dateFields_dash hd, List.length_cons, decide_eq_true_eq]
  omega

lemma isTimed_append (ts us : List Token) : isTimed (ts ++ us) = (isTimed ts || isTimed us) :=
  List.any_append

lemma isTimed_cons_dash {d : Token} (hd : d.kind = .dash) (ts : List Token) :
    isTimed (d :: ts) = isTimed ts := by
  rw [isTimed, List.any_cons, hd]
  rfl

section DateTokens

variable {m d : String} {ms ds ys : List Token} {a b : Token}

lemma meaning_dash (ha : a.kind = .dash)
    (hts : ∀ t ∈ ts, t.isTrivia = false ∧ t.unit?.isSome = false) :
    ∀ t ∈ a :: ts, t.isTrivia = false ∧ t.unit?.isSome = false :=
  List.forall_mem_cons.2 ⟨⟨by simp [isTrivia, ha], by simp [Token.unit?, ha]⟩, hts⟩

lemma dateTokens_monthDay (hm : FieldTokens .month m ms) (hd : FieldTokens .day d ds)
    (hy : isYear ms = false) (ha : a.kind = .dash) (hsep : isDateDash ms.getLast? a ds = true) :
    DateTokens [(.month, m), (.day, d)] (ms ++ a :: ds) := by
  have hmeaning := List.forall_mem_append.2 ⟨hm.meaning, meaning_dash ha hd.meaning⟩
  have hfields : dateFields none (ms ++ a :: ds) = [ms, ds] := by
    rw [hm.undivided.dateFields_dash hsep, hd.undivided.dateFields_end]
  refine ⟨?_, fun rest => ?_, hmeaning, ?_, by simp⟩
  · refine date_of_fields [.month, .day] (by simp) hmeaning hfields
      (by simpa using ⟨hm.nonempty, hd.nonempty⟩) (by simp [hy]) le_rfl ?_
    simp only [List.zip_cons_cons, List.mapM_cons, hm.read, hd.read]
    rfl
  · rw [List.append_assoc, List.cons_append]
    exact hm.undivided.hasDateDash (by rwa [isDateDash_append hd.nonempty])
  · rw [isTimed_append, isTimed_cons_dash ha, hm.untimed, hd.untimed]
    rfl

lemma dateTokens_yearMonth {y : String} (hys : FieldTokens .year y ys)
    (hm : FieldTokens .month m ms) (hy : isYear ys = true) (ha : a.kind = .dash)
    (hsep : isDateDash ys.getLast? a ms = true) :
    DateTokens [(.year, y), (.month, m)] (ys ++ a :: ms) := by
  have hmeaning := List.forall_mem_append.2 ⟨hys.meaning, meaning_dash ha hm.meaning⟩
  have hfields : dateFields none (ys ++ a :: ms) = [ys, ms] := by
    rw [hys.undivided.dateFields_dash hsep, hm.undivided.dateFields_end]
  refine ⟨?_, fun rest => ?_, hmeaning, ?_, by simp⟩
  · refine date_of_fields [.year, .month, .day] (by simp) hmeaning hfields
      (by simpa using ⟨hys.nonempty, hm.nonempty⟩) (by simp [hy]) (by simp) ?_
    simp only [List.zip_cons_cons, List.zip_nil_right, List.mapM_cons, hys.read, hm.read]
    rfl
  · rw [List.append_assoc, List.cons_append]
    exact hys.undivided.hasDateDash (by rwa [isDateDash_append hm.nonempty])
  · rw [isTimed_append, isTimed_cons_dash ha, hys.untimed, hm.untimed]
    rfl

lemma dateTokens_yearMonthDay {y : String} (hys : FieldTokens .year y ys)
    (hm : FieldTokens .month m ms) (hd : FieldTokens .day d ds) (hy : isYear ys = true)
    (ha : a.kind = .dash) (hb : b.kind = .dash)
    (hsep : isDateDash ys.getLast? a ms = true) (hsep' : isDateDash ms.getLast? b ds = true) :
    DateTokens [(.year, y), (.month, m), (.day, d)] (ys ++ a :: (ms ++ b :: ds)) := by
  have hmeaning := List.forall_mem_append.2 ⟨hys.meaning, meaning_dash ha
    (List.forall_mem_append.2 ⟨hm.meaning, meaning_dash hb hd.meaning⟩)⟩
  have hsepAll : isDateDash ys.getLast? a (ms ++ b :: ds) = true := by
    rwa [isDateDash_append hm.nonempty]
  have hfields : dateFields none (ys ++ a :: (ms ++ b :: ds)) = [ys, ms, ds] := by
    rw [hys.undivided.dateFields_dash hsepAll, hm.undivided.dateFields_dash hsep',
      hd.undivided.dateFields_end]
  refine ⟨?_, fun rest => ?_, hmeaning, ?_, by simp⟩
  · refine date_of_fields [.year, .month, .day] (by simp) hmeaning hfields
      (by simpa using ⟨hys.nonempty, hm.nonempty, hd.nonempty⟩) (by simp [hy]) le_rfl ?_
    simp only [List.zip_cons_cons, List.mapM_cons, hys.read, hm.read, hd.read]
    rfl
  · rw [List.append_assoc, List.cons_append]
    exact hys.undivided.hasDateDash (by rwa [isDateDash_append (by simp)])
  · rw [isTimed_append, isTimed_cons_dash ha, isTimed_append, isTimed_cons_dash hb, hys.untimed,
      hm.untimed, hd.untimed]
    rfl

end DateTokens

/-! ### Values of several units -/

/-- What the tokens of a clock time are like. -/
structure ClockTokens (vs : Values) (ts : List Token) : Prop where
  read : clock ts = .ok vs
  kind : ∀ t ∈ ts, t.kind = .number ∨ t.kind = .colon
  timed : isTimed ts = true
  several : 2 ≤ ts.length

lemma clockTokens_of_spell {h m : Nat} {s : Option Nat} (hts : Spell ts (clockLexemes h m s)) :
    ClockTokens (clockValues h m s) ts := by
  have hkind : ∀ l ∈ clockLexemes h m s, l.kind = .number ∨ l.kind = .colon := by
    cases s <;> simp [clockLexemes, twoDigits, Lexeme.colon]
  refine ⟨clock_of_spell hts,
    hts.forall_kind (P := fun k => k = .number ∨ k = .colon) hkind, ?_, ?_⟩
  · cases s with
    | none =>
      obtain ⟨_, _, _, _, rfl, h₁⟩ := spell_cons hts
      obtain ⟨_, _, _, _, rfl, -⟩ := spell_cons h₁
      rfl
    | some s =>
      obtain ⟨_, _, _, _, rfl, h₁⟩ := spell_cons hts
      obtain ⟨_, _, _, _, rfl, -⟩ := spell_cons h₁
      rfl
  · rw [hts.length_eq]
    cases s <;> simp [clockLexemes]

lemma ClockTokens.meaning {vs : Values} (h : ClockTokens vs ts) :
    ∀ t ∈ ts, t.isTrivia = false ∧ t.unit?.isSome = false := by
  intro t ht
  rcases h.kind t ht with hk | hk <;> exact ⟨by simp [isTrivia, hk], by simp [Token.unit?, hk]⟩

lemma ClockTokens.undashed {vs : Values} (h : ClockTokens vs ts) : ∀ t ∈ ts, t.kind ≠ .dash := by
  intro t ht
  rcases h.kind t ht with hk | hk <;> simp [hk]

lemma ClockTokens.nonempty {vs : Values} (h : ClockTokens vs ts) : ts ≠ [] := by
  rintro rfl
  exact absurd h.several (by decide)

lemma dateFields_of_undashed (h : ∀ t ∈ ts, t.kind ≠ .dash) (left : Option Token) :
    dateFields left ts = [ts] := by
  induction ts generalizing left with
  | nil => rfl
  | cons t ts ih =>
    obtain ⟨ht, hts⟩ := List.forall_mem_cons.1 h
    exact dateFields_cons (by simp [isDateDash, ht]) (ih hts _)

lemma not_hasDateDash_of_undashed (h : ∀ t ∈ ts, t.kind ≠ .dash) : hasDateDash ts = false := by
  rw [hasDateDash, dateFields_of_undashed h]
  rfl

lemma ne_blank_of_meaning (h : ∀ t ∈ ts, t.isTrivia = false ∧ t.unit?.isSome = false) :
    ∀ t ∈ ts, t.kind ≠ .blank := by
  intro t ht hk
  have := (h t ht).1
  simp [isTrivia, hk] at this

lemma significant_of_meaning (h : ∀ t ∈ ts, t.isTrivia = false ∧ t.unit?.isSome = false) :
    significant ts = ts := significant_eq fun t ht => (h t ht).1

lemma significant_append_blank {us : List Token} {b : Token} (hb : b.kind = .blank) :
    significant (ts ++ b :: us) = significant ts ++ significant us := by
  rw [significant, List.filter_append, List.filter_cons, if_neg (by simp [isTrivia, hb])]
  rfl

lemma trimmed_append_blank {us : List Token} {b : Token} (hts : Trimmed ts) (hus : Trimmed us) :
    Trimmed (ts ++ b :: us) := by
  obtain ⟨t, ht, hk⟩ := hts.first
  obtain ⟨u, hu, hk'⟩ := hus.last
  obtain ⟨init, rfl⟩ := List.getLast?_eq_some_iff.1 hu
  refine ⟨⟨t, by rw [List.head?_append, ht]; rfl, hk⟩, ⟨u, ?_, hk'⟩⟩
  rw [List.getLast?_append, List.getLast?_cons, List.getLast?_append]
  simp

variable {default : Option TimeUnit} {vs : Values} {us : List Token} {b : Token}

lemma ClockTokens.read_eq (h : ClockTokens vs ts) : Value.read ts default = .ok vs := by
  have hdash : hasDateDash ts = false := not_hasDateDash_of_undashed h.undashed
  unfold Value.read
  rw [trimTrivia_eq (trimmed_of_meaning h.nonempty fun t ht => (h.meaning t ht).1)]
  simp only [significant_of_meaning h.meaning, h.timed, hdash]
  rw [if_neg (by simpa using h.nonempty), if_neg]
  · exact h.read
  · intro hany
    obtain ⟨t, ht, hspecial⟩ := List.any_eq_true.1 hany
    rcases h.kind t ht with hk | hk <;> simp [hk] at hspecial

lemma DateTokens.read_eq (h : DateTokens vs ts) : Value.read ts default = .ok vs := by
  have hdash : hasDateDash ts = true := by
    have := h.dashed []
    rwa [List.append_nil] at this
  unfold Value.read
  rw [trimTrivia_eq (trimmed_of_meaning h.nonempty fun t ht => (h.meaning t ht).1)]
  simp only [significant_of_meaning h.meaning, h.untimed, hdash]
  rw [if_neg (by simpa using h.nonempty)]
  exact h.read

lemma DateTokens.read_append {ws : Values} (h : DateTokens vs ts) (hc : ClockTokens ws us)
    (hb : b.kind = .blank) : Value.read (ts ++ b :: us) default = .ok (vs ++ ws) := by
  have htrim : trimTrivia (ts ++ b :: us) = ts ++ b :: us :=
    trimTrivia_eq (trimmed_append_blank
      (trimmed_of_meaning h.nonempty fun t ht => (h.meaning t ht).1)
      (trimmed_of_meaning hc.nonempty fun t ht => (hc.meaning t ht).1))
  have hsignificant : significant (ts ++ b :: us) = ts ++ us := by
    rw [significant_append_blank hb, significant_of_meaning h.meaning,
      significant_of_meaning hc.meaning]
  -- one blank makes two runs, the date and the time
  have hruns : runs (ts ++ b :: us) = [⟨ts, [b]⟩, ⟨us, []⟩] := by
    have hus := splitRuns_eq_singleton hc.nonempty (ne_blank_of_meaning hc.meaning)
    rw [runs, splitRuns_append_blank h.nonempty (ne_blank_of_meaning h.meaning) hb (by rw [hus]),
      runs, hus]
  -- of which only the first has a dash between fields
  have hdated : hasDateDash (Run.meaning ⟨ts, [b]⟩) = true := by
    have := h.dashed []
    rwa [List.append_nil, ← significant_of_meaning h.meaning] at this
  have hundated : hasDateDash (Run.meaning ⟨us, []⟩) = false := by
    rw [Run.meaning, significant_of_meaning hc.meaning]
    exact not_hasDateDash_of_undashed hc.undashed
  have hdateTime : dateTime (ts ++ b :: us) = .ok (vs ++ ws) := by
    unfold dateTime
    simp only [htrim, hruns, List.dropWhile_cons, List.takeWhile_cons, hdated, hundated]
    simp only [Bool.not_true, Bool.false_eq_true, if_false, List.any_cons, List.any_nil, hundated,
      Bool.or_false, List.flatMap_cons, List.flatMap_nil, Run.all, List.append_nil, pure_bind,
      h.read, hc.read]
    rfl
  unfold Value.read
  simp only [htrim, hsignificant, isTimed_append, hc.timed, Bool.or_true, h.dashed us]
  rw [if_neg (by simpa using fun h' => absurd h' h.nonempty)]
  exact hdateTime

/-! ### Days with a time -/

def isSpecial (t : Token) : Bool :=
  match t.kind with
  | .special _ => true
  | _ => false

/-- What the tokens of a special day are like that stands before a time: its runs and the one field
that they make. -/
structure DayTokens (day : String) (ts : List Token) : Prop where
  trimmed : Trimmed ts
  special : ∃ t ∈ significant ts, isSpecial t = true
  undivided : Undivided (significant ts)
  split : ∃ (rs : Token → List Run) (field : List Token),
    (∀ b us, b.kind = .blank → (splitRuns us).1 = [] →
      splitRuns (ts ++ b :: us) = ([], rs b ++ runs us))
    ∧ (∀ b, ∀ r ∈ rs b, isTimed r.meaning = false)
    ∧ (∀ b more, attachDayNumbers ((rs b).map Run.meaning ++ more) = field :: attachDayNumbers more)
    ∧ dayPart field = .ok (.day, day)

lemma attachDayNumbers_cons {t : Token} (ht : t.kind ≠ .special .closestWeekday)
    (more : List (List Token)) :
    attachDayNumbers ([t] :: more) = [t] :: attachDayNumbers more := by
  cases more with
  | nil => rfl
  | cons run rest =>
    match run with
    | [] => rfl
    | [n] => rw [attachDayNumbers, if_neg fun h => ht h.1]
    | n :: m :: run => rfl

lemma dayPart_special {day : SpecialDay} {text : String}
    (hunit : ∀ t ∈ ts, t.unit?.isSome = false) (hspecial : special? ts = some (day, text))
    (hword : ∀ t, ts = [t] → t.kind ≠ .special .closestWeekday ∧ t.kind ≠ .month ∧ t.kind ≠ .number)
    : dayPart ts = .ok (.day, text) := by
  unfold dayPart
  extract_lets special
  have hread : special = .ok (.day, text) := by
    dsimp only [special]
    rw [rejectUnit_eq_ok hunit, hspecial]
    rfl
  split
  · rename_i t
    obtain ⟨hclosest, hmonth, hnumber⟩ := hword t rfl
    have hyear : isYear [t] = false := by simp [isYear, hnumber]
    rw [if_neg hmonth, if_neg (by rw [hyear]; decide), if_neg hclosest]
    exact hread
  · exact hread

lemma dayTokens_of_run {day : SpecialDay} {text : String} (hne : ts ≠ [])
    (hmeaning : ∀ t ∈ ts, t.isTrivia = false ∧ t.unit?.isSome = false)
    (hspecial : special? ts = some (day, text)) (hsome : ∃ t ∈ ts, isSpecial t = true)
    (hundivided : Undivided ts) (huntimed : isTimed ts = false)
    (hword : ∀ t, ts = [t] → t.kind ≠ .special .closestWeekday ∧ t.kind ≠ .month ∧ t.kind ≠ .number)
    : DayTokens text ts := by
  have hs := significant_of_meaning hmeaning
  refine ⟨trimmed_of_meaning hne fun t ht => (hmeaning t ht).1, by rwa [hs], by rwa [hs],
    fun b => [⟨ts, [b]⟩], ts, ?_, ?_, ?_, ?_⟩
  · intro b us hb hus
    exact splitRuns_append_blank hne (ne_blank_of_meaning hmeaning) hb hus
  · intro b r hr
    rw [List.mem_singleton.1 hr, Run.meaning, hs]
    exact huntimed
  · intro b more
    show attachDayNumbers (significant ts :: more) = _
    rw [hs]
    match ts, hword with
    | [], _ => exact absurd rfl hne
    | [t], hword => exact attachDayNumbers_cons (hword t rfl).1 more
    | a :: b :: ts, _ => rfl
  · exact dayPart_special (fun t ht => (hmeaning t ht).2) hspecial hword

lemma dayTokens_closest {c space n : Token} {day : SpecialDay} {text : String}
    (hc : c.kind = .special .closestWeekday) (hspace : space.kind = .blank) (hn : n.kind = .number)
    (hspecial : special? [c, n] = some (day, text)) : DayTokens text [c, space, n] := by
  have hsignificant : significant [c, space, n] = [c, n] := by
    simp [significant, isTrivia, hc, hspace, hn]
  have hone {t : Token} (ht : t.kind ≠ .blank) : [t] ≠ [] ∧ ∀ t' ∈ [t], t'.kind ≠ .blank :=
    ⟨by simp, List.forall_mem_singleton.2 ht⟩
  -- the word and its number stand in two runs
  have hmeaning (t : Token) (gap : List Token) (ht : t.isTrivia = false) :
      Run.meaning ⟨[t], gap⟩ = [t] := significant_eq (List.forall_mem_singleton.2 ht)
  refine ⟨⟨⟨c, rfl, by simp [isTrivia, hc]⟩, ⟨n, rfl, by simp [isTrivia, hn]⟩⟩, ?_, ?_,
    fun b => [⟨[c], [space]⟩, ⟨[n], [b]⟩], [c, n], ?_, ?_, ?_,
    dayPart_special ?_ hspecial (by rintro _ ⟨⟩)⟩
  · rw [hsignificant]
    exact ⟨c, List.mem_cons_self, by simp [isSpecial, hc]⟩
  · rw [hsignificant]
    exact (undivided_singleton (by simp [hc])).append (undivided_singleton (by simp [hn])) (by simp)
  · intro b us hb hus
    obtain ⟨hne, hblank⟩ := hone (t := n) (by simp [hn])
    obtain ⟨hne', hblank'⟩ := hone (t := c) (by simp [hc])
    have hlast := splitRuns_append_blank hne hblank hb hus
    have hfirst := splitRuns_append_blank hne' hblank' hspace
      (show (splitRuns ([n] ++ b :: us)).1 = [] by rw [hlast])
    rw [runs, hlast] at hfirst
    exact hfirst
  · intro b r hr
    simp only [List.mem_cons, List.not_mem_nil, or_false] at hr
    rcases hr with rfl | rfl
    · rw [hmeaning c _ (by simp [isTrivia, hc])]
      simp [isTimed, hc]
    · rw [hmeaning n _ (by simp [isTrivia, hn])]
      simp [isTimed, hn]
  · intro b more
    -- which are put together before they are read
    show attachDayNumbers (Run.meaning ⟨[c], [space]⟩ :: Run.meaning ⟨[n], [b]⟩ :: more) = _
    rw [hmeaning c _ (by simp [isTrivia, hc]), hmeaning n _ (by simp [isTrivia, hn])]
    exact if_pos ⟨hc, hn⟩
  · exact List.forall_mem_cons.2 ⟨by simp [Token.unit?, hc],
      List.forall_mem_singleton.2 (by simp [Token.unit?, hn])⟩

lemma DaySpelling.dayTokens {day : SpecialDay} (h : DaySpelling day text ls) (hts : Spell ts ls) :
    DayTokens text ts := by
  have hspecial := h.special? hts
  cases h with
  | word hw hday =>
    obtain ⟨_, _, _, rfl⟩ := spell_singleton hts
    refine dayTokens_of_run (by simp) (List.forall_mem_singleton.2 ⟨rfl, rfl⟩) hspecial
      ⟨_, List.mem_cons_self, rfl⟩ (undivided_singleton (by rintro ⟨⟩)) rfl ?_
    rintro _ ⟨⟩
    refine ⟨?_, by rintro ⟨⟩, by rintro ⟨⟩⟩
    intro hk
    cases hk
    cases hday
  | offset n hw hday hsign =>
    obtain ⟨_, _, _, _, rfl, h₁⟩ := spell_cons hts
    obtain ⟨_, _, _, _, rfl, h₂⟩ := spell_cons h₁
    obtain ⟨_, _, _, rfl⟩ := spell_singleton h₂
    rcases hsign with rfl | rfl <;>
      exact dayTokens_of_run (by simp) (List.forall_mem_cons.2 ⟨⟨rfl, rfl⟩,
          List.forall_mem_cons.2 ⟨⟨rfl, rfl⟩, List.forall_mem_singleton.2 ⟨rfl, rfl⟩⟩⟩) hspecial
        ⟨_, List.mem_cons_self, rfl⟩ (undivided_offset rfl hday rfl) rfl (by rintro _ ⟨⟩)
  -- a closest working day has a blank before its number
  | closest n hw =>
    obtain ⟨_, _, _, _, rfl, h₁⟩ := spell_cons hts
    obtain ⟨_, _, _, _, rfl, h₂⟩ := spell_cons h₁
    obtain ⟨_, _, _, rfl⟩ := spell_singleton h₂
    exact dayTokens_closest rfl rfl rfl hspecial

lemma dayTokens_ordinal {w : String} {n : Nat} (hts : Spell ts [⟨.special (.ordinal n), w⟩]) :
    DayTokens (toString n) ts := by
  obtain ⟨_, _, _, rfl⟩ := spell_singleton hts
  refine dayTokens_of_run (by simp) (List.forall_mem_singleton.2 ⟨rfl, rfl⟩)
    (show special? _ = some (.ordinal n, toString n) from rfl)
    ⟨_, List.mem_cons_self, rfl⟩ (undivided_singleton (by rintro ⟨⟩)) rfl ?_
  rintro _ ⟨⟩
  exact ⟨by rintro ⟨⟩, by rintro ⟨⟩, by rintro ⟨⟩⟩

lemma splitTime_eq {before : List Run} {time : Run}
    (hbefore : ∀ r ∈ before, isTimed r.meaning = false) (htime : isTimed time.meaning = true)
    (hseveral : 2 ≤ time.meaning.length) : splitTime (before ++ [time]) = (before, [time], []) := by
  have hb : ∀ r ∈ before, (!isTimed r.meaning) = true := fun r hr => by simp [hbefore r hr]
  have h₁ : (before ++ [time]).takeWhile (fun r => !isTimed r.meaning) = before := by
    rw [List.takeWhile_append_of_pos hb]
    simp [htime]
  have h₂ : (before ++ [time]).dropWhile (fun r => !isTimed r.meaning) = [time] := by
    rw [List.dropWhile_append_of_pos hb]
    simp [htime]
  have h₃ : [time].takeWhile (fun r => isTimed r.meaning) = [time] := by simp [htime]
  have h₄ : [time].dropWhile (fun r => isTimed r.meaning) = [] := by simp [htime]
  unfold splitTime
  simp only [h₁, h₂, h₃, h₄]
  split
  · rename_i m hm
    -- the time has more tokens than the one that an hour could be joined to
    rw [List.head?_cons, Option.map_some, Option.some.injEq] at hm
    rw [hm, List.length_singleton] at hseveral
    omega
  · rfl

lemma dayTime_of_runs {before : List Run} {ws : Values} {parts : DayParts} {day : String}
    (htrim : trimTrivia ts = ts) (hruns : runs ts = before ++ [⟨us, []⟩])
    (hbefore : ∀ r ∈ before, isTimed r.meaning = false) (hc : ClockTokens ws us)
    (hparts : (attachDayNumbers (before.map Run.meaning)).foldlM
      (fun parts run => do parts.put (spelling ts) (← dayPart run)) DayParts.none = .ok parts)
    (hday : parts.day = some day) :
    dayTime ts = .ok ((.day, day) :: parts.month.toList.map (fun m => (TimeUnit.month, m))
      ++ parts.year.toList.map (fun y => (TimeUnit.year, y)) ++ ws) := by
  have hmeaning : Run.meaning ⟨us, []⟩ = us := significant_of_meaning hc.meaning
  have hsplit := splitTime_eq hbefore
    (show isTimed (Run.meaning ⟨us, []⟩) = true by rw [hmeaning]; exact hc.timed)
    (by rw [hmeaning]; exact hc.several)
  unfold dayTime
  simp only [htrim, hruns, hsplit, List.isEmpty_cons, Bool.false_eq_true, if_false,
    List.flatMap_cons, List.flatMap_nil, Run.all, List.append_nil, hc.read, hparts]
  obtain ⟨d, month, year⟩ := parts
  obtain rfl : d = some day := hday
  rfl

lemma read_eq_dayTime (htimed : isTimed (significant ts) = true)
    (hdash : hasDateDash (significant ts) = false)
    (hspecial : ∃ t ∈ significant ts, isSpecial t = true) :
    Value.read ts default = dayTime ts := by
  obtain ⟨t, ht, hk⟩ := hspecial
  unfold Value.read
  simp only [significant_trimTrivia, htimed, hdash]
  rw [if_neg, if_pos]
  · exact List.any_eq_true.2 ⟨t, ht, hk⟩
  · rw [List.isEmpty_iff]
    exact List.ne_nil_of_mem ht

variable {day : String} {ws : Values}

lemma not_hasDateDash_append (hts : Undivided ts) (hus : ∀ t ∈ us, t.kind ≠ .dash) :
    hasDateDash (ts ++ us) = false := by
  rw [hasDateDash, hts none us us [] (dateFields_of_undashed hus _)]
  rfl

lemma DayTokens.read_append (h : DayTokens day ts) (hc : ClockTokens ws us) (hb : b.kind = .blank) :
    Value.read (ts ++ b :: us) default = .ok ((.day, day) :: ws) := by
  obtain ⟨rs, field, hruns, huntimed, hattach, hpart⟩ := h.split
  obtain ⟨t, ht, hk⟩ := h.special
  have hus := splitRuns_eq_singleton hc.nonempty (ne_blank_of_meaning hc.meaning)
  have hsignificant : significant (ts ++ b :: us) = significant ts ++ us := by
    rw [significant_append_blank hb, significant_of_meaning hc.meaning]
  have htrim : trimTrivia (ts ++ b :: us) = ts ++ b :: us :=
    trimTrivia_eq (trimmed_append_blank h.trimmed
      (trimmed_of_meaning hc.nonempty fun t ht => (hc.meaning t ht).1))
  have hparts : (attachDayNumbers ((rs b).map Run.meaning)).foldlM
      (fun parts run => do parts.put (spelling (ts ++ b :: us)) (← dayPart run)) DayParts.none
      = .ok ⟨some day, none, none⟩ := by
    have := hattach b []
    rw [List.append_nil] at this
    rw [this, List.foldlM_cons, hpart]
    rfl
  rw [read_eq_dayTime, dayTime_of_runs htrim _ (huntimed b) hc hparts rfl]
  · rfl
  · rw [runs, hruns b us hb (by rw [hus]), runs, hus]
  · rw [hsignificant, isTimed_append, hc.timed, Bool.or_true]
  · rw [hsignificant]
    exact not_hasDateDash_append h.undivided hc.undashed
  · rw [hsignificant]
    exact ⟨t, List.mem_append_left _ ht, hk⟩

lemma DayTokens.read_append_year {y b' : Token} (h : DayTokens day ts) (hc : ClockTokens ws us)
    (hb : b.kind = .blank) (hb' : b'.kind = .blank) (hk : y.kind = .number)
    (hy : isYear [y] = true) :
    Value.read (ts ++ b :: y :: b' :: us) default
      = .ok ((.day, day) :: (.year, y.text) :: ws) := by
  obtain ⟨rs, field, hruns, huntimed, hattach, hpart⟩ := h.split
  obtain ⟨t, ht, hk'⟩ := h.special
  have hyear : significant [y] = [y] := by simp [significant, isTrivia, hk]
  have hus := splitRuns_eq_singleton hc.nonempty (ne_blank_of_meaning hc.meaning)
  have hrest := splitRuns_append_blank (List.cons_ne_nil y []) (by simp [hk]) hb'
    (show (splitRuns us).1 = [] by rw [hus])
  have hsignificant : significant (ts ++ b :: y :: b' :: us) = significant ts ++ y :: us := by
    rw [significant_append_blank hb]
    show _ ++ significant ([y] ++ b' :: us) = _
    rw [significant_append_blank hb', hyear, significant_of_meaning hc.meaning]
    rfl
  have hytrim : Trimmed [y] :=
    ⟨⟨y, rfl, by simp [isTrivia, hk]⟩, ⟨y, rfl, by simp [isTrivia, hk]⟩⟩
  have htrim : trimTrivia (ts ++ b :: y :: b' :: us) = ts ++ b :: y :: b' :: us :=
    trimTrivia_eq (trimmed_append_blank h.trimmed (trimmed_append_blank hytrim
      (trimmed_of_meaning hc.nonempty fun t ht => (hc.meaning t ht).1)))
  -- four digits are a year also where a day could stand
  have hpartYear : dayPart [y] = .ok (.year, y.text) := by
    unfold dayPart
    dsimp only
    rw [if_neg (by simp [hk]), if_pos hy]
  -- the runs before the time are the day and that year
  have hparts : (attachDayNumbers ((rs b ++ [(⟨[y], [b']⟩ : Run)]).map Run.meaning)).foldlM
      (fun parts run => do
        parts.put (spelling (ts ++ b :: y :: b' :: us)) (← dayPart run)) DayParts.none
      = .ok ⟨some day, none, some y.text⟩ := by
    have hmeaning : Run.meaning ⟨[y], [b']⟩ = [y] := hyear
    rw [List.map_append, hattach, List.map_singleton, hmeaning,
      attachDayNumbers_cons (by simp [hk]), List.foldlM_cons]
    refine bind_eq_ok.2 ⟨⟨some day, none, none⟩, by rw [hpart]; rfl, ?_⟩
    rw [List.foldlM_cons]
    exact bind_eq_ok.2 ⟨_, by rw [hpartYear]; rfl, rfl⟩
  rw [read_eq_dayTime, dayTime_of_runs htrim _ _ hc hparts rfl]
  · rfl
  · rw [runs, hruns b (y :: b' :: us) hb (by rw [← List.singleton_append, hrest]), runs,
      ← List.singleton_append, hrest, runs, hus]
    simp
  · intro r hr
    rcases List.mem_append.1 hr with hr | hr
    · exact huntimed b r hr
    · rw [List.mem_singleton.1 hr, Run.meaning, hyear]
      simp [isTimed, hk]
  · rw [hsignificant, isTimed_append, ← List.singleton_append, isTimed_append, hc.timed]
    simp
  · rw [hsignificant]
    exact not_hasDateDash_append h.undivided
      (List.forall_mem_cons.2 ⟨by simp [hk], hc.undashed⟩)
  · rw [hsignificant]
    exact ⟨t, List.mem_append_left _ ht, hk'⟩

end Value

end Recurrence
