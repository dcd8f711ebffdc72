import Recurrence.Clause
import Recurrence.Proofs.Token.Words

/-!
What a scan leaves. Every token has the text of its sign, or is a word that is classified as its
kind says; the one exception is the word after a zone keyword, so in the clauses of other rules
every token is genuine.

Main statement: `genuine_of_split_scan`.
-/

namespace Recurrence

namespace Token

/-- The text of the token is that of its sign, or is classified as what the token is; a token that
is nothing known has a fault. -/
def Genuine (t : Token) : Prop :=
  match t.kind with
  | .colon => t.text = ":"
  | .comma => t.text = ","
  | .dash => t.text = "-"
  | .plus => t.text = "+"
  | .openBracket => t.text = "["
  | .closeBracket => t.text = "]"
  | .blank | .punctuation | .endOfInput => True
  | .unknown => t.fault.isSome = true
  | .zoneId => '/' ∈ t.text.toList
  | k => t.text ≠ "" ∧ wordKind t.text = .ok k

def Kind.isWord : Kind → Bool
  | .colon | .comma | .dash | .plus | .openBracket | .closeBracket => false
  | .blank | .punctuation | .endOfInput | .unknown => false
  | _ => true

lemma isWord_of_wordKind {w : String} {k : Kind} (h : wordKind w = .ok k) : k.isWord = true := by
  cases means_of_wordKind h <;> rfl

lemma ofWord_kind (D : Zone.Database) (w : String) (line column : Nat) :
    (ofWord D w line column).kind.isWord = true ∨ (ofWord D w line column).kind = .unknown := by
  unfold ofWord
  split
  · rename_i k hk
    rcases wordKind_or_zone hk with hk | ⟨rfl, -⟩
    · exact Or.inl (isWord_of_wordKind hk)
    · exact Or.inl rfl
  · exact Or.inr rfl

lemma ofWord_kind_ne {D : Zone.Database} {w : String} {line column : Nat} {k : Kind}
    (hk : k.isWord = false) (hu : k ≠ .unknown) : (ofWord D w line column).kind ≠ k := by
  rintro rfl
  rcases ofWord_kind D w line column with h | h
  · rw [h] at hk
    cases hk
  · exact hu h

def keyword? (t : Token) : Option Keyword :=
  match t.kind with
  | .keyword k => some k
  | _ => none

lemma kind_of_keyword? {t : Token} {q : Keyword} (h : t.keyword? = some q) :
    t.kind = .keyword q := by
  unfold keyword? at h
  split at h
  · rw [← Option.some.inj h]
    assumption
  · cases h

end Token

namespace Clause

open Token

variable {t : Token} {q : Keyword} (ts : List Token)

lemma split_cons_of_keyword (h : t.keyword? = some q) :
    split (t :: ts) = ([], ⟨q, t, (split ts).1⟩ :: (split ts).2) := by
  rw [split, kind_of_keyword? h]

lemma split_cons_of_not_keyword (h : t.keyword? = none) :
    split (t :: ts) = (t :: (split ts).1, (split ts).2) := by
  rw [split]
  cases hk : t.kind with
  | keyword q => simp [keyword?, hk] at h
  | _ => rfl

/-- No keyword is inside a clause. -/
lemma not_keyword_of_split : (∀ t ∈ (split ts).1, t.keyword? = none)
    ∧ ∀ c ∈ (split ts).2, ∀ t ∈ c.body, t.keyword? = none := by
  induction ts with
  | nil => simp [split]
  | cons t ts ih =>
    cases hq : t.keyword? with
    | some q =>
      rw [split_cons_of_keyword ts hq]
      exact ⟨by simp, List.forall_mem_cons.2 ⟨ih.1, ih.2⟩⟩
    | none =>
      rw [split_cons_of_not_keyword ts hq]
      exact ⟨List.forall_mem_cons.2 ⟨hq, ih.1⟩, ih.2⟩

end Clause

namespace Token

/-- After the keyword `k`, the tokens are genuine as far as no zone keyword comes before them; and
keywords always are. -/
def Sound (k : Option Keyword) : List Token → Prop
  | [] => True
  | t :: ts => (t.Genuine ∨ k = some .zone ∧ t.keyword? = none) ∧ Sound (t.keyword?.or k) ts

/-- The last keyword among tokens that follow the keyword `k`. -/
def lastKeyword (k : Option Keyword) (ts : List Token) : Option Keyword :=
  ts.foldl (fun k t => t.keyword?.or k) k

variable {k : Option Keyword} {t : Token} {ts : List Token}

lemma sound_append_singleton :
    Sound k (ts ++ [t]) ↔ Sound k ts
      ∧ (t.Genuine ∨ lastKeyword k ts = some .zone ∧ t.keyword? = none) := by
  induction ts generalizing k with
  | nil => simp [Sound, lastKeyword]
  | cons t' ts ih => simp [Sound, ih, lastKeyword, and_assoc]

lemma lastKeyword_append_singleton :
    lastKeyword k (ts ++ [t]) = t.keyword?.or (lastKeyword k ts) := by
  simp [lastKeyword]

lemma Sound.takeWhile (p : Token → Bool) (h : Sound k ts) : Sound k (ts.takeWhile p) := by
  induction ts generalizing k with
  | nil => exact h
  | cons t ts ih =>
    rw [List.takeWhile_cons]
    split
    · exact ⟨h.1, ih h.2⟩
    · trivial

lemma Sound.split (h : Sound k ts) :
    (k ≠ some .zone → ∀ t ∈ (Clause.split ts).1, t.Genuine)
      ∧ ∀ c ∈ (Clause.split ts).2, (c.head.Genuine ∧ c.head.kind = .keyword c.keyword)
        ∧ (c.keyword ≠ .zone → ∀ t ∈ c.body, t.Genuine) := by
  induction ts generalizing k with
  | nil => simp [Clause.split]
  | cons t ts ih =>
    obtain ⟨ht, hts⟩ := h
    obtain ⟨hlead, hclauses⟩ := ih hts
    cases hq : t.keyword? with
    | some q =>
      rw [hq, Option.some_or] at hlead
      rw [Clause.split_cons_of_keyword ts hq]
      have hhead : t.Genuine := ht.resolve_right fun h => by simp [hq] at h
      exact ⟨fun _ => by simp, List.forall_mem_cons.2
        ⟨⟨⟨hhead, kind_of_keyword? hq⟩, fun hzone => hlead fun heq => hzone (Option.some.inj heq)⟩,
          hclauses⟩⟩
    | none =>
      rw [hq, Option.none_or] at hlead
      rw [Clause.split_cons_of_not_keyword ts hq]
      exact ⟨fun hk => List.forall_mem_cons.2 ⟨ht.resolve_right fun h => hk h.1, hlead hk⟩,
        hclauses⟩

end Token

namespace Scan

open Token

variable {D : Zone.Database} {s : Scan} {c : Char}

/-- The tokens so far are sound, and only after a zone keyword is the next word marked as a zone. -/
structure Follows (s : Scan) : Prop where
  sound : Sound none s.done.reverse
  marked : s.zoneNext = true → lastKeyword none s.done.reverse = some .zone

lemma Follows.cons {f : Scan} {t : Token} (h : s.Follows) (hdone : f.done = t :: s.done)
    (ht : t.Genuine) (hkey : t.keyword? = none) (hzone : f.zoneNext = s.zoneNext) : f.Follows := by
  constructor
  · rw [hdone, List.reverse_cons, sound_append_singleton]
    exact ⟨h.sound, Or.inl ht⟩
  · intro hz
    rw [hdone, List.reverse_cons, lastKeyword_append_singleton, hkey]
    exact h.marked (hzone ▸ hz)

lemma Follows.of_eq {f : Scan} (h : s.Follows) (hdone : f.done = s.done)
    (hzone : f.zoneNext = s.zoneNext) : f.Follows :=
  ⟨hdone ▸ h.sound, by rw [hdone, hzone]; exact h.marked⟩

lemma Follows.start : start.Follows := ⟨trivial, fun h => by cases h⟩

lemma Follows.sign (h : s.Follows) {kind : Kind} {text : String}
    (ht : (Token.ofText kind text s.line s.column).Genuine)
    (hkey : (Token.ofText kind text s.line s.column).keyword? = none) :
    (s.sign kind text).Follows := h.cons rfl ht hkey rfl

lemma Follows.blank (h : s.Follows) (c : Char) : (s.blank c).Follows := by
  unfold Scan.blank
  split
  · rename_i t ts hdone
    split
    · rename_i hk
      -- a longer blank stands in place of the last one
      have hkey : t.keyword? = none := by simp [keyword?, hk]
      have hs := h.sound
      have hm := h.marked
      rw [hdone, List.reverse_cons, sound_append_singleton] at hs
      rw [hdone, List.reverse_cons, lastKeyword_append_singleton, hkey] at hm
      constructor
      · rw [List.reverse_cons, sound_append_singleton]
        exact ⟨hs.1, Or.inl (by simp [Genuine, hk])⟩
      · intro hz
        rw [List.reverse_cons, lastKeyword_append_singleton]
        simpa [keyword?, hk] using hm hz
    · exact h.sign trivial rfl
  · exact h.sign trivial rfl

lemma Follows.close (h : s.Follows) : s.close.Follows := by
  unfold Scan.close
  split
  · exact h.cons rfl rfl rfl rfl
  · exact h.cons rfl rfl rfl rfl

lemma Follows.addBreak (h : s.Follows) (c : Char) : (s.addBreak c).Follows := by
  unfold Scan.addBreak
  split
  · exact h.sign trivial rfl
  split
  · exact h.blank c
  split
  · exact h.sign rfl rfl
  split
  · exact h.sign rfl rfl
  split
  · exact h.sign rfl rfl
  split
  · exact h.sign rfl rfl
  split
  · exact h.cons rfl rfl rfl rfl
  split
  · exact h.close
  · exact h.sign trivial rfl

lemma Follows.push (h : s.Follows) (c : Char) : (s.push c).Follows := by
  unfold Scan.push
  split <;> exact h.of_eq rfl rfl

lemma Follows.advance (h : s.Follows) (c : Char) : (s.advance c).Follows := by
  unfold Scan.advance
  split <;> exact h.of_eq rfl rfl

lemma genuine_ofWord {w : String} (hw : w ≠ "") (line column : Nat) :
    (Token.ofWord D w line column).Genuine := by
  unfold Token.ofWord
  split
  · rename_i k hk
    rcases wordKind_or_zone hk with hk | ⟨rfl, hslash⟩
    · have hword : w ≠ "" ∧ wordKind w = .ok k := ⟨hw, hk⟩
      cases means_of_wordKind hk <;> exact hword
    · exact hslash
  · rfl

lemma Follows.flush (h : s.Follows) : (s.flush D).Follows := by
  unfold Scan.flush
  split
  · exact h
  · rename_i hword
    have hgenuine : (s.wordToken D).Genuine
        ∨ lastKeyword none s.done.reverse = some .zone ∧ (s.wordToken D).keyword? = none := by
      unfold wordToken
      dsimp only
      split
      · rename_i hz
        exact Or.inr ⟨h.marked (Bool.and_eq_true _ _ ▸ hz).1, rfl⟩
      · refine Or.inl (genuine_ofWord ?_ _ _)
        intro h0
        exact hword (List.reverse_eq_nil_iff.1 (String.ofList_eq_empty_iff.1 h0))
    constructor
    · rw [List.reverse_cons, sound_append_singleton]
      exact ⟨h.sound, hgenuine⟩
    · intro (hz : (s.wordToken D).opensZone = true)
      rw [opensZone_wordToken] at hz
      have hkeyword : (s.wordToken D).keyword? = some .zone := by simp [keyword?, eq_of_beq hz]
      rw [List.reverse_cons, lastKeyword_append_singleton, hkeyword]
      rfl

lemma Follows.step (h : s.Follows) (c : Char) (rest : List Char) :
    (s.step D c rest).Follows := by
  unfold Scan.step
  dsimp only
  split
  · exact (h.push c).advance c
  split
  · exact (h.flush.addBreak c).advance c
  split
  · exact (h.flush.push c).advance c
  · exact (h.push c).advance c

lemma Follows.run (h : s.Follows) (cs : List Char) : (s.run D cs).Follows := by
  induction cs generalizing s with
  | nil => exact h
  | cons c cs ih => exact ih (h.step c cs)

end Scan

/-- In a clause of a text the head is a genuine keyword, and every token is genuine if it is not of
a zone. -/
theorem genuine_of_split_scan {D : Zone.Database} {text : String} {p : Token → Bool} {c : Clause}
    (hc : c ∈ (Clause.split ((Token.scan D text).takeWhile p)).2) :
    (c.head.Genuine ∧ c.head.kind = .keyword c.keyword)
      ∧ (c.keyword ≠ .zone → ∀ t ∈ c.body, t.Genuine) :=
  (((Scan.Follows.start.run _).sound.takeWhile p).split).2 c hc

end Recurrence
