import Mathlib.Data.List.Basic
import Recurrence.Proofs.Rule.Forms
import Recurrence.RuleSet

/-!
The spelling of an anchor, scanned again. An anchor that stands for something has no bracket and no
slash in it, so its tokens are words and signs, and the spelling, with spaces between words and none
around signs, has the same words and signs.

Main statement: `AnchorText.spelled`.
-/

namespace Recurrence

open Token Scan

/-! ### The characters of a value -/

namespace Resolution

def oddChars : List Char := ['[', ']', '/']

lemma not_odd {p : Char → Bool} {c : Char} (hp : oddChars.all (fun c => !p c) = true)
    (h : p c = true) : c ∉ oddChars := by
  intro hc
  have := List.all_eq_true.1 hp c hc
  rw [h] at this
  cases this

lemma not_odd_of_isBlank {c : Char} (h : Text.isBlank c = true) : c ∉ oddChars :=
  not_odd (by decide) h

lemma not_odd_of_isDigit {c : Char} (h : c.isDigit = true) : c ∉ oddChars :=
  not_odd (by decide) h

lemma not_odd_of_isLetter {c : Char} (h : SpecialDay.IsLetter c) : c ∉ oddChars :=
  not_odd (p := fun c => (SpecialDay.fold c).isLower) (by decide) h

lemma not_odd_of_toLower {c : Char} (h : c.toLower ∉ oddChars) : c ∉ oddChars := by
  intro hc
  have hall : oddChars.all (fun c => oddChars.contains c.toLower) = true := by decide
  exact h (List.contains_iff_mem.1 (List.all_eq_true.1 hall c hc))

lemma mem_trimChars {c : Char} {cs : List Char} (h : c ∈ cs) :
    Text.isBlank c = true ∨ c ∈ Text.trimChars cs := by
  have hdrop {ds : List Char} (hd : c ∈ ds) :
      Text.isBlank c = true ∨ c ∈ ds.dropWhile Text.isBlank := by
    rw [← List.takeWhile_append_dropWhile (p := Text.isBlank) (l := ds), List.mem_append] at hd
    exact hd.imp_left List.mem_takeWhile_imp
  rcases hdrop h with h | h
  · exact Or.inl h
  · rcases hdrop (List.mem_reverse.2 h) with h | h
    · exact Or.inl h
    · exact Or.inr (List.mem_reverse.2 h)

/-- A reader that skips blanks leaves the odd characters to what it reads after them. -/
lemma not_odd_of_dropBlanks {cs : List Char} (h : ∀ c ∈ cs.dropWhile Text.isBlank, c ∉ oddChars) :
    ∀ c ∈ cs, c ∉ oddChars := by
  intro c hc
  rw [← List.takeWhile_append_dropWhile (p := Text.isBlank) (l := cs), List.mem_append] at hc
  rcases hc with hc | hc
  · exact not_odd_of_isBlank (List.mem_takeWhile_imp hc)
  · exact h c hc

lemma not_odd_of_digits {cs ds : List Char} (h : EdgeText.digits? cs = some ds) :
    ∀ c ∈ cs, c ∉ oddChars := by
  refine not_odd_of_dropBlanks fun c hc => ?_
  unfold EdgeText.digits? at h
  dsimp only at h
  split at h
  · rename_i hds
    exact not_odd (p := Text.isDecimalDigit) (by decide +kernel) (List.all_eq_true.1 hds.2.2 c hc)
  · cases h

lemma not_odd_of_offset {cs : List Char} {o : Option (Direction × List Char)}
    (h : EdgeText.offset? cs = some o) : ∀ c ∈ cs, c ∉ oddChars := by
  refine not_odd_of_dropBlanks ?_
  unfold EdgeText.offset? at h
  split at h
  · rename_i hnil
    simp [hnil]
  · rename_i more hmore
    obtain ⟨ds, hds, -⟩ := Option.map_eq_some_iff.1 h
    rw [hmore]
    exact List.forall_mem_cons.2 ⟨by decide, not_odd_of_digits hds⟩
  · rename_i more hmore
    obtain ⟨ds, hds, -⟩ := Option.map_eq_some_iff.1 h
    rw [hmore]
    exact List.forall_mem_cons.2 ⟨by decide, not_odd_of_digits hds⟩
  · cases h

lemma not_odd_of_isLower {w : List Char} (h : w.all Char.isLower = true) :
    ∀ c ∈ w, c ∉ oddChars :=
  fun c hc => not_odd (p := Char.isLower) (by decide) (List.all_eq_true.1 h c hc)

lemma not_odd_of_isPrefix {w cs rest : List Char} (hw : w.isPrefixOf? cs = some rest)
    (hletters : w.all Char.isLower = true) (hrest : ∀ c ∈ rest, c ∉ oddChars) :
    ∀ c ∈ cs, c ∉ oddChars := by
  rw [← List.append_eq_of_isPrefixOf?_eq_some hw]
  exact List.forall_mem_append.2 ⟨not_odd_of_isLower hletters, hrest⟩

lemma not_odd_of_edge {cs : List Char} {e : EdgeText} (h : EdgeText.ofChars? cs = some e) :
    ∀ c ∈ cs, c ∉ oddChars := by
  unfold EdgeText.ofChars? EdgeText.dropEdge? at h
  split at h
  · cases h
  · rename_i edge rest hedge
    have hrest : ∀ c ∈ rest, c ∉ oddChars := by
      split at h
      · rename_i rest' hrest'
        obtain ⟨w, hw, hprefix⟩ := List.exists_of_findSome?_eq_some hrest'
        obtain ⟨o, ho, -⟩ := Option.map_eq_some_iff.1 h
        have hwords : EdgeText.dayWords.all (fun w => w.toList.all Char.isLower) = true := by decide
        exact not_odd_of_isPrefix hprefix (List.all_eq_true.1 hwords w hw) (not_odd_of_offset ho)
      · obtain ⟨o, ho, -⟩ := Option.map_eq_some_iff.1 h
        exact not_odd_of_offset ho
    split at hedge
    · rename_i rest' hprefix
      cases hedge
      exact not_odd_of_isPrefix hprefix (by decide) hrest
    · obtain ⟨rest', hprefix, heq⟩ := Option.map_eq_some_iff.1 hedge
      cases heq
      exact not_odd_of_isPrefix hprefix (by decide) hrest

lemma not_odd_of_closest {cs ds : List Char} (h : closestNumber? cs = some ds) :
    ∀ c ∈ cs, c ∉ oddChars := by
  unfold closestNumber? at h
  obtain ⟨rest, hrest, hds⟩ := Option.bind_eq_some_iff.1 h
  obtain ⟨w, hw, hprefix⟩ := List.exists_of_findSome?_eq_some hrest
  have hwords : ["closestweekdayto", "nearestweekdayto"].all
      (fun w => w.toList.all Char.isLower) = true := by decide
  refine not_odd_of_isPrefix hprefix (List.all_eq_true.1 hwords w hw) ?_
  refine not_odd_of_dropBlanks fun c hc => ?_
  dsimp only at hds
  split at hds
  · rename_i hdigits
    exact not_odd_of_isDigit (List.all_eq_true.1 hdigits.2.2 c hc)
  · cases hds

lemma not_odd_of_dayForm {year month : Int} {word : String}
    (h : ofDayForm year month word ≠ .invalid) : ∀ c ∈ word.toList, c ∉ oddChars := by
  -- weekday compounds and ordinals are digits and letters
  have plain {w : String} (h : SpecialDay.DigitsThenLetters w.toList) :
      ∀ c ∈ w.toList, c ∉ oddChars := by
    obtain ⟨ds, ls, hw, hd, hl⟩ := h
    rw [hw]
    exact List.forall_mem_append.2 ⟨fun c hc => not_odd_of_isDigit (hd c hc),
      fun c hc => not_odd_of_isLetter (hl c hc)⟩
  -- the forms in the order in which they are tried
  unfold ofDayForm at h
  split at h
  · exact absurd rfl h
  dsimp only at h
  split at h
  · rename_i hnth
    exact plain (SpecialDay.digitsThenLetters_of_nthWeekday? hnth)
  split at h
  · rename_i hw
    rw [hw]
    exact not_odd_of_isLower (by decide)
  split at h
  · rename_i hw
    rw [hw]
    exact not_odd_of_isLower (by decide)
  split at h
  · exact not_odd_of_closest ‹_›
  split at h
  · rename_i hordinal
    exact plain (SpecialDay.digitsThenLetters_of_ordinalDay? hordinal)
  · exact absurd rfl h

/-- No text that stands for something has a bracket or a slash in it. -/
theorem not_odd_of_isValid {u : TimeUnit} {year month : Int} {text : String}
    (h : (ofText u year month text).isValid = true) : ∀ c ∈ text.toList, c ∉ oddChars := by
  have hne : ofText u year month text ≠ .invalid := by
    intro h0
    rw [h0] at h
    cases h
  have hsmall (hl : ∀ c ∈ (Text.trimChars text.toList).map Char.toLower, c ∉ oddChars) :
      ∀ c ∈ Text.trimChars text.toList, c ∉ oddChars :=
    fun c hc => not_odd_of_toLower (hl _ (List.mem_map_of_mem hc))
  -- whatever the text is read as, it is of digits, letters and signs of offsets
  have htrim : ∀ c ∈ Text.trimChars text.toList, c ∉ oddChars := by
    unfold ofText at hne
    dsimp only at hne
    split at hne
    · exact absurd rfl hne
    split at hne
    · rename_i hdigits
      exact fun c hc => not_odd_of_isDigit (List.all_eq_true.1 hdigits c hc)
    split at hne
    · rename_i v hname
      have hletters : ∀ c ∈ (String.ofList (Text.trimChars text.toList)).toList,
          SpecialDay.IsLetter c := by
        unfold ofName? at hname
        split at hname
        · obtain ⟨d, hd, -⟩ := Option.map_eq_some_iff.1 hname
          exact SpecialDay.isLetter_of_weekdayName hd
        · exact SpecialDay.isLetter_of_monthName hname
        · cases hname
      rw [String.toList_ofList] at hletters
      exact fun c hc => not_odd_of_isLetter (hletters c hc)
    split at hne
    · rename_i e he
      exact hsmall (not_odd_of_edge he)
    split at hne
    · have := not_odd_of_dayForm hne
      rw [String.toList_ofList] at this
      exact hsmall this
    · exact absurd rfl hne
  intro c hc
  rcases mem_trimChars hc with hb | hc
  · exact not_odd_of_isBlank hb
  · exact htrim c hc

end Resolution

/-! ### Words and signs joined -/

namespace Token

def lexeme (t : Token) : Lexeme := ⟨t.kind, t.text⟩

variable {t : Token} {ts us : List Token}

lemma join_congr (h : ts.map lexeme = us.map lexeme) : join ts = join us := by
  have after {t u : Token} {ts us : List Token} (htu : t.lexeme = u.lexeme)
      (h : ts.map lexeme = us.map lexeme) : joinAfter t ts = joinAfter u us := by
    induction ts generalizing t u us with
    | nil =>
      rw [List.map_nil, eq_comm, List.map_eq_nil_iff] at h
      rw [h]
      rfl
    | cons a ts ih =>
      obtain ⟨b, us, rfl, hab, hrest⟩ := List.map_eq_cons_iff.1 h.symm
      have hkind {a b : Token} (hab : a.lexeme = b.lexeme) : a.isGlue = b.isGlue := by
        rw [isGlue, isGlue, show a.kind = b.kind from congrArg Lexeme.kind hab]
      have htext : a.text = b.text := congrArg Lexeme.text hab.symm
      rw [joinAfter, joinAfter, hkind htu, hkind hab.symm, htext, ih hab.symm hrest.symm]
  cases ts with
  | nil =>
    rw [List.map_nil, eq_comm, List.map_eq_nil_iff] at h
    rw [h]
  | cons a ts =>
    obtain ⟨b, us, rfl, hab, hrest⟩ := List.map_eq_cons_iff.1 h.symm
    rw [join, join, after hab.symm hrest.symm, show a.text = b.text
      from congrArg Lexeme.text hab.symm]

lemma lexeme_placed (l : Lexeme) (line column endColumn : Nat) :
    (l.placed line column endColumn).lexeme = l := rfl

lemma map_lexeme_of_spell {ls : List Lexeme} (h : Spell ts ls) : ts.map lexeme = ls := by
  induction h with
  | nil => rfl
  | cons ht _ ih =>
    obtain ⟨_, _, _, rfl⟩ := ht
    rw [List.map_cons, ih, lexeme_placed]

/-- A token that the spelling of an anchor can have: a sign, or a word that is not special to a
scan. -/
inductive Joinable (t : Token) : Prop
  | sign {c : Char} (h : (c, t.lexeme) ∈ signLexemes) (htext : t.text = String.singleton c)
      (hc : c ≠ ' ')
  | word (hglue : t.isGlue = false) (hw : t.text ≠ "") (h : wordKind t.text = .ok t.kind)
      (hk : t.kind ≠ .keyword .zone)

lemma Joinable.isTrivia (h : t.Joinable) : t.lexeme.isTrivia = false := by
  cases h with
  | sign h _ hc =>
    have hall : ∀ p ∈ signLexemes, p.1 = ' ' ∨ p.2.isTrivia = false := by decide
    exact (hall _ h).resolve_left hc
  | word _ _ h =>
    have hword := isWord_of_wordKind h
    show t.isTrivia = false
    cases hk : t.kind <;> simp_all [Token.isTrivia, Kind.isWord]

lemma Joinable.closed (h : t.Joinable) : Closed [t.lexeme] := by
  refine ⟨_, rfl, fun hk => ?_⟩
  have htrivia := h.isTrivia
  rw [Lexeme.isTrivia, Token.isTrivia, show (t.lexeme.placed 0 0 0).kind = .blank from hk]
    at htrivia
  cases htrivia

lemma Joinable.reads (h : t.Joinable) : Reads signs t.text.toList [t.lexeme] := by
  cases h with
  | @sign c h htext hc =>
    have hmem : ∀ p ∈ signLexemes, p.1 ∈ signs := by decide
    rw [htext, String.toList_singleton]
    exact reads_nil.append reads_nil h (hmem _ h) fun h0 => absurd h0 hc
  | word _ hw h hk => exact reads_word hw h hk

lemma Joinable.glue (h : t.Joinable) (hg : t.isGlue = true) :
    ∃ c, (c, t.lexeme) ∈ signLexemes ∧ t.text = String.singleton c ∧ c ≠ ' ' ∧ c ∈ signs := by
  cases h with
  | @sign c h htext hc =>
    have hmem : ∀ p ∈ signLexemes, p.1 ∈ signs := by decide
    exact ⟨c, h, htext, hc, hmem _ h⟩
  | word hglue =>
    rw [hglue] at hg
    cases hg

lemma joinAfter_of_isGlue (h : t.isGlue = true) (ts : List Token) : joinAfter t ts = join ts := by
  cases ts with
  | nil => rfl
  | cons u ts => rw [joinAfter, join, h, Bool.true_or, if_pos rfl, String.empty_append]

/-- The tokens in order, with blanks between some of them. -/
inductive Joined : List Token → List Lexeme → Prop
  | nil : Joined [] []
  | cons {ts : List Token} {ls : List Lexeme} (t : Token) (h : Joined ts ls) :
    Joined (t :: ts) (t.lexeme :: ls)
  | spaced {ts : List Token} {ls : List Lexeme} (t : Token) (h : Joined ts ls) (hne : ts ≠ []) :
    Joined (t :: ts) (t.lexeme :: .blank :: ls)

namespace Joined

variable {l : Lexeme} {ls : List Lexeme}

lemma mem (h : Joined ts ls) (hl : l ∈ ls) : l = .blank ∨ l ∈ ts.map lexeme := by
  induction h with
  | nil => cases hl
  | cons t _ ih =>
    rcases List.mem_cons.1 hl with rfl | hl
    · exact Or.inr List.mem_cons_self
    · exact (ih hl).imp_right (List.mem_cons_of_mem _)
  | spaced t _ _ ih =>
    rcases List.mem_cons.1 hl with rfl | hl
    · exact Or.inr List.mem_cons_self
    rcases List.mem_cons.1 hl with rfl | hl
    · exact Or.inl rfl
    · exact (ih hl).imp_right (List.mem_cons_of_mem _)

lemma significant (h : Joined ts ls) (hts : ∀ t ∈ ts, t.Joinable) :
    ls.filter (fun l => !l.isTrivia) = ts.map lexeme := by
  induction h with
  | nil => rfl
  | cons t _ ih =>
    obtain ⟨ht, hts⟩ := List.forall_mem_cons.1 hts
    rw [List.filter_cons, ht.isTrivia, ih hts]
    rfl
  | spaced t _ _ ih =>
    obtain ⟨ht, hts⟩ := List.forall_mem_cons.1 hts
    rw [List.filter_cons, ht.isTrivia, List.filter_cons, ih hts]
    rfl

lemma closed (h : Joined ts ls) (hts : ∀ t ∈ ts, t.Joinable) (hne : ts ≠ []) : Closed ls := by
  induction h with
  | nil => exact absurd rfl hne
  | @cons ts ls t h ih =>
    obtain ⟨ht, hts⟩ := List.forall_mem_cons.1 hts
    by_cases hrest : ts = []
    · subst hrest
      cases h
      exact ht.closed
    · exact (ih hts hrest).cons _
  | spaced t _ hrest ih => exact ((ih (List.forall_mem_cons.1 hts).2 hrest).cons _).cons _

end Joined

/-- The spelling of tokens, scanned again, has them and blanks between them. -/
theorem reads_join : ∀ ts : List Token, (∀ t ∈ ts, t.Joinable) →
    ∃ ls, Reads signs (join ts).toList ls ∧ Joined ts ls
  | [], _ => ⟨[], reads_nil, .nil⟩
  | [t], h => by
    refine ⟨[t.lexeme], ?_, .cons t .nil⟩
    show Reads signs (t.text ++ "").toList _
    rw [String.append_empty]
    exact (h t List.mem_cons_self).reads
  | t :: u :: ts, h => by
    obtain ⟨ht, hrest⟩ := List.forall_mem_cons.1 h
    obtain ⟨hu, hts⟩ := List.forall_mem_cons.1 hrest
    obtain ⟨ls, hls, hjoined⟩ := reads_join (u :: ts) hrest
    by_cases hg : t.isGlue = true
    · -- a sign, and what follows it
      obtain ⟨c, hc, htext, hne, hsign⟩ := ht.glue hg
      refine ⟨t.lexeme :: ls, ?_, hjoined.cons t⟩
      rw [join, joinAfter_of_isGlue hg, htext, String.toList_append, String.toList_singleton]
      exact reads_nil.append hls hc hsign fun h0 => absurd h0 hne
    by_cases hg' : u.isGlue = true
    · -- a word with a sign after it
      obtain ⟨c, hc, htext, hne, hsign⟩ := hu.glue hg'
      obtain ⟨ls', hls', hjoined'⟩ := reads_join ts hts
      refine ⟨t.lexeme :: u.lexeme :: ls', ?_, (hjoined'.cons u).cons t⟩
      rw [join, joinAfter, hg', Bool.or_true, if_pos rfl, String.empty_append,
        joinAfter_of_isGlue hg', htext, String.toList_append, String.toList_append,
        String.toList_singleton]
      exact ht.reads.append hls' hc hsign fun h0 => absurd h0 hne
    · -- a word with a blank after it
      refine ⟨t.lexeme :: .blank :: ls, ?_, hjoined.spaced t (List.cons_ne_nil _ _)⟩
      have hjoin : join (t :: u :: ts) = t.text ++ (" " ++ join (u :: ts)) := by
        rw [join, joinAfter, if_neg (by simp [hg, hg']), join, String.append_assoc]
      rw [hjoin, String.toList_append, String.toList_append]
      exact ht.reads.spaced hls (by decide) ht.closed

lemma mem_join {c : Char} (ht : t ∈ ts) (hc : c ∈ t.text.toList) : c ∈ (join ts).toList := by
  have after {u : Token} {ts : List Token} (ht : t ∈ ts) : c ∈ (joinAfter u ts).toList := by
    induction ts generalizing u with
    | nil => cases ht
    | cons v ts ih =>
      rw [joinAfter, String.toList_append, String.toList_append]
      rcases List.mem_cons.1 ht with rfl | ht
      · simp [hc]
      · simp [ih ht]
  cases ts with
  | nil => cases ht
  | cons u ts =>
    rw [join, String.toList_append]
    rcases List.mem_cons.1 ht with rfl | ht
    · exact List.mem_append_left _ hc
    · exact List.mem_append_right _ (after ht)

lemma joinable_of_usable (h : t.Usable) (htrivia : t.isTrivia = false)
    (hodd : ∀ c ∈ t.text.toList, c ∉ Resolution.oddChars) : t.Joinable := by
  have hgenuine := h.genuine
  have htext {c : Char} (hc : t.text = String.singleton c) : c ∉ Resolution.oddChars :=
    hodd c (by rw [hc, String.toList_singleton]; exact List.mem_singleton_self c)
  -- by what the token is: a sign joins as it stands, brackets and slashes are odd, the rest are
  -- words
  unfold Genuine at hgenuine
  split at hgenuine
  · rename_i hk
    refine .sign (c := ':') ?_ hgenuine (by decide)
    rw [lexeme, hk, hgenuine]
    decide
  · rename_i hk
    refine .sign (c := ',') ?_ hgenuine (by decide)
    rw [lexeme, hk, hgenuine]
    decide
  · rename_i hk
    refine .sign (c := '-') ?_ hgenuine (by decide)
    rw [lexeme, hk, hgenuine]
    decide
  · rename_i hk
    refine .sign (c := '+') ?_ hgenuine (by decide)
    rw [lexeme, hk, hgenuine]
    decide
  · exact absurd (by decide) (htext (c := '[') hgenuine)
  · exact absurd (by decide) (htext (c := ']') hgenuine)
  · rename_i hk
    simp [Token.isTrivia, hk] at htrivia
  · rename_i hk
    simp [Token.isTrivia, hk] at htrivia
  · rename_i hk
    simp [Token.isTrivia, hk] at htrivia
  · rw [h.valid] at hgenuine
    cases hgenuine
  · exact absurd (by decide) (hodd '/' hgenuine)
  · refine .word ?_ hgenuine.1 hgenuine.2 ?_
    · unfold isGlue
      split <;> simp_all
    · intro hk
      have := h.free
      rw [keyword?, hk] at this
      cases this

end Token

/-- The spelling of an anchor that stands for something, scanned again, has the same spelling. -/
theorem AnchorText.spelled {u : TimeUnit} {text : String} (h : AnchorText text)
    (hv : (RuleSet.probe u text).isValid = true) :
    ∃ ls, Reads signs text.toList ls ∧ Closed ls
      ∧ (∀ l ∈ ls, (∀ k, l.kind ≠ .keyword k) ∧ l.kind ≠ .anchor ∧ l.kind ≠ .endOfInput)
      ∧ ∀ ts, Spell ts ls → spelling ts = text := by
  obtain ⟨ts, hne, hts, rfl⟩ := h
  have hodd := Resolution.not_odd_of_isValid hv
  have hjoinable : ∀ t ∈ ts, t.Joinable := fun t ht =>
    joinable_of_usable (hts t ht).1 (hts t ht).2.1 fun c hc => hodd c (mem_join ht hc)
  obtain ⟨ls, hls, hjoined⟩ := reads_join ts hjoinable
  refine ⟨ls, hls, hjoined.closed hjoinable hne, fun l hl => ?_, fun ts' hts' => ?_⟩
  · rcases hjoined.mem hl with rfl | hl
    · exact ⟨by rintro _ ⟨⟩, by rintro ⟨⟩, by rintro ⟨⟩⟩
    · obtain ⟨t, ht, rfl⟩ := List.mem_map.1 hl
      obtain ⟨husable, htrivia, hanchor⟩ := hts t ht
      refine ⟨fun k hk => ?_, hanchor, fun hk => ?_⟩
      · have hfree := husable.free
        rw [keyword?, show t.kind = .keyword k from hk] at hfree
        cases hfree
      · rw [Token.isTrivia, show t.kind = .endOfInput from hk] at htrivia
        cases htrivia
  · rw [spelling]
    exact join_congr (by rw [map_lexeme_of_spell hts'.significant, hjoined.significant hjoinable])

end Recurrence
