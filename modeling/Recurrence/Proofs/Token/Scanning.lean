import Mathlib.Data.List.Forall2
import Recurrence.Proofs.Token.Words

/-!
Texts of which the tokens are known. A word that has no sign in it, and no letters next to digits
but those of a compound, is one token when a sign follows; so is a zone after its keyword. Texts put
together with a sign between them have the tokens of both.

Main statements: `reads_word`, `Reads.append` and `scan_eq`.
-/

namespace Recurrence

/-- What a token is and says, without its place. -/
structure Lexeme where
  kind : Token.Kind
  text : String
  deriving DecidableEq

namespace Lexeme

def placed (l : Lexeme) (line column endColumn : Nat) : Token :=
  ⟨l.kind, l.text, line, column, endColumn, none⟩

def blank : Lexeme := ⟨.blank, " "⟩

def comma : Lexeme := ⟨.comma, ","⟩

def colon : Lexeme := ⟨.colon, ":"⟩

def dash : Lexeme := ⟨.dash, "-"⟩

def plus : Lexeme := ⟨.plus, "+"⟩

def openBracket : Lexeme := ⟨.openBracket, "["⟩

def closeBracket : Lexeme := ⟨.closeBracket, "]"⟩

end Lexeme

namespace Token

def Spells (t : Token) (l : Lexeme) : Prop :=
  ∃ line column endColumn, t = l.placed line column endColumn

lemma spells_ofText (kind : Kind) (text : String) (line column : Nat) :
    (ofText kind text line column).Spells ⟨kind, text⟩ := ⟨_, _, _, rfl⟩

abbrev Spell (ts : List Token) (ls : List Lexeme) : Prop := List.Forall₂ Spells ts ls

end Token

namespace Scan

open Token

/-- The signs that end a word, of those that the normal spelling of rules uses, and the end. -/
def signs : List Char := [' ', ',', ':', '-', '+', '[', ']', '\x00']

lemma isBreaking_of_sign {c : Char} (h : c ∈ signs) : isBreaking c = true :=
  List.all_eq_true.1 (by decide : signs.all isBreaking = true) c h

lemma not_alphabetic_of_sign {c : Char} (h : c ∈ signs) : Text.isAlphabetic c = false := by
  have hsigns : signs.all (fun c => !Text.isAlphabetic c) = true := by decide +kernel
  simpa using List.all_eq_true.1 hsigns c h

def Idle (s : Scan) : Prop := s.word = [] ∧ s.zoneNext = false

/-- The second state is idle and comes from the first by some tokens. -/
structure Adds (s f : Scan) (ls : List Lexeme) : Prop where
  idle : f.Idle
  done : ∃ ts, Spell ts ls ∧ f.done = ts.reverse ++ s.done
  depth : f.depth = s.depth

/-- The text has the given tokens in every database, when one of the characters `ends` follows. -/
def Reads (ends : List Char) (cs : List Char) (ls : List Lexeme) : Prop :=
  ∀ (D : Zone.Database) (s : Scan), s.Idle → ∀ c ∈ ends, ∀ rest, ∃ f : Scan, s.Adds f ls
    ∧ s.run D (cs ++ c :: rest) = f.run D (c :: rest)

variable {D : Zone.Database} {s f : Scan} {c : Char} {cs rest w : List Char} {ls : List Lexeme}

lemma run_cons (s : Scan) (c : Char) (rest : List Char) :
    s.run D (c :: rest) = (s.step D c rest).run D rest := rfl

@[simp] lemma word_advance (s : Scan) (c : Char) : (s.advance c).word = s.word := by
  unfold advance; split <;> rfl

@[simp] lemma zoneNext_advance (s : Scan) (c : Char) : (s.advance c).zoneNext = s.zoneNext := by
  unfold advance; split <;> rfl

@[simp] lemma done_advance (s : Scan) (c : Char) : (s.advance c).done = s.done := by
  unfold advance; split <;> rfl

@[simp] lemma depth_advance (s : Scan) (c : Char) : (s.advance c).depth = s.depth := by
  unfold advance; split <;> rfl

lemma Idle.advance (h : s.Idle) (c : Char) : (s.advance c).Idle := by
  simpa [Idle] using h

lemma step_sign (hz : s.zoneNext = false) (hc : isBreaking c = true) (rest : List Char) :
    s.step D c rest = ((s.flush D).addBreak c).advance c := by
  simp [step, hz, hc]

lemma flush_of_idle (h : s.Idle) : s.flush D = s := by
  unfold flush
  rw [h.1]

lemma run_sign (h : s.Idle) (hc : isBreaking c = true) (rest : List Char) :
    s.run D (c :: rest) = ((s.addBreak c).advance c).run D rest := by
  rw [run_cons, step_sign h.2 hc, flush_of_idle h]

lemma Adds.refl (h : s.Idle) : s.Adds s [] := ⟨h, ⟨[], .nil, rfl⟩, rfl⟩

lemma Adds.trans {g : Scan} {ls' : List Lexeme} (h₁ : s.Adds f ls) (h₂ : f.Adds g ls') :
    s.Adds g (ls ++ ls') := by
  obtain ⟨ts, hts, hf⟩ := h₁.done
  obtain ⟨ts', hts', hg⟩ := h₂.done
  refine ⟨h₂.idle, ⟨ts ++ ts', List.rel_append hts hts', ?_⟩, h₂.depth.trans h₁.depth⟩
  rw [hg, hf, List.reverse_append, List.append_assoc]

lemma reads_nil : Reads signs [] [] :=
  fun _ s hs _ _ _ => ⟨s, Adds.refl hs, rfl⟩

/-! ### Words -/

/-- The second state has read a piece of a word after the first. -/
structure Pushed (s f : Scan) (w : List Char) : Prop where
  word : f.word = w.reverse ++ s.word
  done : f.done = s.done
  zoneNext : f.zoneNext = s.zoneNext
  depth : f.depth = s.depth

lemma Pushed.refl (s : Scan) : s.Pushed s [] := ⟨rfl, rfl, rfl, rfl⟩

lemma Pushed.trans {g : Scan} {v : List Char} (h₁ : s.Pushed f w) (h₂ : f.Pushed g v) :
    s.Pushed g (w ++ v) :=
  ⟨by rw [h₂.word, h₁.word, List.reverse_append, List.append_assoc], h₂.done.trans h₁.done,
    h₂.zoneNext.trans h₁.zoneNext, h₂.depth.trans h₁.depth⟩

lemma pushed_push (s : Scan) (c : Char) : s.Pushed ((s.push c).advance c) [c] := by
  have hpush : (s.push c).word = c :: s.word ∧ (s.push c).done = s.done
      ∧ (s.push c).zoneNext = s.zoneNext ∧ (s.push c).depth = s.depth := by
    unfold push
    cases s.word <;> exact ⟨rfl, rfl, rfl, rfl⟩
  constructor <;> simp [hpush]

lemma step_push (hz : s.zoneNext = false) (hb : isBreaking c = false)
    (hs : s.splitsBefore c rest = false) : s.step D c rest = (s.push c).advance c := by
  simp [step, hz, hb, hs]

lemma run_push (hz : s.zoneNext = false) (b : Bool) (hd : ∀ c ∈ w, c.isDigit = b)
    (hb : ∀ c ∈ w, isBreaking c = false) (hprev : ∀ p ∈ s.word.head?, p.isDigit = b)
    (rest : List Char) : ∃ f : Scan, s.Pushed f w ∧ s.run D (w ++ rest) = f.run D rest := by
  induction w generalizing s with
  | nil => exact ⟨s, Pushed.refl s, rfl⟩
  | cons c w ih =>
    have hsplit : s.splitsBefore c (w ++ rest) = false := by
      unfold splitsBefore
      cases hw : s.word with
      | nil => rfl
      | cons p ps =>
        have hp : p.isDigit = b := hprev p (by rw [hw]; rfl)
        simp [hp, hd c List.mem_cons_self]
    have hfirst := pushed_push s c
    obtain ⟨f, hf, hrun⟩ := ih (s := (s.push c).advance c) (hfirst.zoneNext.trans hz)
      (fun x hx => hd x (List.mem_cons_of_mem _ hx)) (fun x hx => hb x (List.mem_cons_of_mem _ hx))
      (by
        rw [hfirst.word]
        rintro p hp
        obtain rfl : c = p := by simpa using hp
        exact hd _ List.mem_cons_self)
    exact ⟨f, hfirst.trans hf, by
      rw [List.cons_append, run_cons, step_push hz (hb c List.mem_cons_self) hsplit, hrun]⟩

lemma not_splitsBefore_compound {ds ls : List Char} (hs : s.word = ds.reverse)
    (hds : ∀ c ∈ ds, c.isDigit = true) (hl : c.isDigit = false)
    (ha : ∀ x ∈ c :: ls, Text.isAlphabetic x = true)
    (hc : SpecialDay.isCompound (String.ofList (ds ++ c :: ls)) = true)
    (hrest : ∀ x ∈ rest.head?, Text.isAlphabetic x = false) :
    s.splitsBefore c (ls ++ rest) = false := by
  unfold splitsBefore
  cases hw : s.word with
  | nil => rfl
  | cons p ps =>
    have hp : p.isDigit = true :=
      hds p (List.mem_reverse.1 (by rw [← hs, hw]; exact List.mem_cons_self))
    have hletters : (c :: (ls ++ rest)).takeWhile Text.isAlphabetic = c :: ls := by
      rw [← List.cons_append, List.takeWhile_append_of_pos ha]
      cases rest with
      | nil => simp
      | cons x rest => simp [hrest x rfl]
    have hprefix : (p :: ps).reverse = ds := by rw [← hw, hs, List.reverse_reverse]
    simp only [hp, hl, hletters, hprefix, hc]
    rfl

/-- A word in one piece is under way when it is over. -/
lemma run_solid (hs : s.Idle) (hw : Solid w) (hc : c ∈ signs) (rest : List Char) :
    ∃ f : Scan, s.Pushed f w ∧ s.run D (w ++ c :: rest) = f.run D (c :: rest) := by
  obtain ⟨ds, ls, rfl, hds, hls, hjoin⟩ := hw.parts
  have hb := List.forall_mem_append.1 hw.unbroken
  obtain ⟨g, hg, hrun⟩ := run_push hs.2 true hds hb.1 (by simp [hs.1]) (ls ++ c :: rest)
  have hgword : g.word = ds.reverse := by rw [hg.word, hs.1, List.append_nil]
  have hgzone : g.zoneNext = false := hg.zoneNext.trans hs.2
  rw [List.append_assoc, hrun]
  cases ls with
  | nil => exact ⟨g, by rwa [List.append_nil], rfl⟩
  | cons l ls =>
    rcases hjoin with rfl | h | ⟨ha, hcompound⟩
    · obtain ⟨f, hf, hrun'⟩ := run_push hgzone false hls hb.2 (by simp [hgword]) (c :: rest)
      exact ⟨f, hg.trans hf, hrun'⟩
    · cases h
    · -- the letters are read from the first on, where the word would be split but is a compound
      have hl := List.forall_mem_cons.1 hls
      have hlb := List.forall_mem_cons.1 hb.2
      have hsplit : g.splitsBefore l (ls ++ c :: rest) = false :=
        not_splitsBefore_compound hgword hds hl.1 ha hcompound fun x hx => by
          obtain rfl : c = x := by simpa using hx
          exact not_alphabetic_of_sign hc
      have hfirst := pushed_push g l
      obtain ⟨f, hf, hrun'⟩ := run_push (s := (g.push l).advance l) (w := ls)
        (hfirst.zoneNext.trans hgzone) false hl.2 hlb.2
        (by
          rw [hfirst.word]
          rintro p hp
          obtain rfl : l = p := by simpa using hp
          exact hl.1) (c :: rest)
      refine ⟨f, hg.trans (hfirst.trans hf), ?_⟩
      rw [List.cons_append, run_cons, step_push hgzone hlb.1 hsplit, hrun']

lemma flush_eq (hf : f.word ≠ []) : f.flush D
    = { f with
        done := f.wordToken D :: f.done, word := [],
        zoneNext := (f.wordToken D).kind == .keyword .zone } := by
  unfold flush
  split
  · exact absurd ‹_› hf
  · rw [← opensZone_wordToken]

lemma wordToken_eq {k : Kind} (hf : f.word = w.reverse) (hz : f.zoneNext = false)
    (h : wordKind (String.ofList w) = .ok k) :
    f.wordToken D = Token.ofText k (String.ofList w) f.wordLine f.wordColumn := by
  simp [wordToken, hf, hz, ofWord, classify_of_wordKind h]

lemma adds_word {k : Kind} (hf : s.Pushed f w) (hs : s.Idle) (hw : w ≠ [])
    (h : wordKind (String.ofList w) = .ok k) (hk : k ≠ .keyword .zone) :
    s.Adds (f.flush D) [⟨k, String.ofList w⟩] := by
  have hword : f.word = w.reverse := by rw [hf.word, hs.1, List.append_nil]
  have htoken := wordToken_eq (D := D) hword (hf.zoneNext.trans hs.2) h
  rw [flush_eq (by rw [hword]; simpa using hw), htoken]
  exact ⟨⟨rfl, beq_eq_false_iff_ne.2 hk⟩,
    ⟨[_], .cons (spells_ofText _ _ _ _) .nil, by rw [hf.done]; rfl⟩, hf.depth⟩

/-- A word that means something is one token. -/
theorem reads_word {word : String} {k : Kind} (hw : word ≠ "") (h : wordKind word = .ok k)
    (hk : k ≠ .keyword .zone) : Reads signs word.toList [⟨k, word⟩] := by
  intro D s hs c hc rest
  obtain ⟨f, hf, hrun⟩ := run_solid hs (solid_of_wordKind hw h) hc rest
  have hadds := adds_word (D := D) hf hs (fun h0 => hw (String.toList_eq_nil_iff.1 h0))
    (by rwa [String.ofList_toList]) hk
  rw [String.ofList_toList] at hadds
  refine ⟨f.flush D, hadds, ?_⟩
  rw [hrun, run_cons, step_sign (hf.zoneNext.trans hs.2) (isBreaking_of_sign hc),
    run_sign hadds.idle (isBreaking_of_sign hc)]

/-! ### Signs -/

def signLexemes : List (Char × Lexeme) :=
  [(' ', .blank), (',', .comma), (':', .colon), ('-', .dash), ('+', .plus)]

/-- The last token is not a blank, so that a blank after it is a token of its own. -/
def Closed (ls : List Lexeme) : Prop := ∃ l, ls.getLast? = some l ∧ l.kind ≠ .blank

lemma Closed.append {ls' : List Lexeme} (h : Closed ls') : Closed (ls ++ ls') := by
  obtain ⟨l, hl, hk⟩ := h
  exact ⟨l, by rw [List.getLast?_append, hl]; rfl, hk⟩

lemma Closed.cons (l : Lexeme) (h : Closed ls) : Closed (l :: ls) := by
  rw [← List.singleton_append]
  exact h.append

lemma Adds.advance (hf : s.Adds f ls) (c : Char) : s.Adds (f.advance c) ls :=
  ⟨hf.idle.advance c, by rw [done_advance]; exact hf.done, by rw [depth_advance]; exact hf.depth⟩

lemma Adds.sign (hf : s.Adds f ls) (kind : Kind) (text : String) :
    s.Adds (f.sign kind text) (ls ++ [⟨kind, text⟩]) := by
  obtain ⟨ts, hts, hdone⟩ := hf.done
  refine ⟨hf.idle, ⟨ts ++ [Token.ofText kind text f.line f.column],
    List.rel_append hts (.cons (spells_ofText _ _ _ _) .nil), ?_⟩, hf.depth⟩
  simp [Scan.sign, hdone]

lemma Adds.blank (hf : s.Adds f ls) (hb : Closed ls) : s.Adds (f.blank ' ') (ls ++ [.blank]) := by
  have hsign : f.blank ' ' = f.sign .blank (String.singleton ' ') := by
    obtain ⟨ts, hts, hdone⟩ := hf.done
    obtain ⟨l, hl, hkind⟩ := hb
    obtain ⟨ls, rfl⟩ := List.getLast?_eq_some_iff.1 hl
    have hrev := List.rel_reverse hts
    rw [List.reverse_append] at hrev
    obtain ⟨t, ts', ⟨line, column, endColumn, rfl⟩, -, hts'⟩ := List.forall₂_cons_right_iff.1 hrev
    rw [hts', List.cons_append] at hdone
    unfold Scan.blank
    rw [hdone]
    exact if_neg hkind
  rw [hsign]
  exact hf.sign _ _

lemma isBreaking_of_mem_signLexemes {l : Lexeme} (h : (c, l) ∈ signLexemes) :
    isBreaking c = true := by
  have : ∀ p ∈ signLexemes, isBreaking p.1 = true := by decide
  exact this _ h

lemma Adds.addBreak {l : Lexeme} (hf : s.Adds f ls) (hc : (c, l) ∈ signLexemes)
    (hb : c = ' ' → Closed ls) : s.Adds (f.addBreak c) (ls ++ [l]) := by
  simp only [signLexemes, List.mem_cons, Prod.mk.injEq, List.not_mem_nil, or_false] at hc
  rcases hc with ⟨rfl, rfl⟩ | ⟨rfl, rfl⟩ | ⟨rfl, rfl⟩ | ⟨rfl, rfl⟩ | ⟨rfl, rfl⟩
  · exact hf.blank (hb rfl)
  · exact hf.sign .comma ","
  · exact hf.sign .colon ":"
  · exact hf.sign .dash "-"
  · exact hf.sign .plus "+"

/-- Texts with a sign between them have the tokens of both. -/
theorem Reads.append {ends ends' : List Char} {cs' : List Char} {ls' : List Lexeme} {l : Lexeme}
    (h : Reads ends cs ls) (h' : Reads ends' cs' ls') (hc : (c, l) ∈ signLexemes)
    (hmem : c ∈ ends) (hb : c = ' ' → Closed ls) :
    Reads ends' (cs ++ c :: cs') (ls ++ l :: ls') := by
  intro D s hs d hd rest
  obtain ⟨f, hf, hrun⟩ := h D s hs c hmem (cs' ++ d :: rest)
  have hsign := (hf.addBreak hc hb).advance c
  obtain ⟨g, hg, hrun'⟩ := h' D _ hsign.idle d hd rest
  refine ⟨g, ?_, ?_⟩
  · simpa using hsign.trans hg
  · rw [List.append_assoc, List.cons_append, hrun,
      run_sign hf.idle (isBreaking_of_mem_signLexemes hc), hrun']

/-- Texts with a blank between them have its token between theirs. -/
theorem Reads.spaced {ends ends' : List Char} {cs' : List Char} {ls' : List Lexeme}
    (h : Reads ends cs ls) (h' : Reads ends' cs' ls') (hmem : ' ' ∈ ends) (hb : Closed ls) :
    Reads ends' (cs ++ ' ' :: cs') (ls ++ .blank :: ls') :=
  h.append h' (by decide) hmem fun _ => hb

/-- A text in brackets has the tokens of the brackets around its own. -/
theorem Reads.bracket {ends : List Char} (h : Reads ends cs ls) (hmem : ']' ∈ ends) :
    Reads signs ('[' :: (cs ++ [']'])) (.openBracket :: (ls ++ [.closeBracket])) := by
  intro D s hs c hc rest
  -- the opening bracket goes down by one,
  have hopen : s.run D ('[' :: (cs ++ [']']) ++ c :: rest)
      = ((s.addBreak '[').advance '[').run D (cs ++ ']' :: c :: rest) := by
    rw [List.cons_append, run_sign hs rfl, List.append_assoc]
    rfl
  have hidle : ((s.addBreak '[').advance '[').Idle := Idle.advance (s := s.addBreak '[') hs _
  -- what stands inside comes back to that depth,
  obtain ⟨f, hf, hrun⟩ := h D ((s.addBreak '[').advance '[') hidle ']' hmem (c :: rest)
  have hdepth : f.depth = s.depth + 1 := by rw [hf.depth, depth_advance]; rfl
  obtain ⟨ts, hts, hdone⟩ := hf.done
  -- and the closing bracket comes up again, so it is no fault
  have hclose : f.addBreak ']' = { f.sign .closeBracket "]" with depth := s.depth } := by
    show f.close = _
    unfold close
    rw [if_neg (by omega), hdepth]
    rfl
  refine ⟨(f.addBreak ']').advance ']', ⟨?_, ?_, ?_⟩, ?_⟩
  · rw [hclose]
    exact Idle.advance (s := { f.sign .closeBracket "]" with depth := s.depth }) hf.idle _
  · refine ⟨Token.ofText .openBracket "[" s.line s.column ::
      (ts ++ [Token.ofText .closeBracket "]" f.line f.column]), ?_, ?_⟩
    · exact .cons (spells_ofText _ _ _ _)
        (List.rel_append hts (.cons (spells_ofText _ _ _ _) .nil))
    · rw [done_advance, hclose]
      show Token.ofText .closeBracket "]" f.line f.column :: f.done = _
      rw [hdone, done_advance]
      show _ :: (ts.reverse ++ Token.ofText .openBracket "[" s.line s.column :: s.done) = _
      simp
  · rw [depth_advance, hclose]
  · rw [hopen, hrun, run_sign hf.idle rfl]

/-! ### Zones and whole texts -/

lemma run_zone (hz : s.zoneNext = true) (hw : ∀ c ∈ w, Text.isBlank c = false ∧ c ≠ '\x00')
    (rest : List Char) : ∃ f : Scan, s.Pushed f w ∧ s.run D (w ++ rest) = f.run D rest := by
  induction w generalizing s with
  | nil => exact ⟨s, Pushed.refl s, rfl⟩
  | cons c w ih =>
    obtain ⟨hblank, hnul⟩ := hw c List.mem_cons_self
    have hstep : s.step D c (w ++ rest) = (s.push c).advance c := by
      simp [step, hz, hblank, hnul]
    have hfirst := pushed_push s c
    obtain ⟨f, hf, hrun⟩ := ih (s := (s.push c).advance c) (hfirst.zoneNext.trans hz)
      fun x hx => hw x (List.mem_cons_of_mem _ hx)
    exact ⟨f, hfirst.trans hf, by rw [List.cons_append, run_cons, hstep, hrun]⟩

/-- The keyword of a zone and a blank have been read: the next word is a zone. -/
structure AwaitsZone (s f : Scan) : Prop where
  word : f.word = []
  zoneNext : f.zoneNext = true
  done : ∃ ts, Spell ts [⟨.keyword .zone, "@tz"⟩, .blank] ∧ f.done = ts.reverse ++ s.done
  depth : f.depth = s.depth

lemma run_zoneKeyword (hs : s.Idle) (rest : List Char) :
    ∃ f : Scan, s.AwaitsZone f ∧ s.run D ("@tz".toList ++ ' ' :: rest) = f.run D rest := by
  have hkind : wordKind "@tz" = .ok (.keyword .zone) :=
    wordKind_canonicalWords ("@tz", _) (by simp [canonicalWords])
  obtain ⟨f, hf, hrun⟩ := run_solid hs (solid_of_wordKind (by decide) hkind)
    (c := ' ') (by decide) rest
  have hzone := hf.zoneNext.trans hs.2
  have hword : f.word = "@tz".toList.reverse := by rw [hf.word, hs.1, List.append_nil]
  have hflush := flush_eq (D := D) (f := f) (by rw [hword]; decide)
  rw [wordToken_eq hword hzone (by rwa [String.ofList_toList]), String.ofList_toList] at hflush
  -- the blank after the keyword leaves the next word marked as a zone
  have hstep : f.step D ' ' rest = ((f.flush D).sign .blank " ").advance ' ' := by
    rw [step_sign hzone (by decide), hflush]
    rfl
  refine ⟨((f.flush D).sign .blank " ").advance ' ', ⟨?_, ?_, ?_, ?_⟩,
    by rw [hrun, run_cons, hstep]⟩
  · rw [word_advance, hflush]
    rfl
  · rw [zoneNext_advance, hflush]
    rfl
  · refine ⟨[Token.ofText (.keyword .zone) "@tz" f.wordLine f.wordColumn,
      Token.ofText .blank " " (f.flush D).line (f.flush D).column],
      .cons (spells_ofText _ _ _ _) (.cons (spells_ofText _ _ _ _) .nil), ?_⟩
    rw [done_advance, hflush]
    show _ :: _ :: f.done = _
    rw [hf.done]
    rfl
  · rw [depth_advance, hflush]
    exact hf.depth

lemma AwaitsZone.adds {g : Scan} {id : String} (h : s.AwaitsZone f) (hg : f.Pushed g id.toList)
    (hid : id ≠ "") (hkey : Keyword.isRuleWord id = false) :
    s.Adds (g.flush D) [⟨.keyword .zone, "@tz"⟩, .blank, ⟨.zoneId, id⟩] := by
  have hword : g.word = id.toList.reverse := by rw [hg.word, h.word, List.append_nil]
  have htoken : g.wordToken D = Token.ofText .zoneId id g.wordLine g.wordColumn := by
    simp [wordToken, hword, hg.zoneNext, h.zoneNext, hkey]
  obtain ⟨ts, hts, hdone⟩ := h.done
  rw [flush_eq (by rw [hword]; simpa [String.toList_eq_nil_iff] using hid), htoken]
  refine ⟨⟨rfl, rfl⟩, ⟨ts ++ [Token.ofText .zoneId id g.wordLine g.wordColumn],
    List.rel_append hts (.cons (spells_ofText _ _ _ _) .nil), ?_⟩, hg.depth.trans h.depth⟩
  show _ :: g.done = _
  rw [hg.done, hdone, List.reverse_append]
  rfl

lemma run_end_of_zone (hz : s.zoneNext = true) (hc : c ∈ [' ', '\x00']) (hidle : (s.flush D).Idle)
    (rest : List Char) : s.run D (c :: rest) = (s.flush D).run D (c :: rest) := by
  have hends : [' ', '\x00'].all (fun c =>
      isBreaking c && !(true && !Text.isBlank c && c != '\x00')) = true := by decide
  obtain ⟨hbreak, hzone⟩ : isBreaking c = true
      ∧ (s.zoneNext && !Text.isBlank c && c != '\x00') = false := by
    have hend := List.all_eq_true.1 hends c hc
    rwa [hz, ← Bool.not_eq_true', ← Bool.and_eq_true]
  rw [run_cons, run_sign hidle hbreak]
  congr 1
  unfold step
  rw [hzone, hbreak]
  rfl

/-- A zone after its keyword is taken whole. -/
theorem reads_zone {id : String} (hid : id ≠ "") (hkey : Keyword.isRuleWord id = false)
    (hc : ∀ c ∈ id.toList, Text.isBlank c = false ∧ c ≠ '\x00') :
    Reads [' ', '\x00'] ("@tz".toList ++ ' ' :: id.toList)
      [⟨.keyword .zone, "@tz"⟩, .blank, ⟨.zoneId, id⟩] := by
  intro D s hs c hcend rest
  obtain ⟨f, hf, hrun⟩ := run_zoneKeyword (D := D) hs (id.toList ++ c :: rest)
  obtain ⟨g, hg, hrun'⟩ := run_zone (D := D) hf.zoneNext hc (c :: rest)
  have hadds := hf.adds (D := D) hg hid hkey
  refine ⟨g.flush D, hadds, ?_⟩
  rw [List.append_assoc, List.cons_append, hrun, hrun',
    run_end_of_zone (hg.zoneNext.trans hf.zoneNext) hcend hadds.idle]

/-- The tokens of a text are those it reads as, and one for its end. -/
theorem scan_eq {ends : List Char} (h : Reads ends cs ls) (hmem : '\x00' ∈ ends) :
    ∃ ts e, Token.scan D (String.ofList cs) = ts ++ [e] ∧ Spell ts ls ∧ e.kind = .endOfInput := by
  obtain ⟨f, hf, hrun⟩ := h D Scan.start ⟨rfl, rfl⟩ '\x00' hmem []
  obtain ⟨ts, hts, hdone⟩ := hf.done
  refine ⟨ts, Token.ofText .endOfInput "" f.line f.column, ?_, hts, rfl⟩
  rw [Token.scan, String.toList_ofList, hrun, run_sign hf.idle rfl]
  show ((f.addBreak '\x00').advance '\x00').done.reverse = _
  rw [done_advance]
  show (Token.ofText .endOfInput "" f.line f.column :: f.done).reverse = _
  rw [hdone]
  simp [Scan.start]

end Scan

end Recurrence
