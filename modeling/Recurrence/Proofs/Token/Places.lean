import Recurrence.Proofs.Token.Genuine
import Recurrence.Proofs.Token.Scanning

/-!
What the tokens of a text are of it. Every character of the text is in exactly one token, at the
place that the token says; a NUL, and the end of the text, is an end token. While a text is scanned,
the tokens so far and the word under way make up what has been read, and the depth is the number of
brackets that are open.

Main statement: `scan_divides`.
-/

namespace Recurrence

namespace Text

/-- The line and the column, from 1, of the character that follows `cs`. -/
def place (cs : List Char) : Nat × Nat :=
  (cs.count '\n' + 1, (cs.reverse.takeWhile (· ≠ '\n')).length + 1)

lemma place_newline (cs : List Char) : place (cs ++ ['\n']) = ((place cs).1 + 1, 1) := by
  simp [place]

lemma place_append_singleton {c : Char} (hc : c ≠ '\n') (cs : List Char) :
    place (cs ++ [c]) = ((place cs).1, (place cs).2 + 1) := by
  simp [place, hc, List.count_append]

end Text

namespace Token

/-- The characters that a token stands for: its text, but for an end token the NUL that it is in
place of. -/
def origin (t : Token) : List Char :=
  if t.kind = .endOfInput then ['\x00'] else t.text.toList

def origins (ts : List Token) : List Char := ts.flatMap origin

def opened (ts : List Token) : Nat := ts.countP fun t => t.kind = .openBracket

def closed (ts : List Token) : Nat := ts.countP fun t => t.kind = .closeBracket ∧ t.isValid = true

/-- What holds of a token that follows others. -/
structure Fits (before : List Token) (t : Token) : Prop where
  place : (t.line, t.column) = Text.place (origins before)
  text : if t.kind = .endOfInput then t.text = "" else t.text ≠ "" ∧ '\x00' ∉ t.text.toList
  blank : t.kind = .blank → ∀ p ∈ before.getLast?, p.kind ≠ .blank
  bracket : t.kind = .closeBracket → (t.isValid = false ↔ opened before ≤ closed before)

/-- In a list that has the last token first, every token fits after those before it. -/
def Chain : List Token → Prop
  | [] => True
  | t :: ts => t.Fits ts.reverse ∧ Chain ts

lemma Chain.fits {done before after : List Token} {t : Token} (h : Chain done)
    (hdone : done.reverse = before ++ t :: after) : t.Fits before := by
  induction done generalizing after with
  | nil => simp at hdone
  | cons u us ih =>
    rw [List.reverse_cons] at hdone
    rcases List.eq_nil_or_concat after with rfl | ⟨after, v, rfl⟩
    · obtain ⟨hus, hu⟩ := List.append_inj' hdone rfl
      obtain rfl : u = t := by simpa using hu
      exact hus ▸ h.1
    · have hdone' : us.reverse ++ [u] = (before ++ t :: after) ++ [v] := by simpa using hdone
      exact ih h.2 (List.append_inj' hdone' rfl).1

lemma origins_append (ts us : List Token) : origins (ts ++ us) = origins ts ++ origins us :=
  List.flatMap_append

@[simp] lemma origins_singleton (t : Token) : origins [t] = t.origin := by simp [origins]

lemma opened_reverse (ts : List Token) : opened ts.reverse = opened ts := List.countP_reverse

lemma closed_reverse (ts : List Token) : closed ts.reverse = closed ts := List.countP_reverse

lemma origin_of_ne {t : Token} (h : t.kind ≠ .endOfInput) : t.origin = t.text.toList := if_neg h

lemma Fits.text_eq {before : List Token} {t : Token} (h : t.Fits before) :
    t.text.toList = t.origin.filter (· ≠ '\x00') := by
  have htext := h.text
  split at htext
  · rename_i hk
    simp [origin, hk, htext]
  · rename_i hk
    rw [origin_of_ne hk, List.filter_eq_self.2]
    intro c hc
    have hnul : c ≠ '\x00' := by
      rintro rfl
      exact htext.2 hc
    simpa using hnul

end Token

namespace Scan

open Token

/-- What has been read is `cs`, in tokens and the word under way, and the place reached is the one
after `reached`. -/
structure Covers (s : Scan) (cs reached : List Char) : Prop where
  read : origins s.done.reverse ++ s.word.reverse = cs
  place : (s.line, s.column) = Text.place reached
  wordPlace : s.word ≠ [] → (s.wordLine, s.wordColumn) = Text.place (origins s.done.reverse)
  word : '\x00' ∉ s.word
  chain : Chain s.done
  depth : s.depth + closed s.done = opened s.done

variable {D : Zone.Database} {s f : Scan} {c : Char} {cs rest : List Char} {t : Token}

lemma Covers.start : start.Covers [] [] :=
  ⟨rfl, rfl, fun h => absurd rfl h, by simp [Scan.start], trivial, rfl⟩

lemma Covers.advance (h : s.Covers (cs ++ [c]) cs) :
    (s.advance c).Covers (cs ++ [c]) (cs ++ [c]) := by
  have hline : s.line = (Text.place cs).1 := congrArg Prod.fst h.place
  have hcolumn : s.column = (Text.place cs).2 := congrArg Prod.snd h.place
  unfold Scan.advance
  split
  · rename_i hc
    exact { h with place := by rw [hc, Text.place_newline, ← hline] }
  · rename_i hc
    exact { h with place := by rw [Text.place_append_singleton hc, ← hline, ← hcolumn] }

lemma Covers.push (h : s.Covers cs cs) (hc : c ≠ '\x00') : (s.push c).Covers (cs ++ [c]) cs := by
  unfold Scan.push
  split
  · rename_i hw
    have hread : origins s.done.reverse = cs := by simpa [hw] using h.read
    exact { h with
      read := by simp [hread]
      wordPlace := fun _ => by rw [hread]; exact h.place
      word := by simpa using hc.symm }
  · rename_i hw
    exact { h with
      read := by simp [← h.read]
      wordPlace := fun _ => h.wordPlace hw
      word := fun hmem => (List.mem_cons.1 hmem).elim (fun h0 => hc h0.symm) h.word }

/-! ### Tokens that are added -/

lemma Covers.cons {cs' : List Char} (h : s.Covers cs cs) (ht : t.Fits s.done.reverse)
    (hcs : origins s.done.reverse ++ t.origin = cs') (hdone : f.done = t :: s.done)
    (hword : f.word = []) (hplace : (f.line, f.column) = (s.line, s.column))
    (hdepth : f.depth + closed (t :: s.done) = opened (t :: s.done)) : f.Covers cs' cs where
  read := by simp [hdone, hword, origins_append, hcs]
  place := hplace.trans h.place
  wordPlace := fun h0 => absurd hword h0
  word := by simp [hword]
  chain := hdone ▸ ⟨ht, h.chain⟩
  depth := hdone ▸ hdepth

lemma wordToken_kind (s : Scan) :
    (s.wordToken D).kind.isWord = true ∨ (s.wordToken D).kind = .unknown := by
  unfold wordToken
  dsimp only
  split
  · exact Or.inl rfl
  · exact ofWord_kind D _ _ _

lemma wordToken_text (s : Scan) : (s.wordToken D).text = String.ofList s.word.reverse
    ∧ (s.wordToken D).line = s.wordLine ∧ (s.wordToken D).column = s.wordColumn := by
  unfold wordToken
  dsimp only
  split
  · exact ⟨rfl, rfl, rfl⟩
  · unfold ofWord
    split <;> exact ⟨rfl, rfl, rfl⟩

lemma wordToken_kind_ne (s : Scan) {k : Kind} (hk : k.isWord = false) (hu : k ≠ .unknown) :
    (s.wordToken D).kind ≠ k := by
  rintro rfl
  rcases s.wordToken_kind with h | h
  · rw [h] at hk
    cases hk
  · exact hu h

lemma Covers.flush (h : s.Covers cs cs) : (s.flush D).Covers cs cs ∧ (s.flush D).word = [] := by
  by_cases hw : s.word = []
  · have : s.flush D = s := by simp [Scan.flush, hw]
    exact ⟨this.symm ▸ h, this.symm ▸ hw⟩
  rw [flush_eq hw]
  obtain ⟨htext, hline, hcolumn⟩ := s.wordToken_text
  have hend : (s.wordToken D).kind ≠ .endOfInput := s.wordToken_kind_ne rfl (by decide)
  have hblank : (s.wordToken D).kind ≠ .blank := s.wordToken_kind_ne rfl (by decide)
  have hopen : (s.wordToken D).kind ≠ .openBracket := s.wordToken_kind_ne rfl (by decide)
  have hclose : (s.wordToken D).kind ≠ .closeBracket := s.wordToken_kind_ne rfl (by decide)
  have hfits : (s.wordToken D).Fits s.done.reverse := {
    place := by rw [hline, hcolumn]; exact h.wordPlace hw
    text := by
      rw [if_neg hend, htext]
      simpa [String.ofList_eq_empty_iff, hw] using h.word
    blank := fun h0 => absurd h0 hblank
    bracket := fun h0 => absurd h0 hclose }
  have hdepth : s.depth + closed (s.wordToken D :: s.done) = opened (s.wordToken D :: s.done) := by
    simpa [opened, closed, hopen, hclose] using h.depth
  have hread : origins s.done.reverse ++ (s.wordToken D).origin = cs := by
    rw [origin_of_ne hend, htext, String.toList_ofList, h.read]
  exact ⟨h.cons hfits hread rfl rfl rfl hdepth, rfl⟩

lemma Covers.put {kind : Kind} {text : String} {fault : Option Fault} (h : s.Covers cs cs)
    (hw : s.word = [])
    (ht : t = { Token.ofText kind text s.line s.column with fault := fault })
    (htext : if kind = .endOfInput then text = "" ∧ c = '\x00' else text.toList = [c] ∧ c ≠ '\x00')
    (hblank : kind = .blank → ∀ p ∈ s.done.head?, p.kind ≠ .blank)
    (hclose : kind = .closeBracket → (fault.isNone = false ↔ s.depth = 0))
    (hdone : f.done = t :: s.done) (hword : f.word = [])
    (hplace : (f.line, f.column) = (s.line, s.column))
    (hdepth : f.depth + closed [t] = s.depth + opened [t]) : f.Covers (cs ++ [c]) cs := by
  -- no word is under way, so the tokens alone spell what was read
  have hread : origins s.done.reverse = cs := by simpa [hw] using h.read
  have hsum := h.depth
  -- the new token stands where the walk stands, with the text of the sign
  have hfits : t.Fits s.done.reverse := {
    place := by rw [hread, ht]; exact h.place
    text := by
      rw [ht]
      show if kind = .endOfInput then text = "" else text ≠ "" ∧ '\x00' ∉ text.toList
      split at htext
      · rename_i hk
        rw [if_pos hk]
        exact htext.1
      · rename_i hk
        rw [if_neg hk, Ne, ← String.toList_eq_nil_iff, htext.1]
        simpa using htext.2.symm
    blank := by
      rw [List.getLast?_reverse, ht]
      exact hblank
    -- a closing bracket is at fault when none is open: the depth is opened less closed
    bracket := by
      rw [opened_reverse, closed_reverse, ht]
      intro hk
      refine (hclose hk).trans ?_
      omega }
  have horigin : t.origin = [c] := by
    rw [ht]
    show (if kind = .endOfInput then ['\x00'] else text.toList) = [c]
    split at htext
    · rename_i hk
      rw [if_pos hk, htext.2]
    · rename_i hk
      rw [if_neg hk, htext.1]
  refine h.cons hfits (by rw [hread, horigin]) hdone hword hplace ?_
  rw [← List.singleton_append, opened, closed, List.countP_append, List.countP_append]
  show f.depth + (closed [t] + closed s.done) = opened [t] + opened s.done
  omega

lemma Covers.sign {kind : Kind} {text : String} (h : s.Covers cs cs) (hw : s.word = [])
    (hopen : kind ≠ .openBracket) (hclose : kind ≠ .closeBracket)
    (hblank : kind = .blank → ∀ p ∈ s.done.head?, p.kind ≠ .blank)
    (htext : if kind = .endOfInput then text = "" ∧ c = '\x00'
      else text.toList = [c] ∧ c ≠ '\x00') :
    (s.sign kind text).Covers (cs ++ [c]) cs :=
  h.put hw rfl htext hblank (fun h0 => absurd h0 hclose) rfl hw rfl
    (by simp [Scan.sign, opened, closed, Token.ofText, hopen, hclose])

lemma Covers.blank (h : s.Covers cs cs) (hw : s.word = []) (hc : c ≠ '\x00') :
    (s.blank c).Covers (cs ++ [c]) cs := by
  -- a first blank is a token of its own
  have hsign (hlast : ∀ p ∈ s.done.head?, p.kind ≠ .blank) :
      (s.sign .blank (String.singleton c)).Covers (cs ++ [c]) cs :=
    h.sign hw (by decide) (by decide) (fun _ => hlast) (by simp [hc])
  unfold Scan.blank
  split
  · rename_i t ts hdone
    split
    · rename_i hk
      have hend : t.kind ≠ .endOfInput := by simp [hk]
      have hread := h.read
      have hchain := h.chain
      have hdepth := h.depth
      rw [hdone] at hread hchain hdepth
      -- a further one is added to the token before it
      obtain ⟨⟨hplace, htext, hblank, -⟩, hts⟩ := hchain
      rw [if_neg hend] at htext
      exact { h with
        read := by
          have hread' : origins ts.reverse ++ t.text.toList = cs := by
            simpa [origins_append, origin_of_ne hend, hw] using hread
          simp [origins_append, origin, hend, hw, ← hread']
        wordPlace := fun h0 => absurd hw h0
        chain := ⟨⟨hplace, by simpa [hend, hc.symm] using htext.2, hblank, by simp [hk]⟩, hts⟩
        depth := by simpa [opened, closed, hk] using hdepth }
    · rename_i hk
      exact hsign (by simpa [hdone] using hk)
  · rename_i hdone
    exact hsign (by simp [hdone])

lemma Covers.close (h : s.Covers cs cs) (hw : s.word = []) : s.close.Covers (cs ++ [']']) cs := by
  unfold Scan.close
  split
  · rename_i h0
    exact h.put hw rfl (by decide) (fun h1 => by cases h1) (fun _ => by simp [h0]) rfl hw rfl rfl
  · rename_i h0
    refine h.put hw rfl (by decide) (fun h1 => by cases h1) (fun _ => by simp [h0]) rfl hw rfl ?_
    show s.depth - 1 + 1 = s.depth + 0
    omega

lemma Covers.addBreak (h : s.Covers cs cs) (hw : s.word = []) (c : Char) :
    (s.addBreak c).Covers (cs ++ [c]) cs := by
  unfold Scan.addBreak
  split
  · exact h.sign hw (by decide) (by decide) (by simp) ⟨rfl, ‹_›⟩
  rename_i hnul
  split
  · exact h.blank hw hnul
  split
  · exact h.sign hw (by decide) (by decide) (by simp) (by simp [*])
  split
  · exact h.sign hw (by decide) (by decide) (by simp) (by simp [*])
  split
  · exact h.sign hw (by decide) (by decide) (by simp) (by simp [*])
  split
  · exact h.sign hw (by decide) (by decide) (by simp) (by simp [*])
  split
  · rename_i hc
    exact h.put hw rfl (by simp [hc]) (by simp) (by simp) rfl hw rfl rfl
  split
  · rename_i hc
    exact hc ▸ h.close hw
  · exact h.sign hw (by decide) (by decide) (by simp) (by simp [hnul])

/-! ### Runs -/

/-- One character more has been read. -/
lemma Covers.step (h : s.Covers cs cs) (c : Char) (rest : List Char) :
    (s.step D c rest).Covers (cs ++ [c]) (cs ++ [c]) := by
  have hnul (hb : isBreaking c = false) : c ≠ '\x00' := by
    rintro rfl
    cases hb
  obtain ⟨hflush, hword⟩ := h.flush
  unfold Scan.step
  dsimp only
  split
  · rename_i hzone
    have hc : c ≠ '\x00' := by
      rintro rfl
      simp at hzone
    exact (h.push hc).advance
  split
  · exact (hflush.addBreak hword c).advance
  rename_i hb
  have hc := hnul (Bool.not_eq_true _ ▸ hb)
  split
  · exact (hflush.push hc).advance
  · exact (h.push hc).advance

lemma Covers.run (h : s.Covers cs cs) (rest : List Char) :
    (s.run D rest).Covers (cs ++ rest) (cs ++ rest) := by
  induction rest generalizing s cs with
  | nil => rwa [List.append_nil]
  | cons c rest ih =>
    have hrun := ih (h.step (D := D) c rest)
    rwa [List.append_assoc, List.singleton_append] at hrun

lemma step_end (s : Scan) (rest : List Char) : (s.step D '\x00' rest).word = []
    ∧ ∃ e ts, (s.step D '\x00' rest).done = e :: ts ∧ e.kind = .endOfInput := by
  have hstep : s.step D '\x00' rest = ((s.flush D).sign .endOfInput "").advance '\x00' := by
    simp [Scan.step, isBreaking, Scan.addBreak]
  have hword : (s.flush D).word = [] := by
    unfold Scan.flush
    split
    · assumption
    · rfl
  rw [hstep, word_advance, done_advance]
  exact ⟨hword, _, _, rfl, rfl⟩

lemma run_end (s : Scan) (cs : List Char) : (s.run D (cs ++ ['\x00'])).word = []
    ∧ ∃ e ts, (s.run D (cs ++ ['\x00'])).done = e :: ts ∧ e.kind = .endOfInput := by
  induction cs generalizing s with
  | nil => exact s.step_end []
  | cons c cs ih => exact ih (s.step D c (cs ++ ['\x00']))

end Scan

namespace Token

/-- What tokens are of the text that they divide. -/
structure Divide (text : String) (ts : List Token) : Prop where
  /-- Put together, they spell the text without its NULs. -/
  spell : ts.flatMap (fun t => t.text.toList) = text.toList.filter (· ≠ '\x00')
  /-- A NUL of the text, and its end, is an end token. -/
  origins : origins ts = text.toList ++ ['\x00']
  last : ∃ t, ts.getLast? = some t ∧ t.kind = .endOfInput
  nonempty : ∀ t ∈ ts, t.kind ≠ .endOfInput → t.text ≠ ""
  /-- A token says where its first character is in the text. -/
  place : ∀ before t after, ts = before ++ t :: after →
    (t.line, t.column) = Text.place (Token.origins before)
  /-- Blanks in a row are one token. -/
  blank : ∀ before t u after, ts = before ++ t :: u :: after → t.kind = .blank → u.kind ≠ .blank
  /-- A closing bracket has a fault exactly if all that were opened before it are closed. -/
  bracket : ∀ before t after, ts = before ++ t :: after → t.kind = .closeBracket →
    (t.isValid = false ↔ opened before ≤ closed before)

lemma Chain.fits_of_mem {done : List Token} {t : Token} (h : Chain done) (ht : t ∈ done) :
    ∃ before, t.Fits before := by
  obtain ⟨before, after, hdone⟩ := List.append_of_mem (List.mem_reverse.2 ht)
  exact ⟨before, h.fits hdone⟩

/-- **Nothing of a text is lost.** Its tokens divide it, and each has its place. -/
theorem scan_divides (D : Zone.Database) (text : String) : Divide text (scan D text) := by
  have hcovers := Scan.Covers.start.run (D := D) (text.toList ++ ['\x00'])
  rw [List.nil_append] at hcovers
  obtain ⟨hword, e, ts, hdone, he⟩ := Scan.start.run_end (D := D) text.toList
  -- the end token alone spells no text, so the texts spell all but the last character
  have horigins : Token.origins (scan D text) = text.toList ++ ['\x00'] := by
    have hread := hcovers.read
    rwa [hword, List.reverse_nil, List.append_nil] at hread
  refine ⟨?_, horigins, ?_, ?_, ?_, ?_, ?_⟩
  -- the texts of the tokens leave that character out
  · have hspell : (scan D text).flatMap (fun t => t.text.toList)
        = (Token.origins (scan D text)).filter (· ≠ '\x00') := by
      rw [Token.origins, List.filter_flatMap]
      refine List.flatMap_congr fun t ht => ?_
      obtain ⟨before, hfits⟩ := hcovers.chain.fits_of_mem (List.mem_reverse.1 ht)
      exact hfits.text_eq
    rw [hspell, horigins]
    simp
  · exact ⟨e, by rw [scan, hdone]; simp, he⟩
  · intro t ht hk
    obtain ⟨before, hfits⟩ := hcovers.chain.fits_of_mem (List.mem_reverse.1 ht)
    have htext := hfits.text
    rw [if_neg hk] at htext
    exact htext.1
  · exact fun before t after hscan => (hcovers.chain.fits hscan).place
  · intro before t u after hscan hk hu
    have hscan' : scan D text = (before ++ [t]) ++ u :: after := by rw [hscan, List.append_cons]
    have hfits : u.Fits (before ++ [t]) := hcovers.chain.fits hscan'
    exact hfits.blank hu t (by simp) hk
  · exact fun before t after hscan => (hcovers.chain.fits hscan).bracket

end Token

end Recurrence
