import Recurrence.Proofs.Token.Places

/-!
Texts in pieces, one to a token: words, zones, stretches of blanks and signs. Where a piece ends is
said of the piece and of what follows it; the state of a scan comes in only as what the next word
is. Every text can be divided so, and a scan makes a token of each piece.

Main statements: `exists_divided` and `Divided.scan`.
-/

namespace Recurrence

namespace Token

def bare (t : Token) : Token := ⟨t.kind, t.text, 0, 0, 0, t.fault⟩

/-- The token of a word after a zone keyword, which is a zone unless it is a keyword. -/
def ofZone (D : Zone.Database) (word : String) : Token :=
  if !Keyword.isRuleWord word then .ofText .zoneId word 0 0 else .ofWord D word 0 0

lemma kind_bare (t : Token) : t.bare.kind = t.kind := rfl

lemma bare_ofWord (D : Zone.Database) (word : String) (line column : Nat) :
    (ofWord D word line column).bare = (ofWord D word 0 0).bare := by
  unfold ofWord
  split <;> rfl

end Token

/-- What is expected of a text at some place. -/
inductive Mode
  | plain
  /-- A zone keyword is over. A sign directly after it is one by itself. -/
  | marked
  /-- The next word is a zone. -/
  | zone
  deriving DecidableEq

namespace Mode

def zoned (m : Mode) : Bool := m ≠ plain

/-- Whether a character is a piece of its own, or part of a blank. -/
def breaks (m : Mode) (c : Char) : Bool :=
  match m with
  | zone => Text.isBlank c || c = '\x00'
  | _ => Scan.isBreaking c

def after (k : Token.Kind) : Mode := if k = .keyword .zone then marked else plain

def settled : Mode → Mode
  | plain => plain
  | marked | zone => zone

lemma isBreaking_of_breaks {m : Mode} {c : Char} (h : m.breaks c = true) :
    Scan.isBreaking c = true := by
  cases m with
  | zone =>
    rcases Bool.or_eq_true _ _ ▸ h with h | h
    · simp [Scan.isBreaking, h]
    · rw [of_decide_eq_true h]
      rfl
  | plain | marked => exact h

lemma not_breaks {m : Mode} {c : Char} (h : Scan.isBreaking c = false) : m.breaks c = false := by
  rw [← Bool.not_eq_true] at h ⊢
  exact mt isBreaking_of_breaks h

lemma zone_breaks {m : Mode} {c : Char} (h : m.breaks c = false) : zone.breaks c = false := by
  cases m with
  | zone => exact h
  | plain | marked =>
    rw [← Bool.not_eq_true] at h ⊢
    exact fun hz => h (isBreaking_of_breaks hz)

@[simp] lemma zoned_settled (m : Mode) : m.settled.zoned = m.zoned := by cases m <;> rfl

lemma breaks_after (k : Token.Kind) (c : Char) : (after k).breaks c = Scan.isBreaking c := by
  unfold after
  split <;> rfl

lemma zoned_after (k : Token.Kind) : (after k).zoned = (k == .keyword .zone) := by
  unfold after
  split
  · rename_i hk
    rw [hk]
    rfl
  · rename_i hk
    rw [beq_eq_false_iff_ne.2 hk]
    rfl

end Mode

namespace Scan

open Token

def ofParts (word : List Char) (depth : Nat) : Scan :=
  { start with word := word.reverse, depth := depth }

/-- A word that is not parted before its end: digits, then other characters, where those that meet
start with a compound. -/
structure Unparted (w : List Char) : Prop where
  nonempty : w ≠ []
  unbroken : ∀ c ∈ w, isBreaking c = false
  parts : ∃ ds ls, w = ds ++ ls ∧ (∀ c ∈ ds, c.isDigit = true) ∧ (∀ c ∈ ls, c.isDigit = false)
    ∧ (ds = [] ∨ ls = []
      ∨ SpecialDay.isCompound (String.ofList (ds ++ ls.takeWhile Text.isAlphabetic)) = true)

def Ends (w rest : List Char) : Prop :=
  ∃ c cs, rest = c :: cs ∧ (isBreaking c = true ∨ (ofParts w 0).splitsBefore c cs = true)

/-- A text, its mode at the start and the number of brackets that are open there, and the tokens of
its pieces, without their places. -/
inductive Divided (D : Zone.Database) : Mode → Nat → List Char → List Token → Prop
  | nil (m : Mode) (d : Nat) : Divided D m d [] []
  | word {d : Nat} {w rest : List Char} {ts : List Token} (hw : Unparted w) (hends : Ends w rest)
      (hrest : Divided D (.after (ofWord D (.ofList w) 0 0).kind) d rest ts) :
      Divided D .plain d (w ++ rest) ((ofWord D (.ofList w) 0 0).bare :: ts)
  | zone {m : Mode} {d : Nat} {c : Char} {w rest : List Char} {ts : List Token}
      (hm : m.zoned = true) (hc : m.breaks c = false)
      (hw : ∀ x ∈ c :: w, Mode.zone.breaks x = false)
      (hends : ∃ x xs, rest = x :: xs ∧ Mode.zone.breaks x = true)
      (hrest : Divided D (.after (ofZone D (.ofList (c :: w))).kind) d rest ts) :
      Divided D m d (c :: w ++ rest) ((ofZone D (.ofList (c :: w))).bare :: ts)
  | blank {m : Mode} {d : Nat} {w rest : List Char} {ts : List Token} (hw : w ≠ [])
      (hblank : ∀ c ∈ w, Text.isBlank c = true) (hends : ∀ c ∈ rest.head?, Text.isBlank c = false)
      (hrest : Divided D m.settled d rest ts) :
      Divided D m d (w ++ rest) ((ofText .blank (.ofList w) 0 0).bare :: ts)
  | sign {m : Mode} {d : Nat} {c : Char} {rest : List Char} {ts : List Token}
      (hc : m.breaks c = true) (hblank : Text.isBlank c = false)
      (hrest : Divided D m.settled ((ofParts [] d).addBreak c).depth rest ts) :
      Divided D m d (c :: rest) (((ofParts [] d).addBreak c).done.map bare ++ ts)

/-! ### Scans of pieces -/

variable {D : Zone.Database} {s f : Scan} {m : Mode} {d : Nat} {c : Char} {cs w rest : List Char}
  {ts : List Token}

/-- A scan stands between two pieces: it takes the next character as the mode says. -/
structure Between (D : Zone.Database) (s : Scan) (m : Mode) (cs : List Char) : Prop where
  step : ∀ c rest, cs = c :: rest →
    s.step D c rest = (if m.breaks c then (s.flush D).addBreak c else (s.flush D).push c).advance c
  zoneNext : (s.flush D).zoneNext = m.zoned
  blank : ∀ c ∈ cs.head?, Text.isBlank c = true → ∀ t ∈ (s.flush D).done.head?, t.kind ≠ .blank

@[simp] lemma word_flush (s : Scan) : (s.flush D).word = [] := by
  unfold flush
  split
  · assumption
  · rfl

@[simp] lemma depth_flush (s : Scan) : (s.flush D).depth = s.depth := by
  unfold flush
  split <;> rfl

lemma flush_of_word_eq_nil (hs : s.word = []) : s.flush D = s := by
  unfold flush
  rw [hs]

lemma between_of_word_eq_nil (hs : s.word = []) (hz : s.zoneNext = m.zoned) (hm : m ≠ .marked)
    (hblank : ∀ c ∈ cs.head?, Text.isBlank c = true → ∀ t ∈ s.done.head?, t.kind ≠ .blank) :
    s.Between D m cs := by
  have hflush := flush_of_word_eq_nil (D := D) hs
  refine ⟨fun c rest _ => ?_, by rw [hflush, hz], by rwa [hflush]⟩
  have hsplit : s.splitsBefore c rest = false := by simp [splitsBefore, hs]
  unfold Scan.step
  rw [hflush, hz, hsplit]
  cases m with
  | plain => by_cases hc : isBreaking c = true <;> simp [Mode.zoned, Mode.breaks, hc]
  | marked => exact absurd rfl hm
  | zone =>
    have hbreaking : Mode.zone.breaks c = true → isBreaking c = true := Mode.isBreaking_of_breaks
    by_cases hc : Mode.zone.breaks c = true
    · have hc' := hc
      rw [Mode.breaks, Bool.or_eq_true, decide_eq_true_eq] at hc'
      rw [if_pos hc, if_pos (hbreaking hc)]
      rcases hc' with h | h <;> simp [h]
    · rw [if_neg hc]
      rw [Mode.breaks, Bool.or_eq_true, decide_eq_true_eq, not_or] at hc
      simp [Mode.zoned, hc]

/-- The first character of a word does not depend on what came before it. -/
lemma Between.run_eq_flush (hs : s.Between D m (c :: rest)) (hc : m.breaks c = false) :
    s.run D (c :: rest) = (s.flush D).run D (c :: rest) := by
  have hstep := hs.step c rest rfl
  rw [hc, if_neg Bool.false_ne_true] at hstep
  have hflush : (s.flush D).step D c rest = ((s.flush D).push c).advance c := by
    have hsplit : (s.flush D).splitsBefore c rest = false := by simp [splitsBefore]
    unfold Scan.step
    rw [hs.zoneNext, hsplit]
    cases m with
    | plain =>
      have : isBreaking c = false := hc
      simp [Mode.zoned, this]
    | marked =>
      have hb : isBreaking c = false := hc
      have hblank : Text.isBlank c = false := by
        rw [isBreaking, Bool.or_eq_false_iff] at hb
        exact hb.1
      have hnul : c ≠ '\x00' := by
        rintro rfl
        cases hb
      simp [Mode.zoned, hblank, hnul]
    | zone =>
      rw [Mode.breaks, Bool.or_eq_false_iff, decide_eq_false_iff_not] at hc
      simp [Mode.zoned, hc]
  rw [run_cons, run_cons, hstep, hflush]

lemma splitsBefore_congr {s' : Scan} (h : s.word = s'.word) (c : Char) (rest : List Char) :
    s.splitsBefore c rest = s'.splitsBefore c rest := by
  unfold splitsBefore
  rw [h]

/-! #### Words -/

lemma isAlphabetic_iff :
    Text.isAlphabetic c = true ↔ Text.inRanges Text.alphabeticRanges c = true := by
  rw [Text.isAlphabetic, Bool.or_eq_true, or_iff_right_iff_imp, isAlpha_iff, Text.inRanges_iff]
  rintro (h | h)
  · exact ⟨(0x41, 0x5a), List.mem_cons_self, h⟩
  · exact ⟨(0x61, 0x7a), List.mem_cons_of_mem _ List.mem_cons_self, h⟩

lemma not_alphabetic_of_inRanges {ranges : List (Nat × Nat)}
    (h : ranges.all (fun r => Text.alphabeticRanges.all fun q => r.2 < q.1 || q.2 < r.1) = true)
    (hc : Text.inRanges ranges c = true) : Text.isAlphabetic c = false := by
  rw [← Bool.not_eq_true, isAlphabetic_iff]
  intro halpha
  obtain ⟨r, hr, hlow, hhigh⟩ := Text.inRanges_iff.1 hc
  obtain ⟨q, hq, hlow', hhigh'⟩ := Text.inRanges_iff.1 halpha
  have hapart := List.all_eq_true.1 (List.all_eq_true.1 h r hr) q hq
  rw [Bool.or_eq_true, decide_eq_true_eq, decide_eq_true_eq] at hapart
  omega

lemma not_alphabetic_of_isDigit (h : c.isDigit = true) : Text.isAlphabetic c = false := by
  have h0 : '0'.toNat = 48 := rfl
  have h9 : '9'.toNat = 57 := rfl
  have hbounds := Char.isDigit_iff_toNat.1 h
  have hdigit : Text.inRanges [(48, 57)] c = true :=
    Text.inRanges_iff.2 ⟨_, List.mem_singleton_self _, by omega, by omega⟩
  exact not_alphabetic_of_inRanges (by decide +kernel) hdigit

lemma not_alphabetic_of_isBreaking (h : isBreaking c = true) : Text.isAlphabetic c = false := by
  rw [isBreaking, Bool.or_eq_true, List.contains_iff_mem] at h
  rcases h with h | h
  · exact not_alphabetic_of_inRanges (by decide +kernel) (Bool.and_eq_true _ _ ▸ h).2
  · have hsigns : ['\x00', ',', ':', '-', '+', '[', ']', '.', ';', '!', '?', '(', ')'].all
        (fun c => !Text.isAlphabetic c) = true := by decide +kernel
    simpa using List.all_eq_true.1 hsigns c h

lemma splitsBefore_digit {v : List Char} {l : Char} (hl : l.isDigit = false)
    (hc : c.isDigit = true) :
    (ofParts (v ++ [l]) d).splitsBefore c rest = true := by
  simp [splitsBefore, ofParts, hl, hc]

lemma splitsBefore_letter (hw : w ≠ []) (hd : ∀ x ∈ w, x.isDigit = true) (hc : c.isDigit = false) :
    (ofParts w d).splitsBefore c rest
      = !SpecialDay.isCompound (String.ofList (w ++ (c :: rest).takeWhile Text.isAlphabetic)) := by
  obtain ⟨init, last, rfl⟩ := (List.eq_nil_or_concat w).resolve_left hw
  have hlast : last.isDigit = true := hd last (by simp)
  have hword : (ofParts (init.concat last) d).word = last :: init.reverse := by simp [ofParts]
  have hparts : (last :: init.reverse).reverse = init.concat last := by simp
  unfold splitsBefore
  simp only [hword, hlast, hc, hparts]
  rfl

lemma takeWhile_append_of_head {p : Char → Bool} (h : ∀ x ∈ rest.head?, p x = false)
    (cs : List Char) :
    (cs ++ rest).takeWhile p = cs.takeWhile p := by
  induction cs with
  | nil =>
    cases rest with
    | nil => rfl
    | cons x rest => simp [h x rfl]
  | cons c cs ih => rw [List.cons_append, List.takeWhile_cons, List.takeWhile_cons, ih]

lemma Ends.not_alphabetic {v : List Char} {l : Char} (h : Ends (v ++ [l]) rest)
    (hl : l.isDigit = false) : ∀ x ∈ rest.head?, Text.isAlphabetic x = false := by
  obtain ⟨c, cs, rfl, hc⟩ := h
  rintro _ ⟨⟩
  rcases hc with hc | hc
  · exact not_alphabetic_of_isBreaking hc
  · have hdigit : c.isDigit = true := by
      by_contra hd
      simp [splitsBefore, ofParts, hl, hd] at hc
    exact not_alphabetic_of_isDigit hdigit

lemma run_unparted (hs : s.Idle) (hw : Unparted w) (hends : Ends w rest) :
    ∃ f : Scan, s.Pushed f w ∧ s.run D (w ++ rest) = f.run D rest := by
  obtain ⟨ds, ls, rfl, hds, hls, hjoin⟩ := hw.parts
  have hb := List.forall_mem_append.1 hw.unbroken
  obtain ⟨g, hg, hrun⟩ := run_push hs.2 true hds hb.1 (by simp [hs.1]) (ls ++ rest)
  have hgword : g.word = ds.reverse := by rw [hg.word, hs.1, List.append_nil]
  have hgzone : g.zoneNext = false := hg.zoneNext.trans hs.2
  rw [List.append_assoc, hrun]
  cases ls with
  | nil => exact ⟨g, by rwa [List.append_nil], rfl⟩
  | cons l ls =>
    have hl := List.forall_mem_cons.1 hls
    have hlb := List.forall_mem_cons.1 hb.2
    have hsplit : g.splitsBefore l (ls ++ rest) = false := by
      rcases hjoin with rfl | h | hcompound
      · simp [splitsBefore, hgword]
      · cases h
      · -- the letters that the scan looks at are those of the word
        have hlast : ∀ x ∈ rest.head?, Text.isAlphabetic x = false := by
          obtain ⟨init, last, hinit⟩ := List.eq_nil_or_concat (l :: ls) |>.resolve_left (by simp)
          rw [List.concat_eq_append] at hinit
          rw [hinit, ← List.append_assoc] at hends
          exact hends.not_alphabetic (hls last (by simp [hinit]))
        have hletters : (l :: (ls ++ rest)).takeWhile Text.isAlphabetic
            = (l :: ls).takeWhile Text.isAlphabetic := takeWhile_append_of_head hlast (l :: ls)
        cases hd : g.word with
        | nil => simp [splitsBefore, hd]
        | cons p ps =>
          have hp : p.isDigit = true := hds p (by
            rw [← List.mem_reverse, ← hgword, hd]
            exact List.mem_cons_self)
          have hprefix : (p :: ps).reverse = ds := by rw [← hd, hgword, List.reverse_reverse]
          simp only [splitsBefore, hd, hp, hl.1, hletters, hprefix, hcompound]
          rfl
    have hfirst := pushed_push g l
    obtain ⟨f, hf, hrun'⟩ := run_push (s := (g.push l).advance l) (w := ls)
      (hfirst.zoneNext.trans hgzone) false hl.2 hlb.2
      (by
        rw [hfirst.word]
        rintro p hp
        obtain rfl : l = p := by simpa using hp
        exact hl.1) rest
    refine ⟨f, hg.trans (hfirst.trans hf), ?_⟩
    rw [List.cons_append, run_cons, step_push hgzone hlb.1 hsplit, hrun']

lemma between_of_word (hf : f.word = w.reverse) (hw : w ≠ [])
    (hstep : ∀ c cs, rest = c :: cs → f.step D c cs
      = (if isBreaking c then (f.flush D).addBreak c else (f.flush D).push c).advance c) :
    f.Between D (.after (f.wordToken D).kind) rest
      ∧ (f.flush D).done = f.wordToken D :: f.done := by
  have hflush := flush_eq (D := D) (f := f) (by rw [hf]; simpa using hw)
  refine ⟨⟨fun c cs hrest => ?_, ?_, ?_⟩, by rw [hflush]⟩
  · rw [hstep c cs hrest, Mode.breaks_after]
  · rw [Mode.zoned_after, hflush]
  · rw [hflush]
    rintro _ - - t ht
    obtain rfl : f.wordToken D = t := by simpa using ht
    exact f.wordToken_kind_ne rfl (by decide)

lemma run_word (hs : s.Between D .plain (w ++ rest)) (hw : Unparted w) (hends : Ends w rest) :
    ∃ f : Scan, s.run D (w ++ rest) = f.run D rest
      ∧ f.Between D (.after (ofWord D (.ofList w) 0 0).kind) rest ∧ f.depth = s.depth
      ∧ (f.flush D).done.map bare
        = (ofWord D (.ofList w) 0 0).bare :: (s.flush D).done.map bare := by
  -- the word before is finished first, so the walk stands idle
  have hidle : (s.flush D).Idle := ⟨s.word_flush, hs.zoneNext⟩
  have hfirst : s.run D (w ++ rest) = (s.flush D).run D (w ++ rest) := by
    obtain ⟨c, w, rfl⟩ := List.exists_cons_of_ne_nil hw.nonempty
    exact hs.run_eq_flush (hw.unbroken c List.mem_cons_self)
  obtain ⟨f, hf, hrun⟩ := run_unparted (D := D) hidle hw hends
  -- then the characters gather into this word and nothing else
  have hword : f.word = w.reverse := by rw [hf.word, hidle.1, List.append_nil]
  have hzone : f.zoneNext = false := hf.zoneNext.trans hidle.2
  have htoken : f.wordToken D = ofWord D (.ofList w) f.wordLine f.wordColumn := by
    simp [wordToken, hword, hzone]
  have hbare : (f.wordToken D).bare = (ofWord D (.ofList w) 0 0).bare := by rw [htoken, bare_ofWord]
  -- what comes next finishes the word, be it a sign or a change of letters
  have hstep : ∀ c cs, rest = c :: cs → f.step D c cs
      = (if isBreaking c then (f.flush D).addBreak c else (f.flush D).push c).advance c := by
    rintro c cs rfl
    by_cases hb : isBreaking c = true
    · rw [step_sign hzone hb, if_pos hb]
    · obtain ⟨_, _, ⟨⟩, hsplit⟩ := hends
      have hwords : (ofParts w 0).word = f.word := by simp [ofParts, hword]
      have hsplit' := hsplit.resolve_left hb
      rw [splitsBefore_congr hwords] at hsplit'
      simp [Scan.step, hzone, hb, hsplit']
  obtain ⟨hbetween, hdone⟩ := between_of_word hword hw.nonempty hstep
  refine ⟨f, hfirst.trans hrun, ?_, by rw [hf.depth, depth_flush], ?_⟩
  · rw [← kind_bare, ← hbare]
    exact hbetween
  · rw [hdone, List.map_cons, hbare, hf.done]

lemma run_zoneWord (hs : s.Between D m (c :: w ++ rest)) (hm : m.zoned = true)
    (hc : m.breaks c = false)
    (hw : ∀ x ∈ c :: w, Mode.zone.breaks x = false)
    (hends : ∃ x xs, rest = x :: xs ∧ Mode.zone.breaks x = true) :
    ∃ f : Scan, s.run D (c :: w ++ rest) = f.run D rest
      ∧ f.Between D (.after (ofZone D (.ofList (c :: w))).kind) rest ∧ f.depth = s.depth
      ∧ (f.flush D).done.map bare
        = (ofZone D (.ofList (c :: w))).bare :: (s.flush D).done.map bare := by
  -- after the keyword of a zone only a blank or the end breaks a word
  have hzone : (s.flush D).zoneNext = true := hs.zoneNext.trans hm
  obtain ⟨f, hf, hrun⟩ := run_zone (D := D) (w := c :: w) hzone
    (fun x hx => by simpa [Mode.breaks] using hw x hx) rest
  have hword : f.word = (c :: w).reverse := by rw [hf.word, word_flush, List.append_nil]
  have hfzone : f.zoneNext = true := hf.zoneNext.trans hzone
  -- the word is the name of a zone, or a keyword like any other
  have hbare : (f.wordToken D).bare = (ofZone D (.ofList (c :: w))).bare := by
    unfold wordToken ofZone
    rw [hword, hfzone, List.reverse_reverse]
    dsimp only
    rw [Bool.true_and]
    split
    · rfl
    · exact bare_ofWord D _ _ _
  have hstep : ∀ x xs, rest = x :: xs → f.step D x xs
      = (if isBreaking x then (f.flush D).addBreak x else (f.flush D).push x).advance x := by
    rintro x xs rfl
    obtain ⟨_, _, ⟨⟩, hx⟩ := hends
    have hzoned : (f.zoneNext && !Text.isBlank x && x != '\x00') = false := by
      rw [hfzone]
      rcases Bool.or_eq_true _ _ ▸ hx with h | h
      · simp [h]
      · simp [of_decide_eq_true h]
    have hb : isBreaking x = true := Mode.isBreaking_of_breaks (m := .zone) hx
    rw [if_pos hb, Scan.step, hzoned, hb]
    rfl
  obtain ⟨hbetween, hdone⟩ := between_of_word hword (List.cons_ne_nil _ _) hstep
  refine ⟨f, (hs.run_eq_flush hc).trans hrun, ?_, by rw [hf.depth, depth_flush], ?_⟩
  · rw [← kind_bare, ← hbare]
    exact hbetween
  · rw [hdone, List.map_cons, hbare, hf.done]

/-! #### Blanks and signs -/

lemma step_blank (hs : s.word = []) (hc : Text.isBlank c = true) (rest : List Char) :
    s.step D c rest = (s.blank c).advance c := by
  have hnul : c ≠ '\x00' := by
    rintro rfl
    cases hc
  have hb : isBreaking c = true := by simp [isBreaking, hc]
  unfold Scan.step
  rw [hc, hb, flush_of_word_eq_nil hs]
  simp [addBreak, hnul, hc]

lemma run_blanks {t : Token} {before : List Token} (hs : s.word = []) (hdone : s.done = t :: before)
    (ht : t.kind = .blank) (hw : ∀ c ∈ w, Text.isBlank c = true) (rest : List Char) :
    ∃ (f : Scan) (u : Token), s.run D (w ++ rest) = f.run D rest ∧ f.word = []
      ∧ f.zoneNext = s.zoneNext
      ∧ f.depth = s.depth ∧ f.done = u :: before
      ∧ u.bare = ⟨.blank, t.text ++ .ofList w, 0, 0, 0, t.fault⟩ := by
  induction w generalizing s t with
  | nil => exact ⟨s, t, rfl, hs, rfl, rfl, hdone, by simp [bare, ht]⟩
  | cons c w ih =>
    obtain ⟨hc, hw⟩ := List.forall_mem_cons.1 hw
    have hblank : s.blank c
        = { s with done :=
            { t with text := t.text.push c, endColumn := s.column + 1 } :: before } := by
      simp [Scan.blank, hdone, ht]
    obtain ⟨f, u, hrun, hf, hzone, hdepth, hfdone, hu⟩ := ih (s := (s.blank c).advance c)
      (t := { t with text := t.text.push c, endColumn := s.column + 1 })
      (by rw [word_advance, hblank]; exact hs) (by rw [done_advance, hblank]) ht hw
    refine ⟨f, u, ?_, hf, ?_, ?_, hfdone, ?_⟩
    · rw [List.cons_append, run_cons, step_blank hs hc, hrun]
    · rw [hzone, zoneNext_advance, hblank]
    · rw [hdepth, depth_advance, hblank]
    · rw [hu, Token.mk.injEq]
      refine ⟨rfl, ?_, rfl, rfl, rfl, rfl⟩
      rw [← String.toList_inj]
      simp

lemma run_blank (hs : s.Between D m (w ++ rest)) (hw : w ≠ [])
    (hblank : ∀ c ∈ w, Text.isBlank c = true) (hends : ∀ c ∈ rest.head?, Text.isBlank c = false) :
    ∃ f : Scan, s.run D (w ++ rest) = f.run D rest ∧ f.Between D m.settled rest ∧ f.depth = s.depth
      ∧ (f.flush D).done.map bare
        = (ofText .blank (.ofList w) 0 0).bare :: (s.flush D).done.map bare := by
  obtain ⟨c, w, rfl⟩ := List.exists_cons_of_ne_nil hw
  obtain ⟨hc, hblank⟩ := List.forall_mem_cons.1 hblank
  have hbreaks : m.breaks c = true := by cases m <;> simp [Mode.breaks, isBreaking, hc]
  have hnul : c ≠ '\x00' := by
    rintro rfl
    cases hc
  -- the first blank is a new token
  have hfirst : (s.flush D).addBreak c = (s.flush D).sign .blank (String.singleton c) := by
    have hlast := hs.blank c rfl hc
    unfold addBreak
    rw [if_neg hnul, if_pos hc]
    unfold Scan.blank
    split
    · rename_i t ts hdone
      exact if_neg (hlast t (by rw [hdone]; rfl))
    · rfl
  have hstep := hs.step c (w ++ rest) rfl
  rw [if_pos hbreaks, hfirst] at hstep
  obtain ⟨f, u, hrun, hword, hzone, hdepth, hdone, hu⟩ :=
    run_blanks (D := D) (s := ((s.flush D).sign .blank (String.singleton c)).advance c)
      (by rw [word_advance]; exact s.word_flush) (by rw [done_advance]; rfl) rfl hblank rest
  refine ⟨f, ?_, between_of_word_eq_nil hword ?_ (by cases m <;> decide) ?_, ?_, ?_⟩
  · rw [List.cons_append, run_cons, hstep, hrun]
  · rw [hzone, zoneNext_advance, Mode.zoned_settled]
    exact hs.zoneNext
  · intro x hx hxb
    rw [hends x hx] at hxb
    cases hxb
  · rw [hdepth, depth_advance]
    exact s.depth_flush
  · rw [flush_of_word_eq_nil hword, hdone, List.map_cons, hu]
    congr 1
    rw [bare, Token.mk.injEq]
    refine ⟨rfl, ?_, rfl, rfl, rfl, rfl⟩
    rw [← String.toList_inj]
    simp [ofText]

/-- The kinds of the signs that stand for themselves, whatever is open. -/
def signKinds : List Kind := [.endOfInput, .comma, .colon, .dash, .plus, .punctuation]

/-- What a sign is read as does not depend on what came before. Only brackets look at those that are
open. -/
lemma addBreak_cases {c : Char} (hc : Text.isBlank c = false) :
    (∃ kind text, kind ∈ signKinds ∧ (ofText kind text 0 0).origin = [c]
        ∧ ∀ s : Scan, s.addBreak c = s.sign kind text)
      ∨ (c = '[' ∧ ∀ s : Scan, s.addBreak c = { s.sign .openBracket "[" with depth := s.depth + 1 })
      ∨ c = ']' ∧ ∀ s : Scan, s.addBreak c = s.close := by
  -- the signs one by one, in the order in which the lexer compares
  unfold addBreak
  simp only [hc, Bool.false_eq_true, if_false]
  by_cases hnul : c = '\x00'
  · exact Or.inl ⟨.endOfInput, "", by decide, hnul ▸ rfl, fun s => if_pos hnul⟩
  simp only [if_neg hnul]
  by_cases hcomma : c = ','
  · exact Or.inl ⟨.comma, ",", by decide, hcomma ▸ rfl, fun s => if_pos hcomma⟩
  simp only [if_neg hcomma]
  by_cases hcolon : c = ':'
  · exact Or.inl ⟨.colon, ":", by decide, hcolon ▸ rfl, fun s => if_pos hcolon⟩
  simp only [if_neg hcolon]
  by_cases hdash : c = '-'
  · exact Or.inl ⟨.dash, "-", by decide, hdash ▸ rfl, fun s => if_pos hdash⟩
  simp only [if_neg hdash]
  by_cases hplus : c = '+'
  · exact Or.inl ⟨.plus, "+", by decide, hplus ▸ rfl, fun s => if_pos hplus⟩
  simp only [if_neg hplus]
  -- only the brackets change the depth
  by_cases hopen : c = '['
  · exact Or.inr (Or.inl ⟨hopen, fun s => if_pos hopen⟩)
  simp only [if_neg hopen]
  by_cases hclose : c = ']'
  · exact Or.inr (Or.inr ⟨hclose, fun s => if_pos hclose⟩)
  simp only [if_neg hclose]
  exact Or.inl ⟨.punctuation, .singleton c, by decide, by simp [origin, ofText], fun _ => rfl⟩

lemma addBreak_sign (hc : Text.isBlank c = false) : ∃ t, (s.addBreak c).done = t :: s.done
    ∧ ((ofParts [] s.depth).addBreak c).done.map bare = [t.bare] ∧ t.kind ≠ .blank
    ∧ (s.addBreak c).word = s.word ∧ (s.addBreak c).zoneNext = s.zoneNext
    ∧ (s.addBreak c).depth = ((ofParts [] s.depth).addBreak c).depth := by
  rcases addBreak_cases hc with ⟨kind, text, hkind, -, h⟩ | ⟨-, h⟩ | ⟨-, h⟩
  · have hblank : kind ≠ .blank := by
      rintro rfl
      exact absurd hkind (by decide)
    rw [h, h]
    exact ⟨_, rfl, rfl, hblank, rfl, rfl, rfl⟩
  · rw [h, h]
    exact ⟨_, rfl, rfl, Kind.noConfusion, rfl, rfl, rfl⟩
  · rw [h, h]
    unfold Scan.close
    by_cases hd : s.depth = 0
    · rw [if_pos hd, if_pos (show (ofParts [] s.depth).depth = 0 from hd)]
      exact ⟨_, rfl, rfl, Kind.noConfusion, rfl, rfl, rfl⟩
    · rw [if_neg hd, if_neg (show (ofParts [] s.depth).depth ≠ 0 from hd)]
      exact ⟨_, rfl, rfl, Kind.noConfusion, rfl, rfl, rfl⟩

lemma run_break (hs : s.Between D m (c :: rest)) (hc : m.breaks c = true)
    (hblank : Text.isBlank c = false) :
    ∃ f : Scan, s.run D (c :: rest) = f.run D rest ∧ f.Between D m.settled rest
      ∧ f.depth = ((ofParts [] s.depth).addBreak c).depth
      ∧ (f.flush D).done.map bare
        = ((ofParts [] s.depth).addBreak c).done.map bare ++ (s.flush D).done.map bare := by
  have hstep := hs.step c rest rfl
  rw [if_pos hc] at hstep
  obtain ⟨t, hdone, hbare, hk, hword, hzone, hdepth⟩ := (s.flush D).addBreak_sign hblank
  rw [depth_flush] at hbare hdepth
  have hempty : (((s.flush D).addBreak c).advance c).word = [] := by
    rw [word_advance, hword, word_flush]
  refine ⟨((s.flush D).addBreak c).advance c,
    by rw [run_cons, hstep], ?_, by rw [depth_advance, hdepth], ?_⟩
  · refine between_of_word_eq_nil hempty ?_ (by cases m <;> decide) ?_
    · rw [zoneNext_advance, hzone, Mode.zoned_settled, hs.zoneNext]
    · rintro _ - - u hu
      rw [done_advance, hdone] at hu
      obtain rfl : t = u := by simpa using hu
      exact hk
  · rw [flush_of_word_eq_nil hempty, done_advance, hdone, hbare]
    rfl

/-! #### Divisions -/

/-- **A scan makes a token of each piece.** -/
theorem Divided.run (h : Divided D m d cs ts) (hs : s.Between D m cs) (hd : s.depth = d) :
    ((s.run D cs).flush D).done.map bare = ts.reverse ++ (s.flush D).done.map bare := by
  induction h generalizing s with
  | nil => rfl
  | word hw hends _ ih =>
    obtain ⟨f, hrun, hbetween, hdepth, hdone⟩ := run_word hs hw hends
    rw [hrun, ih hbetween (hdepth.trans hd), hdone]
    simp
  | zone hm hc hw hends _ ih =>
    obtain ⟨f, hrun, hbetween, hdepth, hdone⟩ := run_zoneWord hs hm hc hw hends
    rw [hrun, ih hbetween (hdepth.trans hd), hdone]
    simp
  | blank hw hblank hends _ ih =>
    obtain ⟨f, hrun, hbetween, hdepth, hdone⟩ := run_blank hs hw hblank hends
    rw [hrun, ih hbetween (hdepth.trans hd), hdone]
    simp
  | @sign m d c rest ts hc hblank _ ih =>
    subst hd
    obtain ⟨f, hrun, hbetween, hdepth, hdone⟩ := run_break hs hc hblank
    obtain ⟨t, -, hbare, -⟩ := s.addBreak_sign hblank
    rw [hrun, ih hbetween hdepth, hdone, hbare]
    simp

/-- The tokens of a text are those of its pieces, up to their places. -/
theorem Divided.scan {text : String} (h : Divided D .plain 0 (text.toList ++ ['\x00']) ts) :
    (Token.scan D text).map bare = ts := by
  have hbetween : Scan.start.Between D .plain (text.toList ++ ['\x00']) :=
    between_of_word_eq_nil rfl rfl (by decide) (by rintro _ - - _ ⟨⟩)
  have hrun := h.run hbetween rfl
  have hnone : (Scan.start.flush D).done = [] := rfl
  rw [flush_of_word_eq_nil (Scan.start.run_end text.toList).1, hnone, List.map_nil,
    List.append_nil] at hrun
  rw [Token.scan, List.map_reverse, hrun, List.reverse_reverse]

/-! #### The pieces of any text -/

lemma dropWhile_head {p : Char → Bool} (h : cs.dropWhile p = c :: rest) : p c = false := by
  have := List.head?_dropWhile_not p cs
  rw [h] at this
  simpa using this

/-- Before a sign, digits come first and then other characters, up to a sign or a digit. -/
lemma exists_stretch (hc : isBreaking c = false) (hbreak : ∃ x ∈ cs, isBreaking x = true) :
    ∃ ds ls x xs, c :: cs = ds ++ (ls ++ x :: xs) ∧ (∀ y ∈ ds, y.isDigit = true)
      ∧ (∀ y ∈ ls, y.isDigit = false ∧ isBreaking y = false) ∧ ds ++ ls ≠ []
      ∧ (isBreaking x = true ∨ x.isDigit = true ∧ ls ≠ []) := by
  set ds := (c :: cs).takeWhile Char.isDigit with hds
  set tail := (c :: cs).dropWhile Char.isDigit with htail
  set ls := tail.takeWhile fun y => !y.isDigit && !isBreaking y with hls
  set rest := tail.dropWhile fun y => !y.isDigit && !isBreaking y with hrest
  have htailparts : tail = ls ++ rest := (List.takeWhile_append_dropWhile).symm
  have hparts : c :: cs = ds ++ (ls ++ rest) := by
    rw [← htailparts, hds, htail, List.takeWhile_append_dropWhile]
  have hdigits : ∀ y ∈ ds, y.isDigit = true := fun y hy => List.mem_takeWhile_imp hy
  have hletters : ∀ y ∈ ls, y.isDigit = false ∧ isBreaking y = false := fun y hy => by
    simpa using List.mem_takeWhile_imp hy
  obtain ⟨x, xs, hx⟩ : ∃ x xs, rest = x :: xs := by
    refine List.exists_cons_of_ne_nil fun hnil => ?_
    obtain ⟨b, hb, hbreaking⟩ := hbreak
    have hmem : b ∈ ds ++ ls := by
      rw [hnil, List.append_nil] at hparts
      exact hparts ▸ List.mem_cons_of_mem c hb
    have hnot : isBreaking b = false := by
      rcases List.mem_append.1 hmem with h | h
      · exact SpecialDay.not_breaking_of_isDigit (hdigits b h)
      · exact (hletters b h).2
    rw [hnot] at hbreaking
    cases hbreaking
  have hstop : x.isDigit = true ∨ isBreaking x = true := by
    have h := dropWhile_head (hrest.symm.trans hx)
    rw [Bool.and_eq_false_iff, Bool.not_eq_false', Bool.not_eq_false'] at h
    exact h
  refine ⟨ds, ls, x, xs, hx ▸ hparts, hdigits, hletters, fun hnil => ?_, ?_⟩
  · -- the first character is a digit or not
    obtain ⟨hd, hl⟩ := List.append_eq_nil_iff.1 hnil
    rw [hd, hl, hx, List.nil_append, List.nil_append, List.cons.injEq] at hparts
    obtain ⟨rfl, -⟩ := hparts
    rcases hstop with h | h
    · rw [hds, List.takeWhile_cons, if_pos h] at hd
      cases hd
    · rw [hc] at h
      cases h
  · rcases hstop with h | h
    · refine Or.inr ⟨h, fun hl => ?_⟩
      rw [hl, List.nil_append, hx] at htailparts
      rw [dropWhile_head (htail.symm.trans htailparts)] at h
      cases h
    · exact Or.inl h

lemma exists_word (hc : isBreaking c = false) (hbreak : ∃ x ∈ cs, isBreaking x = true) :
    ∃ w rest, c :: cs = w ++ rest ∧ Unparted w ∧ Ends w rest := by
  obtain ⟨ds, ls, x, xs, hcs, hd, hl, hne, hx⟩ := exists_stretch hc hbreak
  have hdunbroken : ∀ y ∈ ds, isBreaking y = false :=
    fun y hy => SpecialDay.not_breaking_of_isDigit (hd y hy)
  by_cases hjoin : ds = [] ∨ ls = []
      ∨ SpecialDay.isCompound (String.ofList (ds ++ ls.takeWhile Text.isAlphabetic)) = true
  · refine ⟨ds ++ ls, x :: xs, by rw [hcs, List.append_assoc], ⟨hne, ?_, ds, ls, rfl, hd,
      fun y hy => (hl y hy).1, hjoin⟩, x, xs, rfl, hx.imp_right ?_⟩
    · exact List.forall_mem_append.2 ⟨hdunbroken, fun y hy => (hl y hy).2⟩
    · rintro ⟨hxd, hlne⟩
      obtain ⟨init, last, rfl⟩ := (List.eq_nil_or_concat ls).resolve_left hlne
      rw [List.concat_eq_append, ← List.append_assoc]
      exact splitsBefore_digit (hl last (by simp)).1 hxd
  · -- the letters are a word of their own
    simp only [not_or] at hjoin
    obtain ⟨hdne, hlne, hcompound⟩ := hjoin
    obtain ⟨l, ls, rfl⟩ := List.exists_cons_of_ne_nil hlne
    have hnext : ∀ y ∈ (x :: xs).head?, Text.isAlphabetic y = false := by
      rintro _ ⟨⟩
      rcases hx with h | ⟨h, -⟩
      · exact not_alphabetic_of_isBreaking h
      · exact not_alphabetic_of_isDigit h
    refine ⟨ds, l :: ls ++ x :: xs, hcs, ⟨hdne, hdunbroken, ds, [], by simp, hd, by simp,
      Or.inr (Or.inl rfl)⟩, l, ls ++ x :: xs, rfl, Or.inr ?_⟩
    rw [splitsBefore_letter hdne hd (hl l List.mem_cons_self).1, ← List.cons_append,
      takeWhile_append_of_head hnext, Bool.not_eq_true', ← Bool.not_eq_true]
    exact hcompound

lemma exists_zone (hend : '\x00' ∈ cs) : ∃ w x xs, cs = w ++ x :: xs
    ∧ (∀ y ∈ w, Mode.zone.breaks y = false) ∧ Mode.zone.breaks x = true := by
  have hparts := List.takeWhile_append_dropWhile (p := fun y => !Mode.zone.breaks y) (l := cs)
  have hw : ∀ y ∈ cs.takeWhile fun y => !Mode.zone.breaks y, Mode.zone.breaks y = false :=
    fun y hy => by simpa using List.mem_takeWhile_imp hy
  obtain ⟨x, xs, hx⟩ : ∃ x xs, (cs.dropWhile fun y => !Mode.zone.breaks y) = x :: xs := by
    refine List.exists_cons_of_ne_nil fun hnil => ?_
    rw [hnil, List.append_nil] at hparts
    cases hw _ (hparts.symm ▸ hend)
  exact ⟨_, x, xs, by rw [← hx, hparts], hw, by simpa using dropWhile_head hx⟩

/-- **Every text is in pieces.** -/
theorem exists_divided (D : Zone.Database) {text : List Char} (m : Mode) (d : Nat)
    (h : cs <:+ text ++ ['\x00']) :
    ∃ ts, Divided D m d cs ts := by
  -- a piece is taken off the front each time, so the induction is on the length
  induction hn : cs.length using Nat.strong_induction_on generalizing m d cs with
  | _ n ih =>
    subst hn
    -- what is left after a piece is shorter, and still ends the text
    have hrest {w rest : List Char} (m : Mode) (d : Nat) (hw : w ≠ []) (hcs : cs = w ++ rest) :
        ∃ ts, Divided D m d rest ts := by
      refine ih rest.length ?_ m d ?_ rfl
      · have := List.length_pos_of_ne_nil hw
        rw [hcs, List.length_append]
        omega
      · exact (hcs ▸ List.suffix_append w rest).trans h
    cases cs with
    | nil => exact ⟨[], .nil m d⟩
    | cons c cs =>
      -- a piece that is no sign is followed by something, since the end of input is a sign
      have hend (hc : m.breaks c = false) : '\x00' ∈ cs := by
        -- what ends a text ends with the character that marks its end
        have hmem : '\x00' ∈ c :: cs := by
          obtain ⟨before, hbefore⟩ := h
          obtain ⟨init, last, hlast⟩ := (List.eq_nil_or_concat (c :: cs)).resolve_left (by simp)
          rw [hlast, List.concat_eq_append, ← List.append_assoc] at hbefore
          obtain ⟨rfl⟩ := (List.append_inj' hbefore rfl).2
          simp [hlast]
        refine (List.mem_cons.1 hmem).resolve_left ?_
        rintro rfl
        cases m <;> cases hc
      -- the next piece is a run of blanks,
      by_cases hblank : Text.isBlank c = true
      · have hparts := List.takeWhile_append_dropWhile (p := Text.isBlank) (l := c :: cs)
        have hne : (c :: cs).takeWhile Text.isBlank ≠ [] := by
          rw [List.takeWhile_cons, if_pos hblank]
          exact List.cons_ne_nil _ _
        obtain ⟨ts, hts⟩ := hrest m.settled d hne hparts.symm
        rw [← hparts]
        refine ⟨_, .blank hne (fun x hx => List.mem_takeWhile_imp hx) (fun x hx => ?_) hts⟩
        obtain ⟨xs, hxs⟩ := List.head?_eq_some_iff.1 hx
        exact dropWhile_head hxs
      rw [Bool.not_eq_true] at hblank
      -- a sign,
      by_cases hc : m.breaks c = true
      · obtain ⟨ts, hts⟩ := hrest m.settled ((ofParts [] d).addBreak c).depth
          (List.cons_ne_nil c []) rfl
        exact ⟨_, .sign hc hblank hts⟩
      rw [Bool.not_eq_true] at hc
      -- the name of a zone if the keyword before asks for one,
      by_cases hm : m.zoned = true
      · obtain ⟨w, x, xs, rfl, hw, hx⟩ := exists_zone (hend hc)
        obtain ⟨ts, hts⟩ :=
          hrest (w := c :: w) (.after (ofZone D (.ofList (c :: w))).kind) d (by simp) rfl
        exact ⟨_, .zone hm hc (List.forall_mem_cons.2 ⟨Mode.zone_breaks hc, hw⟩) ⟨x, xs, rfl, hx⟩
          hts⟩
      -- and a word otherwise
      · obtain rfl : m = .plain := by
          cases m with
          | plain => rfl
          | marked | zone => exact absurd rfl hm
        obtain ⟨w, rest, hparts, hw, hends⟩ := exists_word hc ⟨_, hend hc, rfl⟩
        obtain ⟨ts, hts⟩ := hrest (.after (ofWord D (.ofList w) 0 0).kind) d hw.nonempty hparts
        rw [hparts]
        exact ⟨_, .word hw hends hts⟩

/-- The tokens of a text, without their places, are those of its pieces. -/
theorem divided_scan (D : Zone.Database) (text : String) :
    Divided D .plain 0 (text.toList ++ ['\x00']) ((Token.scan D text).map bare) := by
  obtain ⟨ts, hts⟩ := exists_divided D .plain 0 (List.suffix_refl (text.toList ++ ['\x00']))
  rwa [hts.scan]

end Scan

end Recurrence
