import Recurrence.Proofs.Token.LetterCase

/-!
A text spelled another way: its words in another letter case, but for the names of zones, and its
keywords with an at sign or without. The pieces of such a text are those of the first, piece by
piece, and so are its tokens.

Main statement: `alike_scan`.
-/

namespace Recurrence

namespace Token

variable {w : String} {q : Keyword}

/-- Whether the next word is a zone after the token, given whether it was before. -/
def expects (zoned : Bool) (t : Token) : Bool :=
  match t.kind with
  | .keyword k => k = .zone
  | .zoneId => false
  | _ => zoned

/-- Characters that say what the token says. A keyword is said with an at sign or without, in any
letter case; the name of a zone is said in one way only; what else the token is is said in any
letter case. -/
def Says (zoned : Bool) (t : Token) (cs : List Char) : Prop :=
  match t.kind with
  | .keyword _ => (Keyword.bare (.ofList cs)).toLower = (Keyword.bare t.text).toLower
  | .zoneId => if zoned then cs = t.origin else CaseAlike t.origin cs
  | _ => CaseAlike t.origin cs

lemma says_iff {zoned : Bool} {t : Token} {cs : List Char} : t.Says zoned cs
    ↔ if t.keyword?.isSome
      then CaseAlike (Keyword.bare (.ofList cs)).toList (Keyword.bare t.text).toList
      else if t.kind = .zoneId ∧ zoned = true then cs = t.origin else CaseAlike t.origin cs := by
  unfold Says keyword?
  cases t.kind <;> simp [CaseAlike.toLower_eq]

instance (zoned : Bool) (t : Token) (cs : List Char) : Decidable (t.Says zoned cs) :=
  decidable_of_iff _ says_iff.symm

/-- A text that says what tokens say, token by token. -/
inductive Respells : Bool → List Token → List Char → Prop
  | nil (zoned : Bool) : Respells zoned [] []
  | cons {zoned : Bool} {t : Token} {ts : List Token} {cs rest : List Char} (h : t.Says zoned cs)
      (hrest : Respells (t.expects zoned) ts rest) : Respells zoned (t :: ts) (cs ++ rest)

/-- Whether pieces of a text say what tokens say, token by token. -/
def saidBy (zoned : Bool) : List Token → List String → Bool
  | [], [] => true
  | t :: ts, piece :: pieces => t.Says zoned piece.toList && saidBy (t.expects zoned) ts pieces
  | _, _ => false

lemma Respells.of_pieces {zoned : Bool} {ts : List Token} {pieces : List String}
    (h : saidBy zoned ts pieces = true) : Respells zoned ts (pieces.flatMap String.toList) := by
  induction ts generalizing zoned pieces with
  | nil =>
    cases pieces with
    | nil => exact .nil zoned
    | cons piece pieces => cases h
  | cons t ts ih =>
    cases pieces with
    | nil => cases h
    | cons piece pieces =>
      rw [saidBy, Bool.and_eq_true, decide_eq_true_eq] at h
      exact .cons h.1 (ih h.2)

/-- Tokens that are the same to a rule: of one kind and with one fault, or of no use both. But for
keywords their texts are the same up to the letter case, and zones are the same. -/
structure Alike (zoned : Bool) (t u : Token) : Prop where
  kind : t.kind = u.kind ∧ t.fault = u.fault ∨ t.Odd ∧ u.Odd
  keyword : t.keyword? = u.keyword?
  text : t.keyword? = none → t.text.toLower = u.text.toLower
  zone : zoned = true → t.keyword? = none → t.kind = u.kind ∧ t.text = u.text ∧ t.fault = u.fault

/-- Lists of tokens that are the same to a rule, token by token. A blank or the end follows a
zone. -/
inductive AlikeFrom : Bool → List Token → List Token → Prop
  | nil (zoned : Bool) : AlikeFrom zoned [] []
  | cons {zoned : Bool} {t u : Token} {ts us : List Token} (h : t.Alike zoned u)
      (hnext : zoned = true → t.kind = .zoneId → ∀ v ∈ ts.head?, v.kind = .blank
        ∨ v.kind = .endOfInput)
      (hrest : AlikeFrom (t.expects zoned) ts us) : AlikeFrom zoned (t :: ts) (u :: us)

end Token

/-! ### Keywords -/

namespace Keyword

variable {v w : String} {q : Keyword}

lemma bare_cases (w : String) : w.toList = (bare w).toList ∨ w.toList = '@' :: (bare w).toList := by
  unfold bare
  split
  · rename_i cs hcs
    rw [String.toList_ofList, hcs]
    exact Or.inr rfl
  · exact Or.inl rfl

lemma isLetter_bare (h : ofWord? w = some q) : ∀ c ∈ (bare w).toList, SpecialDay.IsLetter c :=
  SpecialDay.isLetter_of_keyword h

lemma not_isDigit (h : ofWord? w = some q) : ∀ c ∈ w.toList, c.isDigit = false := by
  have hl (c : Char) (hc : c ∈ (bare w).toList) : c.isDigit = false :=
    (isLetter_bare h c hc).not_digit
  rcases bare_cases w with hw | hw
  · rwa [hw]
  · rw [hw]
    exact List.forall_mem_cons.2 ⟨rfl, hl⟩

lemma toList_ne_nil (h : ofWord? w = some q) : w.toList ≠ [] := fun h0 =>
  ne_empty_of_ofWord? h (String.toList_eq_nil_iff.1 h0)

lemma wordKind_eq (h : ofWord? w = some q) : Token.wordKind w = .ok (.keyword q) := by
  have hnumeral : ¬ Text.isNumeral w = true := by
    intro hd
    obtain ⟨c, cs, hcs⟩ := List.exists_cons_of_ne_nil (toList_ne_nil h)
    have hc : c ∈ w.toList := hcs ▸ List.mem_cons_self
    have := List.all_eq_true.1 hd c hc
    rw [not_isDigit h c hc] at this
    cases this
  have hrule := isRuleWord_of_ofWord? h
  unfold Token.wordKind Token.classify
  simp only [hnumeral, hrule, opened_eq hrule h, Bool.false_eq_true, if_false, dif_pos]

lemma takeWhile_alphabetic (h : ofWord? w = some q) :
    w.toList.takeWhile Text.isAlphabetic = []
      ∨ w.toList.takeWhile Text.isAlphabetic = (bare w).toList := by
  rcases bare_cases w with hw | hw
  · refine Or.inr ?_
    rw [hw]
    exact List.takeWhile_eq_self_iff.2 fun c hc => (isLetter_bare h c hc).alphabetic
  · refine Or.inl ?_
    rw [hw, List.takeWhile_cons, if_neg (by decide +kernel)]

lemma not_compound (h : ofWord? w = some q) {ds : List Char} (hne : ds ≠ [])
    (hds : ∀ d ∈ ds, d.isDigit = true) :
    SpecialDay.isCompound (.ofList (ds ++ w.toList.takeWhile Text.isAlphabetic)) = false := by
  rcases takeWhile_alphabetic h with hw | hw
  · rw [hw]
    exact SpecialDay.not_compound hne hds (by simp) (by decide)
  · rw [hw]
    refine SpecialDay.not_compound hne hds (fun c hc => ?_)
      (dropEnding?_of_ofWord? (CaseAlike.refl _) h)
    exact (isLetter_bare h c (List.mem_of_mem_head? hc)).not_digit

end Keyword

/-! ### Words -/

namespace Scan

open Token

variable {D : Zone.Database} {v w rest rest' : List Char} {m : Mode} {d : Nat} {cs cs' : List Char}
  {ts : List Token}

/-- A word said another way. -/
inductive WordAlike (v w : List Char) : Prop
  | letters (h : CaseAlike v w)
  | keyword {q : Keyword} (hv : Keyword.ofWord? (.ofList v) = some q)
      (hw : Keyword.ofWord? (.ofList w) = some q)

lemma unparted_of_keyword {q : Keyword} (h : Keyword.ofWord? (.ofList w) = some q) :
    Unparted w := by
  have := unparted_of_solid (solid_of_keyword (Keyword.ne_empty_of_ofWord? h) h)
  rwa [String.toList_ofList] at this

lemma WordAlike.unparted (hv : Unparted v) (h : WordAlike v w) : Unparted w := by
  cases h with
  | letters h => exact hv.respelled h
  | keyword _ hw => exact unparted_of_keyword hw

lemma WordAlike.concat {l : Char} (h : WordAlike (v ++ [l]) w) :
    ∃ w' l', w = w' ++ [l'] ∧ l'.isDigit = l.isDigit := by
  cases h with
  | letters h =>
    obtain ⟨w₁, w₂, rfl, -, h₂⟩ := h.split
    obtain ⟨l', ds, rfl, hl, hnil⟩ := CaseAlike.cons_iff.1 h₂
    rw [hnil.nil_iff.1 rfl]
    exact ⟨w₁, l', rfl, by rw [← isDigit_toLower, ← hl, isDigit_toLower]⟩
  | keyword hv hw =>
    have hnil := Keyword.toList_ne_nil hw
    have hdigit := Keyword.not_isDigit hw
    have hdigit' := Keyword.not_isDigit hv
    rw [String.toList_ofList] at hnil hdigit hdigit'
    obtain ⟨init, last, rfl⟩ := (List.eq_nil_or_concat w).resolve_left hnil
    rw [List.concat_eq_append] at hdigit ⊢
    exact ⟨init, last, rfl, by rw [hdigit last (by simp), hdigit' l (by simp)]⟩

lemma WordAlike.cons {c : Char} (h : WordAlike (c :: v) w) :
    ∃ c' w', w = c' :: w' ∧ c'.isDigit = c.isDigit := by
  cases h with
  | letters h =>
    obtain ⟨c', w', rfl, hc, -⟩ := CaseAlike.cons_iff.1 h
    exact ⟨c', w', rfl, by rw [← isDigit_toLower, ← hc, isDigit_toLower]⟩
  | keyword hv hw =>
    have hnil := Keyword.toList_ne_nil hw
    have hdigit := Keyword.not_isDigit hw
    have hdigit' := Keyword.not_isDigit hv
    rw [String.toList_ofList] at hnil hdigit hdigit'
    obtain ⟨c', w', rfl⟩ := List.exists_cons_of_ne_nil hnil
    exact ⟨c', w', rfl, by rw [hdigit c' (by simp), hdigit' c (by simp)]⟩

lemma WordAlike.eq_of_digits (h : WordAlike v w) (hne : v ≠ []) (hv : ∀ c ∈ v, c.isDigit = true) :
    v = w := by
  cases h with
  | letters h =>
    exact h.eq_of_fixed fun c hc d hd => eq_of_toLower_eq (not_isAlpha_of_isDigit (hv c hc)) hd
  | keyword hk =>
    have hdigit := Keyword.not_isDigit hk
    rw [String.toList_ofList] at hdigit
    obtain ⟨c, v, rfl⟩ := List.exists_cons_of_ne_nil hne
    have := hv c List.mem_cons_self
    rw [hdigit c List.mem_cons_self] at this
    cases this

lemma Unparted.digits {l : Char} (hw : Unparted (w ++ [l])) (hl : l.isDigit = true) :
    ∀ c ∈ w ++ [l], c.isDigit = true := by
  obtain ⟨ds, ls, hparts, hds, hls, -⟩ := hw.parts
  rcases List.eq_nil_or_concat ls with rfl | ⟨init, last, rfl⟩
  · rwa [hparts, List.append_nil]
  · rw [List.concat_eq_append, ← List.append_assoc] at hparts
    obtain ⟨rfl⟩ := (List.append_inj' hparts rfl).2
    rw [hls l (by simp)] at hl
    cases hl

lemma takeWhile_alphabetic (hw : Unparted w) (hends : Ends w rest) :
    (w ++ rest).takeWhile Text.isAlphabetic = w.takeWhile Text.isAlphabetic := by
  obtain ⟨init, last, rfl⟩ := (List.eq_nil_or_concat w).resolve_left hw.nonempty
  rw [List.concat_eq_append] at hw hends ⊢
  by_cases hlast : last.isDigit = true
  · obtain ⟨c, cs, hcs⟩ := List.exists_cons_of_ne_nil hw.nonempty
    have hc : ¬ Text.isAlphabetic c = true := by
      rw [not_alphabetic_of_isDigit (hw.digits hlast c (hcs ▸ List.mem_cons_self))]
      decide
    rw [hcs, List.cons_append, List.takeWhile_cons, List.takeWhile_cons, if_neg hc, if_neg hc]
  · exact takeWhile_append_of_head (hends.not_alphabetic (by simpa using hlast)) _

/-- Two texts that start alike, as far as the word before them is concerned. -/
inductive FrontAlike : List Char → List Char → Prop
  | nil : FrontAlike [] []
  | cons {c c' : Char} {cs cs' : List Char} (hdigit : c'.isDigit = c.isDigit)
      (hsame : isBreaking c = true ∨ isBreaking c' = true → c' = c)
      (hletters : ∀ ds, ds ≠ [] → (∀ d ∈ ds, d.isDigit = true) →
        SpecialDay.isCompound (.ofList (ds ++ (c' :: cs').takeWhile Text.isAlphabetic))
          = SpecialDay.isCompound (.ofList (ds ++ (c :: cs).takeWhile Text.isAlphabetic))) :
      FrontAlike (c :: cs) (c' :: cs')

lemma FrontAlike.sign {c : Char} (hc : isBreaking c = true) (cs cs' : List Char) :
    FrontAlike (c :: cs) (c :: cs') := by
  have hc' : ¬ Text.isAlphabetic c = true := by
    rw [not_alphabetic_of_isBreaking hc]
    decide
  refine .cons rfl (fun _ => rfl) fun ds _ _ => ?_
  rw [List.takeWhile_cons, List.takeWhile_cons, if_neg hc', if_neg hc']

lemma FrontAlike.append {x y : Char} {xs ys : List Char} (hv : v ≠ []) (hx : isBreaking x = true)
    (hy : isBreaking y = true) : FrontAlike (v ++ x :: xs) (v ++ y :: ys) := by
  have hletters {z : Char} {zs : List Char} (hz : isBreaking z = true) :
      (v ++ z :: zs).takeWhile Text.isAlphabetic = v.takeWhile Text.isAlphabetic :=
    takeWhile_append_of_head (by rintro _ ⟨⟩; exact not_alphabetic_of_isBreaking hz) v
  obtain ⟨c, v, rfl⟩ := List.exists_cons_of_ne_nil hv
  refine .cons rfl (fun _ => rfl) fun ds _ _ => ?_
  show SpecialDay.isCompound (.ofList (ds ++ (c :: v ++ y :: ys).takeWhile Text.isAlphabetic))
    = SpecialDay.isCompound (.ofList (ds ++ (c :: v ++ x :: xs).takeWhile Text.isAlphabetic))
  rw [hletters hx, hletters hy]

lemma WordAlike.compound (h : WordAlike v w) {ds : List Char} (hne : ds ≠ [])
    (hds : ∀ d ∈ ds, d.isDigit = true) :
    SpecialDay.isCompound (.ofList (ds ++ w.takeWhile Text.isAlphabetic))
      = SpecialDay.isCompound (.ofList (ds ++ v.takeWhile Text.isAlphabetic)) := by
  cases h with
  | letters h =>
    exact (SpecialDay.isCompound_congr
      ((CaseAlike.refl ds).append (h.takeWhile isAlphabetic_toLower))).symm
  | keyword hv hw =>
    have hv' := Keyword.not_compound hv hne hds
    have hw' := Keyword.not_compound hw hne hds
    rw [String.toList_ofList] at hv' hw'
    rw [hv', hw']

lemma Ends.respelled (hends : Ends v rest) (hv : Unparted v) (h : WordAlike v w)
    (hfront : FrontAlike rest rest') : Ends w rest' := by
  obtain ⟨c, cs, rfl, hc⟩ := hends
  cases hfront with
  | @cons _ c' _ cs' hdigit hsame hletters =>
  refine ⟨c', cs', rfl, ?_⟩
  rcases hc with hc | hsplit
  · exact Or.inl (hsame (Or.inl hc) ▸ hc)
  refine Or.inr ?_
  obtain ⟨init, last, rfl⟩ := (List.eq_nil_or_concat v).resolve_left hv.nonempty
  rw [List.concat_eq_append] at *
  by_cases hlast : last.isDigit = true
  · have hdigits := hv.digits hlast
    obtain rfl := h.eq_of_digits hv.nonempty hdigits
    have hcd : c.isDigit = false := by
      by_contra hd
      simp [splitsBefore, ofParts, hlast, hd] at hsplit
    rw [splitsBefore_letter hv.nonempty hdigits hcd] at hsplit
    rw [splitsBefore_letter hv.nonempty hdigits (hdigit.trans hcd), hletters _ hv.nonempty hdigits,
      hsplit]
  · obtain ⟨init', last', rfl, hlast'⟩ := h.concat
    rw [Bool.not_eq_true] at hlast
    refine splitsBefore_digit (hlast'.trans hlast) (hdigit.trans ?_)
    by_contra hd
    simp [splitsBefore, ofParts, hlast, hd] at hsplit

/-- Texts that start with the same word, said in two ways, start alike. -/
lemma WordAlike.front (h : WordAlike v w) (hv : Unparted v) (hends : Ends v rest)
    (hfront : FrontAlike rest rest') : FrontAlike (v ++ rest) (w ++ rest') := by
  have hw := h.unparted hv
  have hends' := hends.respelled hv h hfront
  have hletters := takeWhile_alphabetic hv hends
  have hletters' := takeWhile_alphabetic hw hends'
  obtain ⟨c, v, rfl⟩ := List.exists_cons_of_ne_nil hv.nonempty
  obtain ⟨c', w, rfl, hdigit⟩ := h.cons
  refine .cons hdigit (fun hb => ?_) fun ds hne hds => ?_
  · rw [hv.unbroken c List.mem_cons_self, hw.unbroken c' List.mem_cons_self] at hb
    rcases hb with ⟨⟨⟩⟩ | ⟨⟨⟩⟩
  · have hcompound := h.compound hne hds
    rwa [← hletters, ← hletters'] at hcompound

/-! ### Tokens -/

lemma ofWord?_congr (h : CaseAlike v w) :
    Keyword.ofWord? (.ofList v) = Keyword.ofWord? (.ofList w) := by
  have hbare : (Keyword.bare (.ofList v)).toLower = (Keyword.bare (.ofList w)).toLower := by
    rw [CaseAlike.toLower_eq]
    have hat : ¬ '@'.isAlpha = true := by decide
    unfold Keyword.bare
    split
    · rename_i cs hcs
      rw [String.toList_ofList] at hcs
      subst hcs
      obtain ⟨d, ds, rfl, hd, hds⟩ := CaseAlike.cons_iff.1 h
      obtain rfl := eq_of_toLower_eq hat hd
      simpa using hds
    · rename_i hv
      split
      · rename_i cs hcs
        rw [String.toList_ofList] at hcs
        subst hcs
        obtain ⟨d, ds, rfl, hd, -⟩ := CaseAlike.cons_iff.1 h.symm
        obtain rfl := eq_of_toLower_eq hat hd
        exact absurd (String.toList_ofList) (hv ds)
      · simpa using h
  rw [Keyword.ofWord?, Keyword.ofWord?, hbare]

lemma text_ofWord (w : String) : (ofWord D w 0 0).text = w := by
  unfold ofWord
  split <;> rfl

lemma ofWord_of_keyword {q : Keyword} {w : String} (h : Keyword.ofWord? w = some q) :
    ofWord D w 0 0 = ofText (.keyword q) w 0 0 := by
  rw [ofWord, classify_of_wordKind (Keyword.wordKind_eq h)]

lemma kind_ofWord {w : String} (h : Keyword.ofWord? w = none) :
    (∀ q, (ofWord D w 0 0).kind ≠ .keyword q) ∧ (ofWord D w 0 0).kind ≠ .endOfInput := by
  refine ⟨fun q hq => ?_, ofWord_kind_ne rfl (by decide)⟩
  rw [ofWord?_of_kind hq] at h
  cases h

lemma keyword?_eq_none {t : Token} (h : ∀ q, t.kind ≠ .keyword q) : t.keyword? = none := by
  unfold keyword?
  split
  · exact absurd ‹_› (h _)
  · rfl

lemma odd_ofWord {w : String} (hslash : '/' ∈ w.toList) : (ofWord D w 0 0).Odd := by
  unfold ofWord
  split
  · rename_i k hk
    exact Or.inl ((wordKind_or_zone hk).resolve_left fun h => slash_notMem_of_wordKind h hslash).1
  · exact Or.inr rfl

lemma alike_ofWord (h : WordAlike v w) :
    (ofWord D (.ofList v) 0 0).Alike false (ofWord D (.ofList w) 0 0) := by
  -- two spellings of one keyword, or one word in letters of either case
  cases h with
  | keyword hv hw =>
    rw [ofWord_of_keyword hv, ofWord_of_keyword hw]
    exact ⟨Or.inl ⟨rfl, rfl⟩, rfl, by rintro ⟨⟩, by rintro ⟨⟩⟩
  | letters h =>
    cases hv : Keyword.ofWord? (.ofList v) with
    | some q =>
      have hw := ofWord?_congr h ▸ hv
      rw [ofWord_of_keyword hv, ofWord_of_keyword hw]
      exact ⟨Or.inl ⟨rfl, rfl⟩, rfl, by rintro ⟨⟩, by rintro ⟨⟩⟩
    | none =>
      have hw := ofWord?_congr h ▸ hv
      have htext : (String.ofList v).toLower = (String.ofList w).toLower := by
        rw [CaseAlike.toLower_eq, String.toList_ofList, String.toList_ofList]
        exact h
      refine ⟨?_, ?_, fun _ => by rw [text_ofWord, text_ofWord, htext], by rintro ⟨⟩⟩
      -- a slash has no case, so both name a zone or neither does
      · have hmem : '/' ∈ (String.ofList v).toList ↔ '/' ∈ (String.ofList w).toList :=
          (CaseAlike.toLower_eq.1 htext).mem_iff (by decide)
        by_cases hslash : '/' ∈ (String.ofList v).toList
        · exact Or.inr ⟨odd_ofWord hslash, odd_ofWord (hmem.1 hslash)⟩
        · refine Or.inl ?_
          rw [ofWord, ofWord, classify_eq, classify_eq, if_neg fun hz => hslash hz.1,
            if_neg fun hz => hslash (hmem.2 hz.1), wordKind_congr htext hv hw]
          split <;> exact ⟨rfl, rfl⟩
      · rw [keyword?_eq_none (kind_ofWord hv).1, keyword?_eq_none (kind_ofWord hw).1]

lemma wordAlike_of_says (h : (ofWord D (.ofList v) 0 0).Says false w) : WordAlike v w := by
  cases hv : Keyword.ofWord? (.ofList v) with
  | some q =>
    rw [ofWord_of_keyword hv] at h
    refine .keyword hv ?_
    rw [Keyword.ofWord?, show _ = _ from h]
    exact hv
  | none =>
    obtain ⟨hkeyword, hend⟩ := kind_ofWord hv
    have horigin : (ofWord D (.ofList v) 0 0).origin = v := by
      rw [origin_of_ne hend, text_ofWord, String.toList_ofList]
    unfold Says at h
    rw [horigin] at h
    split at h
    · exact absurd ‹_› (hkeyword _)
    · exact .letters h
    · exact .letters h

lemma ofWord?_of_says {zoned : Bool} {q : Keyword} (hv : Keyword.ofWord? (.ofList v) = some q)
    (h : (ofText (.keyword q) (.ofList v) 0 0).Says zoned w) :
    Keyword.ofWord? (.ofList w) = some q := by
  rw [Keyword.ofWord?, show _ = _ from h]
  exact hv

lemma ofZone_of_keyword {q : Keyword} {w : String} (h : Keyword.ofWord? w = some q) :
    ofZone D w = ofText (.keyword q) w 0 0 := by
  rw [ofZone, Keyword.isRuleWord_of_ofWord? h]
  exact ofWord_of_keyword h

lemma ofZone_of_not_keyword {w : String} (h : Keyword.ofWord? w = none) :
    ofZone D w = ofText .zoneId w 0 0 := by
  rw [ofZone, Keyword.isRuleWord_eq_false_iff.2 h]
  rfl

lemma after_eq (t : Token) :
    Mode.after t.kind = if t.keyword? = some .zone then .marked else .plain := by
  unfold Mode.after keyword?
  cases t.kind <;> simp

lemma zoned_after_eq (t : Token) : (Mode.after t.kind).zoned = t.expects false := by
  rw [Mode.zoned_after, expects]
  cases t.kind <;> simp [Bool.beq_eq_decide_eq]

lemma zoned_after_keyword (q : Keyword) (w : String) :
    (Mode.after (.keyword q)).zoned = (ofText (.keyword q) w 0 0).bare.expects true := by
  rw [show Kind.keyword q = (ofText (.keyword q) w 0 0).kind from rfl,
    zoned_after_eq (ofText (.keyword q) w 0 0)]
  rfl

lemma alike_bare {zoned : Bool} {t u : Token} (h : t.Alike zoned u) : t.bare.Alike zoned u.bare :=
  ⟨h.kind, h.keyword, h.text, h.zone⟩

lemma alike_refl (zoned : Bool) (t : Token) : t.Alike zoned t :=
  ⟨Or.inl ⟨rfl, rfl⟩, rfl, fun _ => rfl, fun _ _ => ⟨rfl, rfl, rfl⟩⟩

lemma exists_sign (d : Nat) {c : Char} (hc : Text.isBlank c = false) :
    ∃ t : Token, ((ofParts [] d).addBreak c).done.map bare = [t] ∧ t.origin = [c]
      ∧ t.keyword? = none
      ∧ ¬ t.Odd ∧ t.kind ≠ .blank := by
  have hkinds : ∀ kind ∈ signKinds, (ofText kind "" 0 0).keyword? = none ∧ kind ≠ .zoneId
    ∧ kind ≠ .unknown
      ∧ kind ≠ .blank := by decide
  rcases addBreak_cases hc with ⟨kind, text, hkind, horigin, h⟩ | ⟨rfl, h⟩ | ⟨rfl, h⟩
  · obtain ⟨hkeyword, hzone, hunknown, hblank⟩ := hkinds kind hkind
    rw [h]
    exact ⟨_, rfl, horigin, hkeyword, not_or.2 ⟨hzone, hunknown⟩, hblank⟩
  · rw [h]
    exact ⟨_, rfl, by simp [origin, bare, ofText], rfl, Or.rec Kind.noConfusion Kind.noConfusion,
      Kind.noConfusion⟩
  · rw [h]
    unfold Scan.close
    split <;> exact ⟨_, rfl, by simp [origin, bare, ofText, Token.withFault], rfl,
      Or.rec Kind.noConfusion Kind.noConfusion, Kind.noConfusion⟩

lemma Divided.head_kind (h : Divided D .plain d cs ts)
    (hcs : ∃ x xs, cs = x :: xs ∧ Mode.zone.breaks x = true) :
    ∀ v ∈ ts.head?, v.kind = .blank ∨ v.kind = .endOfInput := by
  obtain ⟨x, xs, hparts, hx⟩ := hcs
  cases h with
  | nil => cases hparts
  | @word _ w rest _ hw =>
    obtain ⟨c, w, rfl⟩ := List.exists_cons_of_ne_nil hw.nonempty
    obtain rfl := (List.cons.inj hparts).1
    have := hw.unbroken c List.mem_cons_self
    rw [Mode.isBreaking_of_breaks hx] at this
    cases this
  | zone hm => cases hm
  | blank =>
    rintro _ ⟨⟩
    exact Or.inl rfl
  | sign _ hblank =>
    obtain rfl := (List.cons.inj hparts).1
    rw [Mode.breaks, hblank, Bool.false_or, decide_eq_true_eq] at hx
    subst hx
    rintro _ ⟨⟩
    exact Or.inr rfl

lemma eq_of_says {zoned : Bool} {t : Token} (h : t.Says zoned cs') (horigin : t.origin = cs)
    (hcs : ∀ c ∈ cs, isBreaking c = true) (hkeyword : t.keyword? = none)
    (hzone : t.kind ≠ .zoneId) :
    cs = cs' := by
  have hcase : CaseAlike cs cs' := by
    unfold Says at h
    split at h
    · rename_i q hq
      simp [keyword?, hq] at hkeyword
    · exact absurd ‹_› hzone
    · rwa [horigin] at h
  exact hcase.eq_of_fixed fun c hc d hd => eq_of_toLower_eq (not_isAlpha_of_isBreaking (hcs c hc))
    hd

lemma expects_eq_self {zoned : Bool} {t : Token} (hkeyword : t.keyword? = none)
    (hzone : t.kind ≠ .zoneId) :
    t.expects zoned = zoned := by
  unfold expects
  split
  · rename_i q hq
    simp [keyword?, hq] at hkeyword
  · exact absurd ‹_› hzone
  · rfl

/-! #### Pieces said another way -/

/-- The second text has pieces whose tokens are alike to those of the first. -/
def DividedAs (D : Zone.Database) (m : Mode) (d : Nat) (cs : List Char) (ts : List Token)
    (cs' : List Char) : Prop :=
  ∃ us, Divided D m d cs' us ∧ AlikeFrom m.zoned ts us ∧ FrontAlike cs cs'

lemma DividedAs.word (hw : Unparted w) (hends : Ends w rest) {w' : List Char}
    (hword : WordAlike w w')
    (h : DividedAs D (.after (ofWord D (.ofList w) 0 0).kind) d rest ts rest') :
    DividedAs D .plain d (w ++ rest) ((ofWord D (.ofList w) 0 0).bare :: ts) (w' ++ rest') := by
  have halike := alike_ofWord (D := D) hword
  obtain ⟨us, hus, hts, hfront⟩ := h
  rw [after_eq, halike.keyword, ← after_eq] at hus
  refine ⟨_, .word (hword.unparted hw) (hends.respelled hw hword hfront) hus,
    .cons (alike_bare halike) (fun h => ?_) (zoned_after_eq _ ▸ hts), hword.front hw hends hfront⟩
  cases h

lemma FrontAlike.zone_ends (h : FrontAlike rest rest')
    (hends : ∃ x xs, rest = x :: xs ∧ Mode.zone.breaks x = true) :
    ∃ y ys, rest' = y :: ys ∧ Mode.zone.breaks y = true := by
  obtain ⟨x, xs, rfl, hx⟩ := hends
  cases h with
  | @cons _ y _ ys _ hsame => exact ⟨y, ys, rfl, hsame (Or.inl (Mode.isBreaking_of_breaks hx)) ▸ hx⟩

lemma DividedAs.zoneKeyword (hm : m.zoned = true) {q : Keyword}
    (hword : Keyword.ofWord? (.ofList w) = some q)
    {w' : List Char} (hw' : Keyword.ofWord? (.ofList w') = some q)
    (hends : ∃ x xs, rest = x :: xs ∧ Mode.zone.breaks x = true)
    (h : DividedAs D (.after (.keyword q)) d rest ts rest') :
    DividedAs D m d (w ++ rest) ((ofText (.keyword q) (.ofList w) 0 0).bare :: ts)
      (w' ++ rest') := by
  obtain ⟨us, hus, hts, hfront⟩ := h
  have hunparted := unparted_of_keyword hw'
  obtain ⟨c', w', rfl⟩ := List.exists_cons_of_ne_nil hunparted.nonempty
  have hunbroken (m : Mode) (y : Char) (hy : y ∈ c' :: w') : m.breaks y = false :=
    Mode.not_breaks (hunparted.unbroken y hy)
  have hzone :=
    Divided.zone hm (hunbroken m c' List.mem_cons_self) (hunbroken .zone) (hfront.zone_ends hends)
    (by rw [ofZone_of_keyword hw']; exact hus)
  rw [ofZone_of_keyword hw'] at hzone
  have halike :
      (ofText (.keyword q) (.ofList w) 0 0).Alike true
      (ofText (.keyword q) (.ofList (c' :: w')) 0 0) :=
    ⟨Or.inl ⟨rfl, rfl⟩, rfl, by rintro ⟨⟩, by rintro - ⟨⟩⟩
  obtain ⟨x, xs, hx, hbreaks⟩ := hends
  refine ⟨_, hzone, ?_, (WordAlike.keyword hword hw').front (unparted_of_keyword hword)
    ⟨x, xs, hx, Or.inl (Mode.isBreaking_of_breaks hbreaks)⟩ hfront⟩
  rw [hm]
  exact .cons (alike_bare halike) (fun _ => Kind.noConfusion) (zoned_after_keyword q _ ▸ hts)

/-- The name of a zone is the same in both texts. -/
lemma DividedAs.zoneName (hm : m.zoned = true) {c : Char} (hc : m.breaks c = false)
    (hw : ∀ x ∈ c :: w, Mode.zone.breaks x = false)
    (hword : Keyword.ofWord? (.ofList (c :: w)) = none)
    (hends : ∃ x xs, rest = x :: xs ∧ Mode.zone.breaks x = true)
    (hrest : Divided D .plain d rest ts)
    (h : DividedAs D .plain d rest ts rest') :
    DividedAs D m d (c :: w ++ rest) ((ofText .zoneId (.ofList (c :: w)) 0 0).bare :: ts)
      (c :: w ++ rest') := by
  obtain ⟨us, hus, hts, hfront⟩ := h
  have hzone :=
    Divided.zone hm hc hw (hfront.zone_ends hends) (by rw [ofZone_of_not_keyword hword]; exact hus)
  rw [ofZone_of_not_keyword hword] at hzone
  obtain ⟨y, ys, rfl, hy⟩ := hfront.zone_ends hends
  obtain ⟨x, xs, rfl, hx⟩ := hends
  refine ⟨_, hzone, ?_, .append (List.cons_ne_nil c w) (Mode.isBreaking_of_breaks hx)
    (Mode.isBreaking_of_breaks hy)⟩
  rw [hm]
  exact .cons (alike_refl _ _) (fun _ _ => hrest.head_kind ⟨x, xs, rfl, hx⟩) hts

lemma DividedAs.blank (hw : w ≠ []) (hblank : ∀ c ∈ w, Text.isBlank c = true)
    (hends : ∀ c ∈ rest.head?, Text.isBlank c = false) (h : DividedAs D m.settled d rest ts rest') :
    DividedAs D m d (w ++ rest) ((ofText .blank (.ofList w) 0 0).bare :: ts) (w ++ rest') := by
  obtain ⟨us, hus, hts, hfront⟩ := h
  rw [Mode.zoned_settled] at hts
  refine ⟨_, .blank hw hblank ?_ hus, .cons (alike_refl _ _) (fun _ => Kind.noConfusion) hts, ?_⟩
  · cases hfront with
    | nil => exact hends
    | @cons c c' _ _ _ hsame =>
      rintro _ ⟨⟩
      by_cases hb : isBreaking c' = true
      · rw [hsame (Or.inr hb)]
        exact hends c rfl
      · exact isBlank_of_not_breaking (by simpa using hb)
  · obtain ⟨c, w, rfl⟩ := List.exists_cons_of_ne_nil hw
    exact .sign (by rw [isBreaking, hblank c List.mem_cons_self, Bool.true_or]) _ _

lemma DividedAs.sign {c : Char} {t : Token} (hc : m.breaks c = true)
    (hblank : Text.isBlank c = false)
    (ht : ((ofParts [] d).addBreak c).done.map bare = [t]) (hkeyword : t.keyword? = none)
    (hzone : t.kind ≠ .zoneId)
    (h : DividedAs D m.settled ((ofParts [] d).addBreak c).depth rest ts rest') :
    DividedAs D m d (c :: rest) (t :: ts) (c :: rest') := by
  obtain ⟨us, hus, hts, -⟩ := h
  have hdivided := Divided.sign hc hblank hus
  rw [ht, List.singleton_append] at hdivided
  rw [Mode.zoned_settled] at hts
  refine ⟨_, hdivided, .cons (alike_refl _ _) (fun _ h => absurd h hzone) ?_,
    .sign (Mode.isBreaking_of_breaks hc) _ _⟩
  rwa [expects_eq_self hkeyword hzone]

/-- **A text said another way has the same pieces.** -/
theorem Divided.respelled (h : Divided D m d cs ts) (hr : Respells m.zoned ts cs') :
    DividedAs D m d cs ts cs' := by
  -- piece by piece: what each token is respelled as is a piece of the same kind
  induction h generalizing cs' with
  | nil m d =>
    cases hr
    exact ⟨[], .nil m d, .nil _, .nil⟩
  | word hw hends _ ih =>
    cases hr with
    | cons hsays hrest =>
      have hword := wordAlike_of_says hsays
      exact .word hw hends hword (ih (zoned_after_eq _ ▸ hrest))
  | @zone m d c w rest ts hm hc hw hends hdivided ih =>
    cases hr with
    | @cons _ _ _ w' rest' hsays hrest =>
    rw [hm] at hsays hrest
    -- after the keyword of a zone a word keeps its letters, unless it is a keyword
    cases hword : Keyword.ofWord? (.ofList (c :: w)) with
    | some q =>
      rw [ofZone_of_keyword hword] at hsays hrest ih ⊢
      have hw' := ofWord?_of_says hword (show (ofText (.keyword q) _ 0 0).Says true w' from hsays)
      exact .zoneKeyword hm hword hw' hends (ih (zoned_after_keyword q _ ▸ hrest))
    | none =>
      rw [ofZone_of_not_keyword hword] at hsays hrest hdivided ih ⊢
      obtain rfl : w' = c :: w := by simpa [Says, bare, ofText, origin] using hsays
      exact .zoneName hm hc hw hword hends hdivided (ih hrest)
  | @blank m d w rest ts hw hblank hends _ ih =>
    cases hr with
    | @cons _ _ _ w' rest' hsays hrest =>
    -- blanks and signs are spelled one way only
    have hbreaking (c : Char) (hc : c ∈ w) : isBreaking c = true := by
      rw [isBreaking, hblank c hc, Bool.true_or]
    obtain rfl := eq_of_says hsays String.toList_ofList hbreaking rfl Kind.noConfusion
    exact .blank hw hblank hends (ih (by rwa [Mode.zoned_settled]))
  | @sign m d c rest ts hc hblank _ ih =>
    obtain ⟨t, ht, horigin, hkeyword, hodd, -⟩ := exists_sign d hblank
    have hzone : t.kind ≠ .zoneId := fun hk => hodd (Or.inl hk)
    rw [ht, List.singleton_append] at hr ⊢
    cases hr with
    | @cons _ _ _ w' rest' hsays hrest =>
    obtain rfl :=
      eq_of_says hsays horigin (by simpa using Mode.isBreaking_of_breaks hc) hkeyword hzone
    rw [expects_eq_self hkeyword hzone] at hrest
    exact .sign hc hblank ht hkeyword hzone (ih (by rwa [Mode.zoned_settled]))

end Scan

namespace Token

open Scan

variable {D : Zone.Database} {zoned : Bool} {t u : Token} {ts us : List Token} {cs : List Char}

lemma Respells.bare (h : Respells zoned ts cs) : Respells zoned (ts.map Token.bare) cs := by
  induction h with
  | nil => exact .nil _
  | cons h _ ih => exact .cons h ih

lemma AlikeFrom.of_bare (h : AlikeFrom zoned (ts.map Token.bare) (us.map Token.bare)) :
    AlikeFrom zoned ts us := by
  induction ts generalizing zoned us with
  | nil =>
    cases us with
    | nil => exact .nil _
    | cons u us => cases h
  | cons t ts ih =>
    cases us with
    | nil => cases h
    | cons u us =>
      cases h with
      | cons h hnext hrest =>
        refine .cons ⟨h.kind, h.keyword, h.text, h.zone⟩ (fun hz hk v hv => ?_) (ih hrest)
        exact hnext hz hk v.bare (by rw [List.head?_map, hv]; rfl)

/-- **A text said another way has the same tokens**, up to their spelling. -/
theorem alike_scan {a b : String} (h : Respells false (scan D a) (b.toList ++ ['\x00'])) :
    AlikeFrom false (scan D a) (scan D b) := by
  obtain ⟨us, hdivided, hus, -⟩ := (divided_scan D a).respelled h.bare
  rw [← hdivided.scan] at hus
  exact hus.of_bare

lemma Alike.symm (h : t.Alike zoned u) : u.Alike zoned t :=
  ⟨h.kind.imp (And.imp Eq.symm Eq.symm) And.symm, h.keyword.symm,
    fun hu => (h.text (h.keyword.trans hu)).symm,
    fun hz hu => (h.zone hz (h.keyword.trans hu)).imp Eq.symm (And.imp Eq.symm Eq.symm)⟩

lemma expects_eq (zoned : Bool) (t : Token) : t.expects zoned = match t.keyword? with
    | some q => decide (q = .zone)
    | none => zoned && decide (t.kind ≠ .zoneId) := by
  unfold Token.expects keyword?
  cases t.kind <;> simp

lemma Alike.expects (h : t.Alike zoned u) : t.expects zoned = u.expects zoned := by
  rw [expects_eq, expects_eq, ← h.keyword]
  cases ht : t.keyword? with
  | some q => rfl
  | none =>
    cases zoned with
    | false => rfl
    | true => rw [(h.zone rfl ht).1]

lemma Alike.kind_of_not_odd (h : t.Alike zoned u) (ht : ¬ t.Odd) :
    u.kind = t.kind ∧ u.fault = t.fault :=
  (h.kind.resolve_right fun hodd => ht hodd.1).imp Eq.symm Eq.symm

lemma AlikeFrom.symm (h : AlikeFrom zoned ts us) : AlikeFrom zoned us ts := by
  induction h with
  | nil => exact .nil _
  | @cons zoned t u ts us h hnext hrest ih =>
    refine .cons h.symm (fun hz hk v hv => ?_) (h.expects ▸ ih)
    have hu : u.keyword? = none := by simp [keyword?, hk]
    have hkind := (h.zone hz (h.keyword.trans hu)).1.trans hk
    cases hrest with
    | nil => cases hv
    | @cons _ t' u' _ _ h' =>
      obtain rfl : u' = v := by simpa using hv
      have hafter := hnext hz hkind t' rfl
      have hodd : ¬ t'.Odd := by
        rintro (hk' | hk') <;> rw [hk'] at hafter <;> rcases hafter with ⟨⟨⟩⟩ | ⟨⟨⟩⟩
      rwa [(h'.kind_of_not_odd hodd).1]

end Token

end Recurrence
