import Recurrence.Proofs.Rule.Recasting
import Recurrence.Proofs.Rule.UsedTokens
import Recurrence.Proofs.Rule.ZoneClauses
import Recurrence.Proofs.Token.Joining
import Recurrence.Proofs.Token.Respelling

/-!
Clauses spelled another way. After the name of a zone there are only blanks, so a clause that names
a known zone has the same tokens in every spelling. Every other clause that is read has a use for
all its tokens, so its tokens are the same up to the letter case, and so are its rules.

Main statement: `Rule.ofClause_alike`.
-/

namespace Recurrence

open Token Scan

variable {D : Zone.Database} {zoned : Bool} {t u : Token} {ts us : List Token} {cs : List Char}

/-! ### The texts of tokens -/

/-- The text of a blank is blank, and that of a zone or of what is not known is not. -/
structure Token.Shaped (t : Token) : Prop where
  blank : t.kind = .blank → t.text.toList ≠ [] ∧ ∀ c ∈ t.text.toList, Text.isBlank c = true
  odd : t.Odd → ∃ c ∈ t.text.toList, Text.isBlank c = false

namespace Token.Shaped

lemma of_word {w : List Char} (hkind : t.kind ≠ .blank) (htext : t.text = .ofList w)
    (hw : ∃ c ∈ w, Text.isBlank c = false) : t.Shaped :=
  ⟨fun hk => absurd hk hkind, fun _ => by rwa [htext, String.toList_ofList]⟩

lemma of_not_odd (hodd : ¬ t.Odd) (hkind : t.kind ≠ .blank) : t.Shaped :=
  ⟨fun hk => absurd hk hkind, fun h => absurd h hodd⟩

lemma not_odd (h : t.Shaped) (hblank : ∀ c ∈ t.text.toList, Text.isBlank c = true) : ¬ t.Odd := by
  intro hodd
  obtain ⟨c, hc, hletter⟩ := h.odd hodd
  rw [hblank c hc] at hletter
  cases hletter

end Token.Shaped

lemma Scan.Divided.shaped {m : Mode} {d : Nat} (h : Divided D m d cs ts) : ∀ t ∈ ts, t.Shaped := by
  -- no word is a blank, whether a zone is awaited or not
  have ofWord_ne (w : String) : (ofWord D w 0 0).kind ≠ .blank := ofWord_kind_ne rfl (by decide)
  have ofZone_ne (w : String) : (ofZone D w).kind ≠ .blank ∧ (ofZone D w).text = w := by
    cases hw : Keyword.ofWord? w with
    | some q =>
      rw [ofZone_of_keyword hw]
      exact ⟨Kind.noConfusion, rfl⟩
    | none =>
      rw [ofZone_of_not_keyword hw]
      exact ⟨Kind.noConfusion, rfl⟩
  -- piece by piece: a piece that is not blank has a character that is not
  induction h with
  | nil => exact List.forall_mem_nil _
  | @word d w rest ts hw _ _ ih =>
    obtain ⟨c, w, rfl⟩ := List.exists_cons_of_ne_nil hw.nonempty
    exact List.forall_mem_cons.2 ⟨.of_word (ofWord_ne _) (text_ofWord _)
      ⟨c, List.mem_cons_self, isBlank_of_not_breaking (hw.unbroken c List.mem_cons_self)⟩, ih⟩
  | @zone m d c w rest ts _ _ hw _ _ ih =>
    have hc := hw c List.mem_cons_self
    rw [Mode.breaks, Bool.or_eq_false_iff] at hc
    exact List.forall_mem_cons.2
      ⟨.of_word (ofZone_ne _).1 (ofZone_ne _).2 ⟨c, List.mem_cons_self, hc.1⟩, ih⟩
  | @blank m d w rest ts hw hblank _ _ ih =>
    refine List.forall_mem_cons.2 ⟨⟨fun _ => ?_, Or.rec Kind.noConfusion Kind.noConfusion⟩, ih⟩
    show (String.ofList w).toList ≠ [] ∧ ∀ c ∈ (String.ofList w).toList, _
    rw [String.toList_ofList]
    exact ⟨hw, hblank⟩
  | @sign m d c rest ts _ hblank _ ih =>
    obtain ⟨t, ht, -, -, hodd, hkind⟩ := exists_sign d hblank
    rw [ht]
    exact List.forall_mem_cons.2 ⟨.of_not_odd hodd hkind, ih⟩

/-- The tokens of a text have the texts that go with their kinds. -/
theorem shaped_scan (D : Zone.Database) (text : String) :
    ∀ t ∈ Token.scan D text, t.Shaped := fun t ht =>
  have h := (divided_scan D text).shaped t.bare (List.mem_map_of_mem ht)
  ⟨h.blank, h.odd⟩

/-! ### Zones -/

lemma Text.mem_trimChars_between {xs ys : List Char} (c : Char) (hx : ∃ x ∈ xs, isBlank x = false)
    (hy : ∃ y ∈ ys, isBlank y = false) : c ∈ trimChars (xs ++ c :: ys) := by
  have hdrop {as : List Char} (ha : ∃ a ∈ as, isBlank a = false) (bs : List Char) :
      (as ++ bs).dropWhile isBlank = as.dropWhile isBlank ++ bs := by
    rw [List.dropWhile_append, if_neg]
    rw [List.isEmpty_iff, List.dropWhile_eq_nil_iff]
    intro hall
    obtain ⟨a, ha, hletter⟩ := ha
    rw [hall a ha] at hletter
    cases hletter
  have hy' : ∃ y ∈ ys.reverse, isBlank y = false := by simpa using hy
  rw [trimChars, hdrop hx, List.reverse_append, List.reverse_cons, List.append_assoc, hdrop hy']
  simp

namespace Token

/-- Tokens are the same up to the first zone, and after that a blank or the end follows. -/
lemma AlikeFrom.zone_cases (h : AlikeFrom true ts us) (hfree : ∀ t ∈ ts, t.keyword? = none) :
    List.Forall₂ Kept ts us ∨ ∃ front z rest front' rest', ts = front ++ z :: rest
      ∧ z.kind = .zoneId
      ∧ us = front' ++ rest' ∧ List.Forall₂ Kept (front ++ [z]) front' ∧ AlikeFrom false rest rest'
      ∧ ∀ v ∈ rest.head?, v.kind = .blank ∨ v.kind = .endOfInput := by
  induction ts generalizing us with
  | nil =>
    cases h
    exact Or.inl .nil
  | cons t ts ih =>
    cases h with
    | @cons _ _ u _ us htu hnext hrest =>
    obtain ⟨ht, hts⟩ := List.forall_mem_cons.1 hfree
    obtain ⟨hkind, htext, hfault⟩ := htu.zone rfl ht
    have hkept : Kept t u := ⟨hkind.symm, htext.symm, fun hf => hfault ▸ hf⟩
    by_cases hz : t.kind = .zoneId
    · rw [show t.expects true = false by rw [expects, hz]] at hrest
      exact Or.inr ⟨[], t, ts, [u], us, rfl, hz, rfl, .cons hkept .nil, hrest, hnext rfl hz⟩
    · rw [expects_eq_self ht hz] at hrest
      rcases ih hrest hts with h | ⟨front, z, rest, front', rest', rfl, hz, rfl, hfront, h⟩
      · exact Or.inl (.cons hkept h)
      · exact Or.inr ⟨t :: front, z, rest, u :: front', rest', rfl, hz, rfl, .cons hkept hfront, h⟩

lemma AlikeFrom.kept_of_blank (h : AlikeFrom zoned ts us) (hshaped : ∀ t ∈ ts, t.Shaped)
    (hfree : ∀ t ∈ ts, t.keyword? = none)
    (hblank : ∀ t ∈ ts, ∀ c ∈ t.text.toList, Text.isBlank c = true) : List.Forall₂ Kept ts us := by
  induction h with
  | nil => exact .nil
  | @cons _ t u ts us htu _ _ ih =>
    obtain ⟨ht, hts⟩ := List.forall_mem_cons.1 hblank
    obtain ⟨hshape, hshapes⟩ := List.forall_mem_cons.1 hshaped
    obtain ⟨hkeyword, hkeywords⟩ := List.forall_mem_cons.1 hfree
    obtain ⟨hkind, hfault⟩ := htu.kind_of_not_odd (hshape.not_odd ht)
    have hcase := CaseAlike.toLower_eq.1 (htu.text hkeyword)
    have htext := hcase.eq_of_fixed fun c hc d hd => eq_of_toLower_eq
      (not_isAlpha_of_isBreaking (by rw [isBreaking, ht c hc, Bool.true_or])) hd
    exact .cons ⟨hkind, (String.toList_inj.1 htext).symm, fun hf => hfault.trans hf⟩
      (ih hshapes hkeywords hts)

/-- **The tokens of the name of a zone are the same in every spelling.** -/
theorem AlikeFrom.kept_of_isName (h : AlikeFrom true ts us) (hshaped : ∀ t ∈ ts, t.Shaped)
    (hfree : ∀ t ∈ ts, t.keyword? = none) (hend : ∀ t ∈ ts, t.kind ≠ .endOfInput)
    (hname : Zone.isName (sourceText ts) = true) : List.Forall₂ Kept ts us := by
  rcases h.zone_cases hfree with h | ⟨front, z, rest, front', rest', rfl, hz, rfl, hfront, hrest,
    hnext⟩
  · exact h
  have hmem {t : Token} (ht : t ∈ rest) : t ∈ front ++ z :: rest :=
    List.mem_append_right _ (List.mem_cons_of_mem _ ht)
  suffices hblank : ∀ t ∈ rest, ∀ c ∈ t.text.toList, Text.isBlank c = true by
    have hkept :=
      hrest.kept_of_blank (fun t ht => hshaped t (hmem ht)) (fun t ht => hfree t (hmem ht)) hblank
    rw [List.append_cons]
    exact List.rel_append hfront hkept
  intro t ht c hc
  by_contra hletter
  -- the blank after the zone would be in its name
  cases rest with
  | nil => cases ht
  | cons b rest =>
    have hb : b.kind = .blank := (hnext b rfl).resolve_right (hend b (hmem List.mem_cons_self))
    obtain ⟨hne, hblanks⟩ := (hshaped b (hmem List.mem_cons_self)).blank hb
    obtain ⟨x, xs, hx⟩ := List.exists_cons_of_ne_nil hne
    have hzone := (hshaped z (by simp)).odd (Or.inl hz)
    have htext : ((front ++ z :: b :: rest).flatMap fun t => t.text.toList)
        = (front.flatMap fun t => t.text.toList) ++ z.text.toList
          ++ x :: (xs ++ rest.flatMap fun t => t.text.toList) := by
      simp [hx]
    have hin : x ∈ (sourceText (front ++ z :: b :: rest)).toList := by
      rw [sourceText, Text.trim, String.toList_ofList, String.toList_ofList, htext]
      refine Text.mem_trimChars_between x ?_ ⟨c, ?_, by simpa using hletter⟩
      · obtain ⟨y, hy, hyb⟩ := hzone
        exact ⟨y, List.mem_append_right _ hy, hyb⟩
      · rcases List.mem_cons.1 ht with rfl | ht
        · exact absurd (hblanks c hc) hletter
        · exact List.mem_append_right _ (List.mem_flatMap.2 ⟨t, ht, hc⟩)
    have hxb := (name_spelling hname).1 x hin
    rw [hblanks x (hx ▸ List.mem_cons_self)] at hxb
    cases hxb

/-! ### Other clauses -/

lemma AlikeFrom.recast (h : AlikeFrom zoned ts us) (hodd : ∀ t ∈ ts, ¬ t.Odd)
    (hfree : ∀ t ∈ ts, t.keyword? = none) :
    us.map (Token.recast Char.toLower) = ts.map (Token.recast Char.toLower)
      ∧ us.map Token.fault = ts.map Token.fault := by
  induction h with
  | nil => exact ⟨rfl, rfl⟩
  | @cons _ t u ts us htu _ _ ih =>
    obtain ⟨ht, hts⟩ := List.forall_mem_cons.1 hodd
    obtain ⟨hkeyword, hkeywords⟩ := List.forall_mem_cons.1 hfree
    obtain ⟨hkind, hfault⟩ := htu.kind_of_not_odd ht
    obtain ⟨hmap, hfaults⟩ := ih hts hkeywords
    have htext : u.text.map Char.toLower = t.text.map Char.toLower := (htu.text hkeyword).symm
    rw [List.map_cons, List.map_cons, List.map_cons, List.map_cons, hmap, hfaults, Token.recast,
      Token.recast, hkind, htext, hfault]
    exact ⟨rfl, rfl⟩

end Token

/-! ### Clauses -/

namespace Clause

/-- The second clause says what the first does. -/
structure Alike (c c' : Clause) : Prop where
  keyword : c'.keyword = c.keyword
  fault : c'.head.fault = c.head.fault
  body : AlikeFrom (c.keyword = .zone) c.body c'.body

/-- What a scan leaves in a clause. -/
structure Scanned (c : Clause) : Prop where
  shaped : ∀ t ∈ c.body, t.Shaped
  free : ∀ t ∈ c.body, t.keyword? = none
  inside : ∀ t ∈ c.body, t.kind ≠ .endOfInput
  genuine : c.keyword ≠ .zone → ∀ t ∈ c.body, t.Genuine

lemma mem_of_split {c : Clause} {t : Token} (hc : c ∈ (split ts).2) (ht : t ∈ c.body) : t ∈ ts := by
  rw [← split_tokens ts]
  exact List.mem_append_right _ (List.mem_flatMap.2 ⟨c, hc, List.mem_cons_of_mem _ ht⟩)

lemma scanned_of_split {D : Zone.Database} {text : String} {c : Clause}
    (hc : c ∈ (split ((Token.scan D text).takeWhile fun t => t.kind ≠ .endOfInput)).2) :
    c.Scanned where
  shaped t ht := shaped_scan D text t ((List.takeWhile_sublist _).mem (mem_of_split hc ht))
  free := (not_keyword_of_split _).2 c hc
  inside _ ht :=
    of_decide_eq_true (List.mem_takeWhile_imp (p := fun t : Token => t.kind ≠ .endOfInput)
    (mem_of_split hc ht))
  genuine := (genuine_of_split_scan hc).2

end Clause

lemma Text.recast_toLower : Text.Recast Char.toLower where
  digit c hc := (eq_of_toLower_eq (not_isAlpha_of_isDigit hc) (toLower_toLower c).symm).symm
  isDigit := isDigit_toLower
  blank := rfl

/-- **A clause that says what another does is read as its rules,** up to the letter case. -/
theorem Rule.ofClause_alike {c c' : Clause} {rules : List Rule} (h : c.Alike c') (hc : c.Scanned)
    (hvalid : ∀ t ∈ c.body, t.fault = none) (hread : ofClause c = .ok rules)
    (hm : ∀ r ∈ rules, r.Meaningful) : (∀ t ∈ c'.body, t.fault = none)
      ∧ ∃ rules', ofClause c' = .ok rules'
        ∧ rules'.map (Rule.recast Char.toLower) = rules.map (Rule.recast Char.toLower) := by
  by_cases hz : c.keyword = .zone
  · have hzone {c : Clause} (hz : c.keyword = .zone) : ofClause c = readZone c.body := by
      rw [ofClause, hz]
    rw [hzone hz] at hread
    obtain rfl := zone_of_readZone hread
    have hzoned : (Rule.zone (sourceText c.body)).Meaningful := List.forall_mem_singleton.1 hm
    have hbody : AlikeFrom true c.body c'.body := by simpa [hz] using h.body
    have hkept := hbody.kept_of_isName hc.shaped hc.free hc.inside hzoned.1
    refine ⟨isValid_kept hkept hvalid, [.zone (sourceText c.body)], ?_, rfl⟩
    rw [hzone (h.keyword.trans hz), readZone, sourceText_kept hkept]
    exact hread
  · have husable : ∀ t ∈ c.body, t.Usable :=
      fun t ht => ⟨hc.genuine hz t ht, hvalid t ht, hc.free t ht⟩
    obtain ⟨hbody, hfaults⟩ := h.body.recast (not_odd_of_ofClause hz husable hread hm) hc.free
    refine ⟨fun t ht => ?_, ofClause_of_recast Text.recast_toLower toLower_toLower hz h.keyword
      hbody hread⟩
    obtain ⟨u, hu, hut⟩ := List.mem_map.1 (hfaults ▸ List.mem_map_of_mem ht)
    exact hut ▸ hvalid u hu

end Recurrence
