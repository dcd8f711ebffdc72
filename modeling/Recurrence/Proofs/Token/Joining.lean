import Recurrence.Proofs.Token.Respelling

/-!
Two texts with a blank between them. The pieces of the first stay as they are when the second
follows, but for the blank; the pieces of the second stay as they are unless a zone is still
awaited, and the brackets that the first leaves open only make more of its closing brackets good.

Main statements: `Divided.before_blank` and `Divided.deeper`.
-/

namespace Recurrence

open Token

/-- The tokens end in a zone keyword for which no zone is named: signs and blanks are all that
follows. In front of the tokens a zone is awaited if `zoned`. -/
def Awaits (zoned : Bool) (ts : List Token) : Prop :=
  ∃ before body, ts = before ++ body ∧ (∀ t ∈ body, t.keyword? = none)
    ∧ (∀ t ∈ body, ∀ c ∈ t.text.toList, Scan.isBreaking c = true)
    ∧ (before = [] ∧ zoned = true ∨ ∃ start k, before = start ++ [k] ∧ k.kind = .keyword .zone)

/-- A token of blanks. -/
structure Token.IsBlank (t : Token) : Prop where
  kind : t.kind = .blank
  fault : t.fault = none
  text : ∀ c ∈ t.text.toList, Text.isBlank c = true

/-- The second list is the first with a blank more at its end. -/
def BlankAdded (ts us : List Token) : Prop :=
  ∃ before blank, us = before ++ [blank] ∧ blank.IsBlank
    ∧ (ts = before ∨ ∃ blank', ts = before ++ [blank'] ∧ blank'.IsBlank)

variable {zoned : Bool} {t : Token} {ts us : List Token}

lemma BlankAdded.cons (h : BlankAdded ts us) (t : Token) : BlankAdded (t :: ts) (t :: us) := by
  obtain ⟨before, blank, rfl, hb, h⟩ := h
  refine ⟨t :: before, blank, rfl, hb, ?_⟩
  rcases h with rfl | ⟨blank', rfl, h'⟩
  · exact Or.inl rfl
  · exact Or.inr ⟨blank', rfl, h'⟩

lemma Awaits.cons_sign (h : Awaits zoned ts) (ht : t.keyword? = none)
    (hc : ∀ c ∈ t.text.toList, Scan.isBreaking c = true) : Awaits zoned (t :: ts) := by
  obtain ⟨before, body, rfl, hbody, hsigns, h⟩ := h
  rcases h with ⟨rfl, hz⟩ | ⟨start, k, rfl, hk⟩
  · exact ⟨[], t :: body, rfl, List.forall_mem_cons.2 ⟨ht, hbody⟩,
      List.forall_mem_cons.2 ⟨hc, hsigns⟩,
      Or.inl ⟨rfl, hz⟩⟩
  · exact ⟨t :: (start ++ [k]), body, rfl, hbody, hsigns, Or.inr ⟨t :: start, k, rfl, hk⟩⟩

lemma Awaits.cons_word (h : Awaits (Mode.after t.kind).zoned ts) : Awaits zoned (t :: ts) := by
  obtain ⟨before, body, rfl, hbody, hsigns, h⟩ := h
  rcases h with ⟨rfl, hz⟩ | ⟨start, k, rfl, hk⟩
  · rw [Mode.zoned_after, beq_iff_eq] at hz
    exact ⟨[t], body, rfl, hbody, hsigns, Or.inr ⟨[], t, rfl, hz⟩⟩
  · exact ⟨t :: (start ++ [k]), body, rfl, hbody, hsigns, Or.inr ⟨t :: start, k, rfl, hk⟩⟩

namespace Scan

variable {D : Zone.Database} {m : Mode} {d d' : Nat} {cs rest w : List Char}

lemma isBlank_ofText (hw : ∀ c ∈ w, Text.isBlank c = true) :
    (ofText .blank (.ofList w) 0 0).bare.IsBlank :=
  ⟨rfl, rfl, by simpa [bare, ofText] using hw⟩

lemma awaits_cons_blank (h : Awaits zoned ts) (hw : ∀ c ∈ w, Text.isBlank c = true) :
    Awaits zoned ((ofText .blank (.ofList w) 0 0).bare :: ts) := by
  refine h.cons_sign rfl fun c hc => ?_
  rw [isBreaking, (isBlank_ofText hw).text c hc, Bool.true_or]

lemma breaks_nul (m : Mode) : m.breaks '\x00' = true := by cases m <;> decide

lemma Divided.eq_nil (h : Divided D m d [] ts) : ts = [] := by
  generalize htext : ([] : List Char) = text at h
  cases h with
  | nil => rfl
  | word hw => exact absurd (List.append_eq_nil_iff.1 htext.symm).1 hw.nonempty
  | zone => cases htext
  | blank hw => exact absurd (List.append_eq_nil_iff.1 htext.symm).1 hw
  | sign => cases htext

lemma Divided.head_not_blank (h : Divided D .plain d cs ts)
    (hts : ∀ t ∈ ts.head?, t.kind ≠ .blank) :
    ∀ c ∈ cs.head?, Text.isBlank c = false := by
  cases h with
  | nil => simp
  | @word _ w _ _ hw =>
    obtain ⟨c, w, rfl⟩ := List.exists_cons_of_ne_nil hw.nonempty
    rintro _ ⟨⟩
    have hc := hw.unbroken c List.mem_cons_self
    rw [isBreaking, Bool.or_eq_false_iff] at hc
    exact hc.1
  | zone hm => cases hm
  | blank => exact absurd rfl (hts _ rfl)
  | sign _ hblank =>
    rintro _ ⟨⟩
    exact hblank

lemma Divided.end_eq (h : Divided D m d ['\x00'] ts) : ∃ e, ts = [e] ∧ e.kind = .endOfInput := by
  generalize htext : ['\x00'] = text at h
  cases h with
  | nil => cases htext
  | @word _ w rest _ hw =>
    obtain ⟨c, w, rfl⟩ := List.exists_cons_of_ne_nil hw.nonempty
    obtain rfl := (List.cons.inj htext).1
    cases hw.unbroken '\x00' List.mem_cons_self
  | @zone _ _ c _ _ _ _ hc =>
    obtain rfl := (List.cons.inj htext).1
    rw [breaks_nul] at hc
    cases hc
  | @blank _ _ w rest _ hw hblank =>
    obtain ⟨c, w, rfl⟩ := List.exists_cons_of_ne_nil hw
    obtain rfl := (List.cons.inj htext).1
    cases hblank '\x00' List.mem_cons_self
  | @sign _ _ c rest ts _ _ hrest =>
    obtain ⟨rfl, rfl⟩ := List.cons.inj htext
    rw [hrest.eq_nil]
    exact ⟨_, rfl, rfl⟩

lemma Ends.before_blank (h : Ends w (cs ++ ['\x00'])) (rest : List Char) :
    Ends w (cs ++ ' ' :: rest) := by
  obtain ⟨c, tail, htail, hc⟩ := h
  cases cs with
  | nil => exact ⟨' ', rest, rfl, Or.inl (by decide)⟩
  | cons c' cs =>
    obtain ⟨rfl, hrest⟩ := List.cons.inj htail
    obtain rfl : tail = cs ++ ['\x00'] := hrest.symm
    have hletters {x : Char} {xs : List Char} (hx : isBreaking x = true) :
        (c' :: (cs ++ x :: xs)).takeWhile Text.isAlphabetic = (c' :: cs).takeWhile
            Text.isAlphabetic :=
      takeWhile_append_of_head (by rintro _ ⟨⟩; exact not_alphabetic_of_isBreaking hx) (c' :: cs)
    refine ⟨c', cs ++ ' ' :: rest, rfl, hc.imp_right fun hsplit => ?_⟩
    unfold splitsBefore at hsplit ⊢
    rw [hletters (show isBreaking '\x00' = true by decide)] at hsplit
    rwa [hletters (show isBreaking ' ' = true by decide)]

lemma kind_ne_of_origin {t : Token} {c : Char} (h : t.origin = [c]) (hc : c ≠ '\x00') :
    t.kind ≠ .endOfInput := by
  intro hk
  rw [origin, if_pos hk] at h
  exact hc (List.cons.inj h).1.symm

lemma ofZone_kind_ne (id : String) : (ofZone D id).kind ≠ .endOfInput := by
  unfold ofZone
  split
  · exact Kind.noConfusion
  · exact ofWord_kind_ne rfl (by decide)

lemma zone_ends_before_blank (h : ∃ c tail, cs ++ ['\x00'] = c :: tail ∧ Mode.zone.breaks c = true)
    (rest : List Char) : ∃ c tail, cs ++ ' ' :: rest = c :: tail ∧ Mode.zone.breaks c = true := by
  cases cs with
  | nil => exact ⟨' ', rest, rfl, by decide⟩
  | cons x cs =>
    obtain ⟨_, _, hx, hbreaks⟩ := h
    obtain rfl := (List.cons.inj hx).1
    exact ⟨x, cs ++ ' ' :: rest, rfl, hbreaks⟩

lemma exists_front {text : List Char} (h : w ++ rest = text ++ ['\x00']) (hw : '\x00' ∉ w) :
    ∃ front, rest = front ++ ['\x00'] ∧ text = w ++ front := by
  rcases List.eq_nil_or_concat rest with rfl | ⟨front, last, rfl⟩
  · rw [List.append_nil] at h
    exact absurd (h ▸ by simp) hw
  · rw [List.concat_eq_append, ← List.append_assoc] at h
    obtain ⟨htext, hlast⟩ := List.append_inj' h rfl
    exact ⟨front, by rw [List.concat_eq_append, hlast], htext.symm⟩

/-- The text `cs` ends with the last of the tokens, and goes on after a blank: its pieces stay, and
what follows the blank is divided as if it stood alone, at the depth and in the mode that the text
leaves. -/
def GoesOn (D : Zone.Database) (m : Mode) (d : Nat) (cs : List Char) (ts : List Token) : Prop :=
  ∃ (m' : Mode) (d' : Nat) (done : List Token) (e : Token), ts = done ++ [e]
    ∧ e.kind = .endOfInput ∧ (∀ t ∈ done, t.kind ≠ .endOfInput)
    ∧ (m'.zoned = true → Awaits m.zoned done)
    ∧ ∀ rest us, (∀ c ∈ rest.head?, Text.isBlank c = false) → Divided D m'.settled d' rest us →
      ∃ done', Divided D m d (cs ++ ' ' :: rest) (done' ++ us) ∧ BlankAdded done done'

lemma awaits_nil (zoned : Bool) (hz : zoned = true) : Awaits zoned [] :=
  ⟨[], [], rfl, by simp, by simp, Or.inl ⟨rfl, hz⟩⟩

lemma GoesOn.nil (m : Mode) (d : Nat) {e : Token} (he : e.kind = .endOfInput) :
    GoesOn D m d [] [e] := by
  refine ⟨m, d, [], e, rfl, he, by simp, awaits_nil _, fun rest us hrest hus => ?_⟩
  have hall : ∀ c ∈ [' '], Text.isBlank c = true := List.forall_mem_singleton.2 (by decide)
  have hdivided : Divided D m d ([' '] ++ rest) ((ofText .blank (.ofList [' ']) 0 0).bare :: us) :=
    .blank (by simp) hall hrest hus
  exact ⟨[_], hdivided, [], _, rfl, isBlank_ofText hall, Or.inl rfl⟩

lemma GoesOn.blank (m : Mode) (d : Nat) (hblank : ∀ c ∈ w, Text.isBlank c = true) {e : Token}
    (he : e.kind = .endOfInput) : GoesOn D m d w [(ofText .blank (.ofList w) 0 0).bare, e] := by
  refine ⟨m, d, [(ofText .blank (.ofList w) 0 0).bare], e, rfl, he, by simp [bare, ofText],
    fun hz => awaits_cons_blank (awaits_nil _ hz) hblank, fun rest us hrest hus => ?_⟩
  have hall : ∀ c ∈ w ++ [' '], Text.isBlank c = true :=
    List.forall_mem_append.2 ⟨hblank, List.forall_mem_singleton.2 (by decide)⟩
  have hdivided := Divided.blank (m := m) (by simp) hall hrest hus
  exact ⟨[(ofText .blank (.ofList (w ++ [' '])) 0 0).bare], by simpa using hdivided, [], _, rfl,
    isBlank_ofText hall, Or.inr ⟨_, rfl, isBlank_ofText hblank⟩⟩

lemma GoesOn.cons {n : Mode} {front : List Char} (h : GoesOn D n d' front ts)
    (ht : t.kind ≠ .endOfInput)
    (hawaits : ∀ done, Awaits n.zoned done → Awaits m.zoned (t :: done))
    (hpiece : ∀ rest us, Divided D n d' (front ++ ' ' :: rest) us →
      Divided D m d (w ++ (front ++ ' ' :: rest)) (t :: us)) : GoesOn D m d (w ++ front)
        (t :: ts) := by
  obtain ⟨m', depth, done, e, rfl, he, hdone, hzone, hgo⟩ := h
  refine ⟨m', depth, t :: done, e, rfl, he, List.forall_mem_cons.2 ⟨ht, hdone⟩,
    fun hz => hawaits _ (hzone hz),
    fun rest us hrest hus => ?_⟩
  obtain ⟨done', hdone', hadded⟩ := hgo rest us hrest hus
  refine ⟨t :: done', ?_, hadded.cons t⟩
  rw [List.append_assoc]
  exact hpiece rest _ hdone'

/-- **A text goes on after a blank.** -/
theorem Divided.before_blank {text : List Char} (h : Divided D m d text ts)
    (htext : text = cs ++ ['\x00'])
    (hcs : '\x00' ∉ cs) : GoesOn D m d cs ts := by
  -- on the pieces of the first text: the end of input is in none of them but the last
  induction h generalizing cs with
  | nil m d => simp at htext
  | @word d w rest ts hw hends _ ih =>
    have hnul : '\x00' ∉ w := fun hmem => by cases hw.unbroken _ hmem
    obtain ⟨front, rfl, rfl⟩ := exists_front htext hnul
    exact (ih rfl fun hmem => hcs (List.mem_append_right _ hmem)).cons
      (ofWord_kind_ne rfl (by decide))
      (fun _ h => Awaits.cons_word (t := (ofWord D (.ofList w) 0 0).bare) h)
      fun rest _ => .word hw (hends.before_blank rest)
  | @zone m d c w rest ts hm hc hw hends hdivided ih =>
    have hnul : '\x00' ∉ c :: w := fun hmem => by cases (breaks_nul .zone).symm.trans (hw _ hmem)
    obtain ⟨front, rfl, rfl⟩ := exists_front htext hnul
    exact (ih rfl fun hmem => hcs (List.mem_append_right _ hmem)).cons (ofZone_kind_ne _)
      (fun _ h => Awaits.cons_word (t := (ofZone D (.ofList (c :: w))).bare) h)
      fun rest _ => .zone hm hc hw (zone_ends_before_blank hends rest)
  | @blank m d w rest ts hw hblank hends hdivided ih =>
    have hnul : '\x00' ∉ w := fun hmem => by cases hblank _ hmem
    obtain ⟨front, rfl, rfl⟩ := exists_front htext hnul
    -- blanks reach up to the end, or another piece is between
    cases front with
    | nil =>
      obtain ⟨e, rfl, he⟩ := hdivided.end_eq
      rw [List.append_nil]
      exact .blank m d hblank he
    | cons x front =>
      have hgo := ih rfl fun hmem => hcs (List.mem_append_right _ hmem)
      refine hgo.cons Kind.noConfusion (fun done h => ?_) fun rest _ => .blank hw hblank hends
      rw [Mode.zoned_settled] at h
      exact awaits_cons_blank h hblank
  | @sign m d c rest ts hc hblank hdivided ih =>
    obtain ⟨t, ht, horigin, hkeyword, -⟩ := exists_sign d hblank
    -- the sign that ends the input is where the second text goes on
    cases cs with
    | nil =>
      obtain ⟨rfl, rfl⟩ := List.cons.inj htext
      rw [hdivided.eq_nil]
      exact .nil m d rfl
    | cons c' front =>
      obtain ⟨rfl, rfl⟩ := List.cons.inj htext
      have hnul : c ≠ '\x00' := by
        rintro rfl
        exact hcs List.mem_cons_self
      have hkind := kind_ne_of_origin horigin hnul
      have htexts : ∀ x ∈ t.text.toList, isBreaking x = true := by
        rw [← origin_of_ne hkind, horigin]
        exact List.forall_mem_singleton.2 (Mode.isBreaking_of_breaks hc)
      rw [ht]
      have hgo := ih rfl fun hmem => hcs (List.mem_cons_of_mem _ hmem)
      refine hgo.cons (w := [c]) hkind (fun done h => ?_) fun rest us hus => ?_
      · rw [Mode.zoned_settled] at h
        exact h.cons_sign hkeyword htexts
      · have hsign := Divided.sign hc hblank hus
        rwa [ht] at hsign

/-! ### Brackets that are open before a text -/

/-- The second token is the first, without its fault perhaps. -/
structure Kept (t u : Token) : Prop where
  kind : u.kind = t.kind
  text : u.text = t.text
  fault : t.fault = none → u.fault = none

lemma Kept.refl (t : Token) : Kept t t := ⟨rfl, rfl, id⟩

lemma close_deeper (hd : d ≤ d') : (ofParts [] d).close.depth ≤ (ofParts [] d').close.depth
    ∧ ∃ t u : Token, (ofParts [] d).close.done.map bare = [t]
    ∧ (ofParts [] d').close.done.map bare = [u]
      ∧ Kept t u := by
  have hdepth (n : Nat) : (ofParts [] n).depth = n := rfl
  unfold Scan.close
  rw [hdepth, hdepth]
  by_cases h : d = 0
  · rw [if_pos h]
    split_ifs
    · exact ⟨hd, _, _, rfl, rfl, .refl _⟩
    · exact ⟨h ▸ Nat.zero_le _, _, _, rfl, rfl, rfl, rfl, fun _ => rfl⟩
  · rw [if_neg h, if_neg (by omega)]
    exact ⟨Nat.sub_le_sub_right hd 1, _, _, rfl, rfl, .refl _⟩

lemma addBreak_deeper (hd : d ≤ d') {c : Char} (hc : Text.isBlank c = false) :
    ((ofParts [] d).addBreak c).depth ≤ ((ofParts [] d').addBreak c).depth
      ∧ ∃ t u : Token, ((ofParts [] d).addBreak c).done.map bare = [t]
        ∧ ((ofParts [] d').addBreak c).done.map bare = [u] ∧ Kept t u := by
  rcases addBreak_cases hc with ⟨kind, text, -, -, h⟩ | ⟨-, h⟩ | ⟨-, h⟩
  · rw [h, h]
    exact ⟨hd, _, _, rfl, rfl, .refl _⟩
  · rw [h, h]
    exact ⟨Nat.succ_le_succ hd, _, _, rfl, rfl, .refl _⟩
  · rw [h, h]
    exact close_deeper hd

/-- **More open brackets in front of a text leave its tokens**, with fewer faults perhaps. -/
theorem Divided.deeper (h : Divided D m d cs ts) (hd : d ≤ d') :
    ∃ us, Divided D m d' cs us ∧ List.Forall₂ Kept ts us := by
  induction h generalizing d' with
  | nil m d => exact ⟨[], .nil m d', .nil⟩
  | word hw hends _ ih =>
    obtain ⟨us, hus, hkept⟩ := ih hd
    exact ⟨_, .word hw hends hus, .cons (.refl _) hkept⟩
  | zone hm hc hw hends _ ih =>
    obtain ⟨us, hus, hkept⟩ := ih hd
    exact ⟨_, .zone hm hc hw hends hus, .cons (.refl _) hkept⟩
  | blank hw hblank hends _ ih =>
    obtain ⟨us, hus, hkept⟩ := ih hd
    exact ⟨_, .blank hw hblank hends hus, .cons (.refl _) hkept⟩
  | @sign m d c rest ts hc hblank _ ih =>
    obtain ⟨hdepth, t, u, ht, hu, htu⟩ := addBreak_deeper hd hblank
    obtain ⟨us, hus, hkept⟩ := ih hdepth
    refine ⟨_, .sign hc hblank hus, ?_⟩
    rw [ht, hu]
    exact .cons htu hkept

end Scan

/-! ### Tokens that are kept -/

lemma sourceText_kept (h : List.Forall₂ Scan.Kept ts us) : sourceText us = sourceText ts := by
  have htexts : us.flatMap (fun t => t.text.toList) = ts.flatMap fun t => t.text.toList := by
    induction h with
    | nil => rfl
    | cons htu _ ih => rw [List.flatMap_cons, List.flatMap_cons, ih, htu.text]
  rw [sourceText, sourceText, htexts]

lemma isValid_kept (h : List.Forall₂ Scan.Kept ts us) (hts : ∀ t ∈ ts, t.fault = none) :
    ∀ u ∈ us, u.fault = none := by
  induction h with
  | nil => exact hts
  | cons htu _ ih =>
    obtain ⟨ht, hts⟩ := List.forall_mem_cons.1 hts
    exact List.forall_mem_cons.2 ⟨htu.fault ht, ih hts⟩

end Recurrence
