import Recurrence.Proofs.Rule.Anchors
import Recurrence.Proofs.Rule.Lists
import Recurrence.Proofs.Rule.Meaningful

/-!
Rules, read back from their canonical text. What a rule fixes can be said unless a phrase has no
place for it: several values that make no phrase, an edge of the year in front of a day, a year with
zeros in front. Every other rule that stands with its fellows is read back as it was.

Main statement: `Rule.Formed.restored`.
-/

namespace Recurrence

open Token Scan

variable {text : String} {ls : List Lexeme} {u : TimeUnit} {vs : Values} {r : Range}

/-! ### Rules that can be written -/

def Text.isPadded (text : String) : Bool := Text.isNumeral text && Text.dropZeros text ≠ text

/-- Whether canonical text says the values. One value it does, but for the zeros in front of a
number; several have to make a phrase, in which no bare edge for the month runs into the number of a
day. -/
def Values.isWritable (vs : Values) : Bool :=
  match vs with
  | [(_, text)] => !Text.isPadded text
  | _ => (Canonical.phrase vs).isSome && !vs.edgeBeforeDay

def Rule.isWritable (r : Rule) : Bool := r.values.all Values.isWritable

lemma Text.isPadded_toString (n : Nat) : Text.isPadded (toString n) = false := by
  rw [isPadded, dropZeros_toString]
  simp

lemma Sole.not_isPadded (h : Sole u text) : Text.isPadded text = false := by
  have hword (hnumeral : Text.isNumeral text = false) : Text.isPadded text = false := by
    rw [Text.isPadded, hnumeral, Bool.false_and]
  cases h with
  | number _ n => exact Text.isPadded_toString n
  | month h | weekday h =>
    refine hword (Bool.eq_false_iff.2 ?_)
    rw [Ne, isNumeral_iff_of_wordKind h]
    rintro ⟨⟩
  | special _ h _ => exact hword h.not_numeral

/-! ### Values -/

namespace Values

lemma Composite.isWritable_eq (h : vs.Composite) :
    vs.isWritable = ((Canonical.phrase vs).isSome && !vs.edgeBeforeDay) := by
  unfold isWritable
  split
  · exact absurd h.several (by simp)
  · rfl

/-- Values that can be written are read back from their canonical text. -/
theorem Formed.readsBack (h : vs.Formed) (hm : vs.Meaningful) (hw : vs.isWritable = true) :
    ReadsBack (fun _ => True) (Canonical.values vs) vs := by
  rcases h with ⟨u, text, rfl, h⟩ | h
  · exact h.readsBack h.ne_timeZone
  · rw [h.isWritable_eq, Bool.and_eq_true, Bool.not_eq_true'] at hw
    exact h.readsBack hm hw.1 hw.2

lemma Same.eq_singleton (h : vs.Same [(u, text)]) : vs = [(u, text)] :=
  List.perm_singleton.1 (h.perm (by simp))

end Values

lemma ReadsBack.mono {defaults defaults' : Option TimeUnit → Prop}
    (h : ReadsBack defaults text vs) (hd : ∀ d, defaults' d → defaults d) :
    ReadsBack defaults' text vs := by
  obtain ⟨ls, hls, hread⟩ := h
  exact ⟨ls, hls, fun ts hts default h => hread ts hts default (hd default h)⟩

lemma Range.Formed.ofSides_eq (h : r.Formed) : ofSides r.starts r.stops = r
    ∧ r.starts.Formed ∧ r.stops.Formed ∧ r.starts.units = r.stops.units := by
  obtain ⟨starts, stops, hs, ht, hunits, rfl⟩ := h
  have hstarts := same_starts hs.nodup hunits hs.zone ht.zone
  have hstops := same_stops hs.nodup hunits hs.zone ht.zone
  exact ⟨ofSides_congr hstarts hstops hs.nodup, hs.of_same hstarts, ht.of_same hstops,
    (hstarts.units_eq.trans hunits).trans hstops.units_eq.symm⟩

/-! ### Clauses -/

def Lexeme.InBody (l : Lexeme) : Prop := (∀ k, l.kind ≠ .keyword k) ∧ l.kind ≠ .endOfInput

lemma Lexeme.isInner_kind {l : Lexeme} (h : l.isInner = true) : l.InBody ∧ l.kind ≠ .comma
    ∧ l.kind ≠ .openBracket ∧ l.kind ≠ .closeBracket := by
  obtain ⟨kind, text⟩ := l
  cases kind <;> first | (simp [InBody]; done) | cases h

lemma Item.inBody (h : Item text ls) : ∀ l ∈ ls, l.InBody :=
  fun l hl => (Lexeme.isInner_kind (h.inner l hl)).1

lemma mem_itemLexemes {lss : List (List Lexeme)} {l : Lexeme} (h : l ∈ itemLexemes lss) :
    (∃ ls ∈ lss, l ∈ ls) ∨ l = .comma ∨ l = .blank := by
  induction lss with
  | nil => cases h
  | cons ls lss ih =>
    cases lss with
    | nil => exact Or.inl ⟨ls, List.mem_cons_self, h⟩
    | cons more lss =>
      rw [itemLexemes] at h
      rcases List.mem_append.1 h with h | h
      · exact Or.inl ⟨ls, List.mem_cons_self, h⟩
      · rcases List.mem_cons.1 h with rfl | h
        · exact Or.inr (Or.inl rfl)
        rcases List.mem_cons.1 h with rfl | h
        · exact Or.inr (Or.inr rfl)
        · rcases ih h with ⟨ls, hls, hl⟩ | h
          · exact Or.inl ⟨ls, List.mem_cons_of_mem _ hls, hl⟩
          · exact Or.inr h

namespace Rule

variable {r : Rule} {k : Keyword} {w : String} {item bs : List Token}

/-- The canonical text of the rule is one clause, and the reading of the clause is as described,
whatever blanks are after it. -/
def SaidAs (r : Rule) (reading : Except Malformed (List Rule) → Prop) : Prop :=
  ∃ k w ls, Reads [' ', '\x00'] r.canonical.toList (⟨.keyword k, w⟩ :: ls) ∧ Closed ls
    ∧ (∀ l ∈ ls, l.InBody) ∧ ∀ head ts bs, Spell ts ls → (∀ t ∈ bs, t.Spells .blank) →
      reading (ofClause ⟨k, head, ts ++ bs⟩)

def Restored (r : Rule) : Prop := r.SaidAs (· = .ok [r])

lemma SaidAs.imp {reading reading' : Except Malformed (List Rule) → Prop} (h : r.SaidAs reading)
    (hr : ∀ x, reading x → reading' x) : r.SaidAs reading' := by
  obtain ⟨k, w, ls, hreads, hclosed, hbody, hread⟩ := h
  exact ⟨k, w, ls, hreads, hclosed, hbody,
    fun head ts bs hts hbs => hr _ (hread head ts bs hts hbs)⟩

variable {reading : Except Malformed (List Rule) → Prop}

/-- A text after a keyword is read as its tokens are. -/
lemma saidAs_of_word (hw : wordKind w = .ok (.keyword k)) (hk : k ≠ .zone) (hne : w ≠ "")
    (htext : r.canonical = w ++ " " ++ text) (hreads : Reads signs text.toList ls)
    (hclosed : Closed ls) (hbody : ∀ l ∈ ls, l.InBody)
    (hread : ∀ head item, Padded item ls → ∀ bs : List Token, (∀ t ∈ bs, t.kind = .blank) →
      reading (ofClause ⟨k, head, item ++ bs⟩)) : r.SaidAs reading := by
  refine ⟨k, w, .blank :: ls, ?_, hclosed.cons _, ?_, ?_⟩
  · have h := (reads_word hne hw (by simpa using hk)).spaced hreads
      (by decide) ⟨_, rfl, by simp⟩
    have hchars : r.canonical.toList = w.toList ++ ' ' :: text.toList := by
      rw [htext]
      simp [String.toList_append]
    rw [hchars]
    exact fun D s hs c hc => h D s hs c ((by decide : [' ', '\x00'] ⊆ signs) hc)
  · exact List.forall_mem_cons.2 ⟨⟨by rintro _ ⟨⟩, by rintro ⟨⟩⟩, hbody⟩
  · intro head ts bs hts hbs
    obtain ⟨line, column, endColumn, us, rfl, hus⟩ := spell_cons hts
    exact hread head _ ⟨[_], us, rfl, List.forall_mem_singleton.2 rfl, hus⟩ bs
      fun t ht => (hbs t ht).kind

lemma hasBracket_eq_false (h : Padded item ls) (hl : ∀ l ∈ ls, l.kind ≠ .openBracket)
    (hbs : ∀ t ∈ bs, t.kind = .blank) : hasBracket (item ++ bs) = false := by
  rw [hasBracket, List.any_eq_false]
  refine List.forall_mem_append.2 ⟨fun t ht => ?_, fun t ht => ?_⟩
  · simpa using h.forall_kind (P := fun k => k ≠ .openBracket) (by decide) hl t ht
  · simp [hbs t ht]

/-! #### Fixed values -/

lemma wordKind_keyword (units : UnitSet) :
    wordKind (Canonical.keyword units) = .ok (.keyword .pick) ∧ Canonical.keyword units ≠ "" := by
  unfold Canonical.keyword
  split
  · exact ⟨wordKind_canonicalWords ("@at", _) (by simp [canonicalWords]), by decide⟩
  split
  · exact ⟨wordKind_canonicalWords ("@on", _) (by simp [canonicalWords]), by decide⟩
  · exact ⟨wordKind_canonicalWords ("@in", _) (by simp [canonicalWords]), by decide⟩

lemma wordKind_between : wordKind "@between" = .ok (.keyword .between) :=
  wordKind_canonicalWords ("@between", _) (by simp [canonicalWords])

lemma wordKind_every : wordKind "@every" = .ok (.keyword .every) :=
  wordKind_canonicalWords ("@every", _) (by simp [canonicalWords])

lemma wordKind_keyword_of_records (records : List Values) :
    wordKind (((records.head?.map Values.units).map Canonical.keyword).getD "@at")
      = .ok (.keyword .pick)
      ∧ ((records.head?.map Values.units).map Canonical.keyword).getD "@at" ≠ "" := by
  cases records with
  | nil => exact ⟨wordKind_canonicalWords ("@at", _) (by simp [canonicalWords]), by decide⟩
  | cons v vs => exact wordKind_keyword v.units

lemma saidAs_equals {text' : String}
    (h : ReadsBack (fun _ => True) (Canonical.single u text) [(u, text')]) :
    (equals u text).SaidAs (· = .ok [equals u text']) := by
  obtain ⟨ls, hls, hread⟩ := h.padded
  obtain ⟨hkey, hne⟩ := wordKind_keyword (UnitSet.single u)
  refine saidAs_of_word hkey (by decide) hne rfl hls.reads hls.closed hls.item.inBody ?_
  intro head item hitem bs hbs
  obtain ⟨ws, hws, hsame⟩ := hread item hitem bs hbs none trivial
  obtain rfl := hsame.eq_singleton
  show readPick (item ++ bs) = _
  rw [readPick, if_neg (by
    rw [hasBracket_eq_false hitem (fun l hl =>
      (Lexeme.isInner_kind (hls.item.inner l hl)).2.2.1) hbs]
    decide)]
  exact Value.bind_eq_ok.2 ⟨_, hws, rfl⟩

/-! #### Bracketed lists -/

lemma significant_item (h : Item text ls) (hi : Padded item ls) : significant item ≠ [] := by
  obtain ⟨as, us, rfl, -, hus⟩ := hi
  obtain ⟨l, hl, hk⟩ := h.first
  obtain ⟨ls, rfl⟩ := List.head?_eq_some_iff.1 hl
  obtain ⟨line, column, endColumn, us, rfl, -⟩ := spell_cons hus
  have htrivia : (l.placed line column endColumn).isTrivia = false := by
    rw [Spells.isTrivia ⟨line, column, endColumn, rfl⟩]
    have hinner := h.inner l List.mem_cons_self
    obtain ⟨kind, text⟩ := l
    cases kind <;> first | rfl | exact absurd rfl hk | cases hinner
  refine List.ne_nil_of_mem (List.mem_filter.2 ⟨List.mem_append_right _ List.mem_cons_self, ?_⟩)
  rw [htrivia]
  rfl

def leadText : Option TimeUnit → String
  | none => ""
  | some u => u.name ++ " "

def lead : Option TimeUnit → List Lexeme
  | none => []
  | some u => [⟨.unit u, u.name⟩, .blank]

lemma readBracketed_padded {named : Option TimeUnit} {lss : List (List Lexeme)} (hne : lss ≠ [])
    (hitems : ∀ ls ∈ lss, ∃ text, Item text ls)
    (h : Padded item (lead named ++ .openBracket :: (itemLexemes lss ++ [.closeBracket])))
    (hbs : ∀ t ∈ bs, t.kind = .blank) :
    ∃ list, readBracketed (item ++ bs) = .ok list ∧ (∀ u, named = some u → list.default = some u)
      ∧ List.Forall₂ Padded list.items lss := by
  -- the tokens: blanks, the unit, a bracket, the items, a bracket
  obtain ⟨as, _, rfl, has, hus⟩ := h
  obtain ⟨fs, _, rfl, hfs, h₁⟩ := spell_append hus
  obtain ⟨line, column, endColumn, _, rfl, h₂⟩ := spell_cons h₁
  obtain ⟨inner, _, rfl, hinner, h₃⟩ := spell_append h₂
  obtain ⟨line', column', endColumn', rfl⟩ := spell_singleton h₃
  have hkinds : ∀ ls ∈ lss, ∀ l ∈ ls, l.InBody ∧ l.kind ≠ .comma ∧ l.kind ≠ .openBracket
      ∧ l.kind ≠ .closeBracket := by
    intro ls hls l hl
    obtain ⟨text, hitem⟩ := hitems ls hls
    exact Lexeme.isInner_kind (hitem.inner l hl)
  -- commas stand only between items, and no bracket inside
  have hsplit := split_items hne (fun ls hls l hl => (hkinds ls hls l hl).2.1) hinner
  have hbefore : ∀ t ∈ as ++ fs, t.kind ≠ .openBracket := by
    refine List.forall_mem_append.2 ⟨fun t ht => by rw [has t ht]; decide, ?_⟩
    refine hfs.forall_kind (P := fun k => k ≠ .openBracket) ?_
    cases named <;> simp [lead, Lexeme.blank]
  have hinside : ∀ t ∈ inner, t.kind ≠ .openBracket ∧ t.kind ≠ .closeBracket := by
    refine hinner.forall_kind (P := fun k => k ≠ .openBracket ∧ k ≠ .closeBracket) fun l hl => ?_
    rcases mem_itemLexemes hl with ⟨ls, hls, hl⟩ | rfl | rfl
    · exact (hkinds ls hls l hl).2.2
    · decide
    · decide
  have hfull : ∀ item ∈ splitCommas inner, significant item ≠ [] := by
    intro item hi
    obtain ⟨ls, hls, hpadded⟩ := exists_of_forall₂ hsplit.flip hi
    obtain ⟨text, hitem⟩ := hitems ls hls
    exact significant_item hitem hpadded
  -- in front of the bracket is nothing but the unit, if that
  have hnamed : significant (as ++ fs) = [] ∧ named = none
      ∨ ∃ word, significant (as ++ fs) = [word] ∧ word.unit?.isSome = true
          ∧ named = word.unit? := by
    have hblank : significant as = [] :=
      List.filter_eq_nil_iff.2 fun t ht => by simp [isTrivia, has t ht]
    rw [significant, List.filter_append, ← significant, hblank, List.nil_append]
    cases named with
    | none => exact Or.inl ⟨by rw [spell_nil hfs]; rfl, rfl⟩
    | some u =>
      obtain ⟨_, _, _, _, rfl, h₅⟩ := spell_cons hfs
      obtain ⟨_, _, _, rfl⟩ := spell_singleton h₅
      exact Or.inr ⟨_, rfl, rfl, rfl⟩
  have hread := readBracketed_eq (o := Lexeme.openBracket.placed line column endColumn)
    (c := Lexeme.closeBracket.placed line' column' endColumn') rfl rfl hbefore hinside hbs hnamed
      hfull
  refine ⟨_, Eq.trans (congrArg readBracketed ?_) hread, fun u hu => ?_, hsplit⟩
  · simp
  · rw [hu]
    rfl

lemma reads_list {named : Option TimeUnit} (hnamed : named ≠ some .timeZone) {texts : List String}
    {lss : List (List Lexeme)} (hitems : List.Forall₂ Item texts lss) (hne : texts ≠ []) :
    Reads signs (leadText named ++ "[" ++ ", ".intercalate texts ++ "]").toList
      (lead named ++ .openBracket :: (itemLexemes lss ++ [.closeBracket])) := by
  have hlist := (reads_items hitems hne).1.bracket (by decide)
  cases named with
  | none =>
    have hchars : (leadText none ++ "[" ++ ", ".intercalate texts ++ "]").toList
        = '[' :: ((", ".intercalate texts).toList ++ [']']) := by
      simp [leadText, String.toList_append]
    rw [hchars]
    exact hlist
  | some u =>
    have hunit := phrase_unit (u := u) fun hu => hnamed (by rw [hu])
    have hchars : (leadText (some u) ++ "[" ++ ", ".intercalate texts ++ "]").toList
        = u.name.toList ++ ' ' :: '[' :: ((", ".intercalate texts).toList ++ [']']) := by
      simp [leadText, String.toList_append]
    rw [hchars]
    exact hunit.reads.spaced hlist (by decide) hunit.closed

lemma saidAs_of_list (hw : wordKind w = .ok (.keyword k)) (hk : k ≠ .zone) (hne : w ≠ "")
    {named : Option TimeUnit} (hnamed : named ≠ some .timeZone) {texts : List String}
    {lss : List (List Lexeme)} (hitems : List.Forall₂ Item texts lss) (htexts : texts ≠ [])
    (htext : r.canonical = w ++ " " ++ (leadText named ++ "[" ++ ", ".intercalate texts ++ "]"))
    (hread : ∀ head body list, hasBracket body = true → readBracketed body = .ok list →
      (∀ u, named = some u → list.default = some u) → List.Forall₂ Padded list.items lss →
      reading (ofClause ⟨k, head, body⟩)) : r.SaidAs reading := by
  have hlss : lss ≠ [] := by
    rintro rfl
    exact htexts (List.forall₂_nil_right_iff.1 hitems)
  have hitem : ∀ ls ∈ lss, ∃ text, Item text ls := fun ls hls => by
    obtain ⟨text, -, h⟩ := exists_of_forall₂ hitems hls
    exact ⟨text, h⟩
  have hclosed : Closed (lead named ++ .openBracket :: (itemLexemes lss ++ [.closeBracket])) :=
    ((Closed.append ⟨_, rfl, by decide⟩).cons _).append
  -- every token of the list can be in a body
  refine saidAs_of_word hw hk hne htext (reads_list hnamed hitems htexts) hclosed ?_ ?_
  · have hlead : ∀ l ∈ lead named, l.InBody := by
      cases named <;> simp [lead, Lexeme.InBody, Lexeme.blank]
    have hinner : ∀ l ∈ itemLexemes lss, l.InBody := by
      intro l hl
      rcases mem_itemLexemes hl with ⟨ls, hls, hl⟩ | rfl | rfl
      · obtain ⟨text, h⟩ := hitem ls hls
        exact h.inBody l hl
      · simp [Lexeme.InBody, Lexeme.comma]
      · simp [Lexeme.InBody, Lexeme.blank]
    refine List.forall_mem_append.2 ⟨hlead, List.forall_mem_cons.2 ⟨by
      simp [Lexeme.InBody, Lexeme.openBracket], List.forall_mem_append.2 ⟨hinner,
        List.forall_mem_singleton.2 (by simp [Lexeme.InBody, Lexeme.closeBracket])⟩⟩⟩
  · intro head item hi bs hbs
    obtain ⟨list, hlist, hdefault, hpadded⟩ := readBracketed_padded hlss hitem hi hbs
    refine hread head _ list ?_ hlist hdefault hpadded
    -- the body has the opening bracket in it
    obtain ⟨as, us, rfl, -, hus⟩ := hi
    obtain ⟨t, ht, hspells⟩ := exists_of_forall₂ hus
      (b := Lexeme.openBracket) (List.mem_append_right _ List.mem_cons_self)
    exact List.any_eq_true.2 ⟨t, by simp [ht], by rw [hspells.kind]; rfl⟩

lemma exists_items {defaults : Option TimeUnit → Prop} {texts : List String} {records : List Values}
    (h : List.Forall₂ (ReadsBack defaults) texts records) :
    ∃ lss, List.Forall₂ Item texts lss ∧ ∀ items, List.Forall₂ Padded items lss →
      ∀ default, defaults default → List.Forall₂ (fun item v => ∃ ws,
        Value.read item default = .ok ws ∧ ws.Same v) items records := by
  induction h with
  | nil =>
    refine ⟨[], .nil, fun items hi default _ => ?_⟩
    rw [List.forall₂_nil_right_iff.1 hi]
    exact .nil
  | @cons text v texts records htext _ ih =>
    obtain ⟨ls, hls, hread⟩ := htext.padded
    obtain ⟨lss, hlss, hreads⟩ := ih
    refine ⟨ls :: lss, .cons hls.item hlss, fun items hi default hd => ?_⟩
    obtain ⟨item, items, hitem, hrest, rfl⟩ := List.forall₂_cons_right_iff.1 hi
    refine .cons ?_ (hreads items hrest default hd)
    have := hread item hitem [] (by simp) default hd
    rwa [List.append_nil] at this

theorem restored_oneOf {c : Columns} {shape : UnitSet} (hunits : ∀ v ∈ c.records, v.units = shape)
    (hnodup : ∀ v ∈ c.records, (v.map Prod.fst).Nodup) (hof : .ofRecords c.records = c)
    {named : Option TimeUnit} (hnamed : named ≠ some .timeZone) {texts : List String}
    (htexts : texts ≠ [])
    (hlist : Canonical.list c.records = leadText named ++ "[" ++ ", ".intercalate texts ++ "]")
    (hitems : List.Forall₂ (ReadsBack fun d => ∀ u, named = some u → d = some u) texts c.records) :
    (oneOf c).Restored := by
  obtain ⟨lss, hlss, hreads⟩ := exists_items hitems
  obtain ⟨hkey, hne⟩ := wordKind_keyword_of_records c.records
  refine saidAs_of_list hkey (by decide) hne hnamed hlss htexts
    (congrArg (fun text => _ ++ " " ++ text) hlist) ?_
  intro head body list hbracket hread hdefault hpadded
  have hshape : ∀ s, (none : Option UnitSet) = some s → s = shape := by simp
  obtain ⟨records, hrecords, hsame⟩ := readItems_eq
    (hreads list.items hpadded list.default hdefault) hunits hshape
  show readPick body = _
  rw [readPick, if_pos hbracket]
  refine Value.bind_eq_ok.2 ⟨list, hread, Value.bind_eq_ok.2 ⟨records, hrecords, ?_⟩⟩
  rw [foldl_addRecord_congr hsame hnodup]
  exact congrArg (fun c => Except.ok [oneOf c]) hof

/-! #### Ranges -/

theorem restored_within {s : Range} (h : s.Formed)
    (hstart : ReadsBack (fun _ => True) (Canonical.values s.starts) s.starts)
    (hstop : ReadsBack (fun _ => True) (Canonical.values s.stops) s.stops) :
    (within s).Restored := by
  obtain ⟨heq, hstarts, -, hunits⟩ := h.ofSides_eq
  obtain ⟨ls, hls, hread⟩ := readRange_eq hstart hstop hstarts.nodup hunits
  refine saidAs_of_word wordKind_between (by decide) (by decide) rfl hls.reads hls.closed hls.inBody
    ?_
  intro head item hitem bs hbs
  show readBetween (item ++ bs) = _
  rw [readBetween, if_neg (by
    rw [hasBracket_eq_false hitem (fun l hl => (Lexeme.isInner_kind (hls.inner l hl)).2.2.1) hbs]
    decide)]
  exact Value.bind_eq_ok.2 ⟨_, hread item hitem bs hbs none, by rw [heq]; rfl⟩

lemma mapM_eq_ok {ε α β : Type} {f : α → Except ε β} {as : List α} {bs : List β}
    (h : List.Forall₂ (fun a b => f a = .ok b) as bs) : as.mapM f = .ok bs := by
  induction h with
  | nil => rfl
  | cons hab _ ih =>
    rw [List.mapM_cons]
    exact Value.bind_eq_ok.2 ⟨_, hab, Value.bind_eq_ok.2 ⟨_, ih, rfl⟩⟩

lemma exists_forall₂ {α β : Type} {R : α → β → Prop} {as : List α} (h : ∀ a ∈ as, ∃ b, R a b) :
    ∃ bs, List.Forall₂ R as bs := by
  induction as with
  | nil => exact ⟨[], .nil⟩
  | cons a as ih =>
    obtain ⟨ha, has⟩ := List.forall_mem_cons.1 h
    obtain ⟨b, hb⟩ := ha
    obtain ⟨bs, hbs⟩ := ih has
    exact ⟨b :: bs, .cons hb hbs⟩

lemma exists_lexemes {α : Type} {as : List α} {f : α → String} {P : α → List Lexeme → Prop}
    (h : ∀ a ∈ as, ∃ ls, Item (f a) ls ∧ P a ls) :
    ∃ lss, List.Forall₂ Item (as.map f) lss ∧ List.Forall₂ P as lss := by
  obtain ⟨lss, hlss⟩ := exists_forall₂ (R := fun a ls => Item (f a) ls ∧ P a ls) h
  exact ⟨lss, List.forall₂_map_left_iff.2 (hlss.imp fun _ _ h => h.1), hlss.imp fun _ _ h => h.2⟩

lemma forall₂_of_common {α β γ : Type} {R : α → β → Prop} {S : γ → β → Prop} {T : α → γ → Prop}
    {as : List α} {bs : List β} {cs : List γ} (h : ∀ a b c, R a b → S c b → T a c)
    (hab : List.Forall₂ R as bs) (hcb : List.Forall₂ S cs bs) : List.Forall₂ T as cs := by
  induction hab generalizing cs with
  | nil =>
    rw [List.forall₂_nil_right_iff.1 hcb]
    exact .nil
  | cons ha _ ih =>
    obtain ⟨c, cs, hc, hrest, rfl⟩ := List.forall₂_cons_right_iff.1 hcb
    exact .cons (h _ _ _ ha hc) (ih hrest)

theorem restored_withinAny {rs : List Range} (hne : rs ≠ []) (h : ∀ s ∈ rs, s.Formed)
    (hshape : ∀ s ∈ rs, s.units = (rs.head?.map Range.units).getD ∅)
    (hsides : ∀ s ∈ rs, ReadsBack (fun _ => True) (Canonical.values s.starts) s.starts
      ∧ ReadsBack (fun _ => True) (Canonical.values s.stops) s.stops) :
    (withinAny rs).Restored := by
  obtain ⟨lss, hitems, hlss⟩ := exists_lexemes (f := Canonical.range) (P := fun s ls =>
    ∀ item, Padded item ls → ∀ default, readRange default item = .ok s) fun s (hs : s ∈ rs) => by
      obtain ⟨heq, hstarts, -, hunits⟩ := (h s hs).ofSides_eq
      obtain ⟨ls, hls, hread⟩ := readRange_eq (hsides s hs).1 (hsides s hs).2 hstarts.nodup hunits
      refine ⟨ls, hls, fun item hitem default => ?_⟩
      have := hread item hitem [] (by simp) default
      rwa [List.append_nil, heq] at this
  have hnamed : (none : Option TimeUnit) ≠ some .timeZone := by decide
  refine saidAs_of_list wordKind_between (by decide) (by decide) hnamed hitems (by simpa using hne)
    ?_ ?_
  · simp only [canonical, leadText]
    rfl
  intro head body list hbracket hread _ hpadded
  have hranges : list.items.mapM (readRange list.default) = .ok rs :=
    mapM_eq_ok (forall₂_of_common (fun item _ s hi hs => hs item hi list.default) hpadded hlss)
  have hodd : rs.find? (fun s => s.units ≠ (rs.head?.map Range.units).getD ∅) = none := by
    rw [List.find?_eq_none]
    exact fun s hs => by simp [hshape s hs]
  show readBetween body = _
  rw [readBetween, if_pos hbracket]
  refine Value.bind_eq_ok.2 ⟨list, hread, Value.bind_eq_ok.2 ⟨rs, hranges, ?_⟩⟩
  simp only [hodd]
  rfl

/-! #### Cadences -/

lemma wordKind_plural {u : TimeUnit} (hu : u ≠ .timeZone) :
    wordKind (u.name ++ "s") = .ok (.unit u) :=
  (wordKind_units u ((TimeUnit.mem_descending_iff u).2 hu)).2

def anchorText : Option String → String
  | none => ""
  | some text => " AnchoredOn " ++ text

lemma canonical_every (u : TimeUnit) (n : Nat) (anchor : Option String) :
    (every ⟨u, n, anchor⟩).canonical
      = "@every" ++ " " ++ (toString n ++ " " ++ (u.name ++ "s") ++ anchorText anchor) := by
  rw [canonical, show "@every " = "@every" ++ " " from rfl]
  cases anchor <;> simp only [anchorText, String.append_assoc]

lemma readEvery_eq {body main : List Token} {anchor : Option String} {n : Nat} {t t' : Token}
    (hsplit : splitAnchor body = .ok (main, anchor)) (hmain : significant main = [t, t'])
    (ht : t.kind = .number) (hn : Text.word? t.text = some n) (ht' : t'.kind = .unit u) :
    readEvery body = .ok [every ⟨u, n, anchor⟩] := by
  refine Value.bind_eq_ok.2 ⟨(main, anchor), hsplit, ?_⟩
  dsimp only
  have hcount : (significant main).head?.filter (fun t => t.kind = .number) = some t := by
    rw [hmain, List.head?_cons, Option.filter_some, if_pos (by simpa using ht)]
  simp only [hcount]
  have hinterval : interval t = .ok n := by
    rw [interval, hn]
  refine Value.bind_eq_ok.2 ⟨n, hinterval, ?_⟩
  rw [Option.isSome_some, if_pos rfl, hmain, List.tail_cons]
  simp only [ht']
  rfl

def cadence (u : TimeUnit) (n : Nat) : List Lexeme :=
  [.number n, .blank, ⟨.unit u, u.name ++ "s"⟩]

lemma reads_cadence (hu : u ≠ .timeZone) (n : Nat) :
    Reads signs (toString n ++ " " ++ (u.name ++ "s")).toList (cadence u n) := by
  have hne : u.name ++ "s" ≠ "" := by cases u <;> decide
  have h := (Value.reads_number n).spaced (reads_word hne (wordKind_plural hu) (by simp))
    (by decide) ⟨_, rfl, by simp [Lexeme.number]⟩
  have hchars : (toString n ++ " " ++ (u.name ++ "s")).toList
      = (toString n).toList ++ ' ' :: (u.name ++ "s").toList := by
    simp [String.toList_append]
  rw [hchars]
  exact h

lemma not_anchor_of_blank (h : ∀ t ∈ bs, t.kind = .blank) : ∀ t ∈ bs, t.kind ≠ .anchor :=
  fun t ht => by rw [h t ht]; decide

lemma significant_blanks (h : ∀ t ∈ bs, t.kind = .blank) : significant bs = [] :=
  List.filter_eq_nil_iff.2 fun t ht => by simp [isTrivia, h t ht]

lemma significant_append (ts us : List Token) :
    significant (ts ++ us) = significant ts ++ significant us := List.filter_append ..

lemma readEvery_cadence {item body : List Token} {anchor : Option String} {n : Nat}
    (hn : n ≤ Text.wordMax) (hitem : Padded item (cadence u n)) (hbs : ∀ t ∈ bs, t.kind = .blank)
    (h : splitAnchor body = .ok (item ++ bs, anchor)) :
    readEvery body = .ok [every ⟨u, n, anchor⟩] := by
  obtain ⟨as, us, rfl, has, hus⟩ := hitem
  have hmain : ∃ t t', significant us = [t, t'] ∧ t.kind = .number ∧ t.text = toString n
      ∧ t'.kind = .unit u := by
    obtain ⟨_, _, _, _, rfl, h₁⟩ := spell_cons hus
    obtain ⟨_, _, _, _, rfl, h₂⟩ := spell_cons h₁
    obtain ⟨_, _, _, rfl⟩ := spell_singleton h₂
    exact ⟨_, _, rfl, rfl, rfl, rfl⟩
  obtain ⟨t, t', hmain, ht, htext, ht'⟩ := hmain
  refine readEvery_eq h ?_ ht ?_ ht'
  · rw [significant_append, significant_append, significant_blanks has, significant_blanks hbs,
      List.append_nil, List.nil_append, hmain]
  · rw [htext, Text.word?_toString, if_pos hn]

lemma probe_empty (u : TimeUnit) : (RuleSet.probe u "").isValid = false := by
  have hempty : Text.trimChars "".toList = [] := rfl
  have hprobe : RuleSet.probe u "" = .invalid := by
    unfold RuleSet.probe Resolution.ofText
    exact if_pos (Or.inr hempty)
  rw [hprobe]
  rfl

lemma splitAnchor_none {ts : List Token} (h : ∀ t ∈ ts, t.kind ≠ .anchor) :
    splitAnchor ts = .ok (ts, none) := by
  have hdrop : ts.dropWhile (fun t => t.kind ≠ .anchor) = [] := by
    rw [List.dropWhile_eq_nil_iff]
    simpa using h
  simp only [splitAnchor, hdrop]

lemma splitAnchor_eq {before value : List Token} {a : Token}
    (hbefore : ∀ t ∈ before, t.kind ≠ .anchor) (ha : a.kind = .anchor)
    (hvalue : ∀ t ∈ value, t.kind ≠ .anchor) (hne : spelling value ≠ "") :
    splitAnchor (before ++ a :: value) = .ok (before, some (spelling value)) := by
  have hfind : value.find? (fun t => t.kind = .anchor) = none := by
    rw [List.find?_eq_none]
    exact fun t ht => by simpa using hvalue t ht
  unfold splitAnchor
  simp only [dropWhile_kind_ne hbefore ha, hfind, takeWhile_kind_ne hbefore ha, if_neg hne]

lemma cadence_inBody (u : TimeUnit) (n : Nat) : ∀ l ∈ cadence u n, l.InBody := by
  simp [cadence, Lexeme.InBody, Lexeme.number, Lexeme.blank]

lemma closed_cadence (u : TimeUnit) (n : Nat) : Closed (cadence u n) := ⟨_, rfl, by simp⟩

lemma not_anchor_of_cadence {n : Nat} (h : Padded item (cadence u n)) :
    ∀ t ∈ item, t.kind ≠ .anchor := by
  refine h.forall_kind (P := fun k => k ≠ .anchor) (by decide) ?_
  simp [cadence, Lexeme.number, Lexeme.blank]

lemma restored_every_plain {n : Nat} (hunit : u ≠ .timeZone) (hn : n ≤ Text.wordMax) :
    (every ⟨u, n, none⟩).Restored := by
  refine saidAs_of_word wordKind_every (by decide) (by decide) (canonical_every u n none)
    (by simpa [anchorText] using reads_cadence hunit n) (closed_cadence u n) (cadence_inBody u n) ?_
  intro head item hitem bs hbs
  refine readEvery_cadence hn hitem hbs (splitAnchor_none ?_)
  exact List.forall_mem_append.2 ⟨not_anchor_of_cadence hitem, not_anchor_of_blank hbs⟩

def anchoredCadence (u : TimeUnit) (n : Nat) (anchor : List Lexeme) : List Lexeme :=
  cadence u n ++ .blank :: ⟨.anchor, "AnchoredOn"⟩ :: .blank :: anchor

lemma reads_anchoredCadence {n : Nat} {lsa : List Lexeme} (hunit : u ≠ .timeZone)
    (h : Reads signs text.toList lsa) :
    Reads signs (toString n ++ " " ++ (u.name ++ "s") ++ anchorText (some text)).toList
      (anchoredCadence u n lsa) := by
  have hword : wordKind "AnchoredOn" = .ok .anchor :=
    wordKind_canonicalWords ("AnchoredOn", _) (by simp [canonicalWords])
  have hafter := (reads_word (by decide) hword (by simp)).spaced h
    (by decide) ⟨_, rfl, by simp⟩
  have hchars : (toString n ++ " " ++ (u.name ++ "s") ++ anchorText (some text)).toList
      = (toString n ++ " " ++ (u.name ++ "s")).toList
        ++ ' ' :: ("AnchoredOn".toList ++ ' ' :: text.toList) := by
    simp [anchorText, String.toList_append]
  rw [hchars]
  exact (reads_cadence hunit n).spaced hafter (by decide) (closed_cadence u n)

lemma anchoredCadence_inBody {n : Nat} {lsa : List Lexeme} (h : ∀ l ∈ lsa, l.InBody) :
    ∀ l ∈ anchoredCadence u n lsa, l.InBody :=
  List.forall_mem_append.2 ⟨cadence_inBody u n, List.forall_mem_cons.2
    ⟨by simp [Lexeme.InBody, Lexeme.blank], List.forall_mem_cons.2
      ⟨by simp [Lexeme.InBody], List.forall_mem_cons.2
        ⟨by simp [Lexeme.InBody, Lexeme.blank], h⟩⟩⟩⟩

lemma readEvery_anchoredCadence {n : Nat} {lsa : List Lexeme} (hn : n ≤ Text.wordMax)
    (hitem : Padded item (anchoredCadence u n lsa)) (hanchor : ∀ l ∈ lsa, l.kind ≠ .anchor)
    (hspelling : ∀ ts, Spell ts lsa → spelling ts = text) (hne : text ≠ "")
    (hbs : ∀ t ∈ bs, t.kind = .blank) :
    readEvery (item ++ bs) = .ok [every ⟨u, n, some text⟩] := by
  obtain ⟨first, b, a, second, rfl, hfirst, hb, ha, hsecond⟩ := hitem.around
  have hblank : ∀ t ∈ [b], t.kind = .blank := List.forall_mem_singleton.2 hb
  have hbefore : ∀ t ∈ first ++ [b], t.kind ≠ .anchor :=
    List.forall_mem_append.2 ⟨not_anchor_of_cadence hfirst, not_anchor_of_blank hblank⟩
  have hvalue : ∀ t ∈ second ++ bs, t.kind ≠ .anchor := List.forall_mem_append.2
    ⟨hsecond.forall_kind (P := fun k => k ≠ .anchor) (by decide) hanchor, not_anchor_of_blank hbs⟩
  have htext : spelling (second ++ bs) = text := by
    obtain ⟨as, us, rfl, has, hus⟩ := hsecond
    rw [spelling, significant_append, significant_append, significant_blanks has,
      significant_blanks hbs, List.append_nil, List.nil_append]
    exact hspelling us hus
  have hsplit := splitAnchor_eq hbefore ha hvalue (by rwa [htext])
  rw [htext] at hsplit
  rw [List.append_assoc, List.cons_append]
  exact readEvery_cadence hn hfirst hblank hsplit

lemma restored_every_anchored {n : Nat} (hunit : u ≠ .timeZone) (hn : n ≤ Text.wordMax)
    (hanchor : AnchorText text) (hvalid : (RuleSet.probe u text).isValid = true) :
    (every ⟨u, n, some text⟩).Restored := by
  obtain ⟨lsa, hreads, hclosed, hbody, hspelling⟩ := hanchor.spelled hvalid
  refine saidAs_of_word wordKind_every (by decide) (by decide) (canonical_every u n (some text))
    (reads_anchoredCadence hunit hreads) (((hclosed.cons _).cons _).cons _).append
    (anchoredCadence_inBody fun l hl => ⟨(hbody l hl).1, (hbody l hl).2.2⟩) ?_
  intro head item hitem bs hbs
  refine readEvery_anchoredCadence hn hitem (fun l hl => (hbody l hl).2.1) hspelling ?_ hbs
  rintro rfl
  exact Bool.false_ne_true ((probe_empty u).symm.trans hvalid)

theorem restored_every {e : Every} (hunit : e.unit ≠ .timeZone) (hn : e.interval ≤ Text.wordMax)
    (hanchor : ∀ text, e.anchor = some text → AnchorText text)
    (hvalid : ∀ text, e.anchor = some text → (RuleSet.probe e.unit text).isValid = true) :
    (every e).Restored := by
  obtain ⟨u, n, anchor⟩ := e
  cases anchor with
  | none => exact restored_every_plain hunit hn
  | some text => exact restored_every_anchored hunit hn (hanchor text rfl) (hvalid text rfl)

/-! #### Zones -/

lemma trimChars_append {as cs bs : List Char} (hne : cs ≠ [])
    (hc : ∀ c ∈ cs, Text.isBlank c = false) (ha : ∀ c ∈ as, Text.isBlank c = true)
    (hb : ∀ c ∈ bs, Text.isBlank c = true) : Text.trimChars (as ++ cs ++ bs) = cs := by
  have hdrop {ds es : List Char} (hds : ds ≠ []) (hd : ∀ c ∈ ds, Text.isBlank c = false) :
      (ds ++ es).dropWhile Text.isBlank = ds ++ es := by
    obtain ⟨d, ds, rfl⟩ := List.exists_cons_of_ne_nil hds
    rw [List.cons_append, List.dropWhile_cons, if_neg (by simp [hd d])]
  have hlast : (cs.reverse ++ []).dropWhile Text.isBlank = cs.reverse ++ [] :=
    hdrop (List.reverse_ne_nil_iff.2 hne) fun c h => hc c (List.mem_reverse.1 h)
  rw [List.append_nil] at hlast
  rw [Text.trimChars, List.append_assoc, List.dropWhile_append_of_pos ha, hdrop hne hc,
    List.reverse_append, List.dropWhile_append_of_pos fun c h => hb c (List.mem_reverse.1 h), hlast,
    List.reverse_reverse]

lemma sourceText_zone {id : String} (hid : id ≠ "") (hc : ∀ c ∈ id.toList, Text.isBlank c = false)
    {as us : List Token} {t : Token} (ht : t.text = id) (has : ∀ t ∈ as, t.Spells .blank)
    (hus : ∀ t ∈ us, t.Spells .blank) : sourceText (as ++ t :: us) = id := by
  have hblank {ts : List Token} (hts : ∀ t ∈ ts, t.Spells .blank) :
      ∀ c ∈ ts.flatMap fun t => t.text.toList, Text.isBlank c = true := by
    intro c hc
    obtain ⟨t, ht, hc⟩ := List.mem_flatMap.1 hc
    have htext : t.text = " " := (hts t ht).text
    rw [htext] at hc
    obtain rfl : c = ' ' := by simpa using hc
    decide
  have hne : id.toList ≠ [] := fun h0 => hid (String.toList_eq_nil_iff.1 h0)
  rw [sourceText, Text.trim, String.toList_ofList, List.flatMap_append, List.flatMap_cons, ht,
    ← List.append_assoc, trimChars_append hne hc (hblank has) (hblank hus), String.ofList_toList]

theorem restored_zone {id : String} (h : Zone.isName id = true)
    (hkey : Keyword.isRuleWord id = false) : (zone id).Restored := by
  have hprinted := toNat_of_isName h
  have hblank : ∀ c ∈ id.toList, Text.isBlank c = false :=
    fun c hc => Text.isBlank_of_toNat (hprinted c hc)
  have hid : id ≠ "" := by
    rintro rfl
    cases h
  -- a name of printed characters is one piece after the keyword
  have hreads := reads_zone hid hkey fun c hc => ⟨hblank c hc, by
    rintro rfl
    exact absurd (hprinted _ hc).1 (by decide)⟩
  refine ⟨.zone, "@tz", [.blank, ⟨.zoneId, id⟩], ?_, ⟨_, rfl, by simp⟩, ?_, ?_⟩
  · have hchars : (zone id).canonical.toList = "@tz".toList ++ ' ' :: id.toList := by
      rw [canonical, String.toList_append]
      rfl
    rw [hchars]
    exact hreads
  · simp [Lexeme.InBody, Lexeme.blank]
  · intro head ts bs hts hbs
    obtain ⟨line, column, endColumn, _, rfl, h₁⟩ := spell_cons hts
    obtain ⟨line', column', endColumn', rfl⟩ := spell_singleton h₁
    -- without the blanks around it the body is the name
    have hsource : sourceText ([Lexeme.blank.placed line column endColumn]
        ++ Lexeme.placed ⟨.zoneId, id⟩ line' column' endColumn' :: bs) = id :=
      sourceText_zone hid hblank rfl
        (List.forall_mem_singleton.2 ⟨_, _, _, rfl⟩) hbs
    show readZone ([Lexeme.blank.placed line column endColumn]
      ++ Lexeme.placed ⟨.zoneId, id⟩ line' column' endColumn' :: bs) = _
    unfold readZone
    simp only [hsource]
    exact if_neg hid

/-! #### All rules -/

lemma forall₂_sharedUnit {records : List Values} (h : Canonical.sharedUnit records = some u) :
    List.Forall₂ (fun v text => v = [(u, text)]) records
      (records.flatMap fun v => v.map Prod.snd) := by
  have hone : ∀ v ∈ records, ∃ text, v = [(u, text)] := by
    unfold Canonical.sharedUnit at h
    split at h
    · rename_i unit text rest
      extract_lets alone at h
      split at h
      · rename_i halone
        obtain rfl := Option.some.inj h
        intro v hv
        have hv := List.all_eq_true.1 halone v hv
        split at hv
        · rename_i text' _
          exact ⟨text', by rw [of_decide_eq_true hv]⟩
        · cases hv
      · cases h
    · cases h
  clear h
  induction records with
  | nil => exact .nil
  | cons v records ih =>
    obtain ⟨⟨text, rfl⟩, hrest⟩ := List.forall_mem_cons.1 hone
    exact .cons rfl (ih hrest)

lemma formed_records {c : Columns} {records : List Values} {shape : UnitSet}
    (h : Columns.Alike records shape) (hne : records ≠ []) (hf : ∀ v ∈ records, v.Formed)
    (hc : c = .ofRecords records) : (∀ v ∈ c.records, v.Formed ∧ v.units = shape)
      ∧ .ofRecords c.records = c ∧ c.records ≠ [] := by
  have hsame : List.Forall₂ Values.Same c.records records := hc ▸ h.same_records
  refine ⟨fun v hv => ?_, ?_, fun h0 => ?_⟩
  · obtain ⟨v', hv', (hs : Values.Same v v')⟩ := exists_of_forall₂ hsame.flip hv
    exact ⟨(hf v' hv').of_same hs, hs.units_eq.trans (h.units v' hv')⟩
  · rw [hc]
    exact h.ofRecords_records
  · rw [h0] at hsame
    exact hne (List.forall₂_nil_left_iff.1 hsame)

lemma list_of_sharedUnit {records : List Values} (h : Canonical.sharedUnit records = none) :
    Canonical.list records
      = leadText none ++ "[" ++ ", ".intercalate (records.map Canonical.values) ++ "]" := by
  rw [Canonical.list, h]
  simp [leadText]

lemma restored_records {c : Columns} {records : List Values} {shape : UnitSet}
    (h : Columns.Alike records shape) (hne : records ≠ []) (hf : ∀ v ∈ records, v.Formed)
    (hc : c = .ofRecords records) (hm : ∀ v ∈ c.records, v.Meaningful)
    (hw : ∀ v ∈ c.records, v.isWritable = true) : (oneOf c).Restored := by
  obtain ⟨hformed, hof, hrecords⟩ := formed_records h hne hf hc
  cases hshared : Canonical.sharedUnit c.records with
  -- without a unit in common, each record is written as a value of its own
  | none =>
    refine restored_oneOf (fun v hv => (hformed v hv).2) (fun v hv => (hformed v hv).1.nodup) hof
      (by decide) (by simpa using hrecords) (list_of_sharedUnit hshared) ?_
    refine List.forall₂_map_left_iff.2 (List.forall₂_same.2 fun v hv => ?_)
    exact ((hformed v hv).1.readsBack (hm v hv) (hw v hv)).mono fun _ _ => trivial
  -- with one, the texts alone are written, and read under it
  | some u =>
    have htexts := forall₂_sharedUnit hshared
    have hlist : Canonical.list c.records = leadText (some u) ++ "["
        ++ ", ".intercalate (c.records.flatMap fun v => v.map Prod.snd) ++ "]" := by
      rw [Canonical.list, hshared]
      simp [leadText, String.append_assoc]
    have hsole : List.Forall₂ (fun v text => Sole u text ∧ v = [(u, text)]) c.records
        (c.records.flatMap fun v => v.map Prod.snd) := by
      refine ((List.forall₂_and_left (p := fun v : Values => v.Formed) _ _).2
        ⟨fun v hv => (hformed v hv).1, htexts⟩).imp ?_
      rintro _ text ⟨hf, rfl⟩
      exact ⟨hf.of_singleton, rfl⟩
    obtain ⟨v, vs, hv⟩ := List.exists_cons_of_ne_nil hrecords
    have hu : u ≠ .timeZone := by
      rw [hv] at hsole
      obtain ⟨text, texts, ⟨h, -⟩, -, -⟩ := List.forall₂_cons_left_iff.1 hsole
      exact h.ne_timeZone
    have hne : (c.records.flatMap fun v => v.map Prod.snd) ≠ [] := by
      intro h0
      rw [h0] at hsole
      exact hrecords (List.forall₂_nil_right_iff.1 hsole)
    refine restored_oneOf (fun v hv => (hformed v hv).2) (fun v hv => (hformed v hv).1.nodup) hof
      (by simpa using hu) hne hlist (hsole.flip.imp ?_)
    rintro text _ ⟨h, rfl⟩
    exact h.readsBack_item.mono fun d hd => hd u rfl

/-- A rule that means something is read back from its canonical text, if that can say it. -/
theorem Formed.restored (h : r.Formed) (hm : r.Meaningful) (hw : r.isWritable = true) :
    r.Restored := by
  cases h with
  | every hunit hinterval hanchor => exact restored_every hunit hinterval hanchor hm
  | @equals u text h =>
    have hpadded : Text.isPadded text = false := by
      simpa [isWritable, values, Values.isWritable] using hw
    -- a year of four digits without zeros in front is a number, too
    have hsole : Sole u text := by
      rcases h with h | ⟨rfl, ⟨n, rfl⟩ | ⟨hnumeral, -⟩⟩
      · exact h
      · exact .number (by decide) n
      · have hzeros : Text.dropZeros text = text := by
          simpa [Text.isPadded, hnumeral] using hpadded
        rw [← hzeros, Text.dropZeros_eq hnumeral]
        exact .number (by decide) _
    exact saidAs_equals (hsole.readsBack hsole.ne_timeZone)
  | oneOf h hne hf =>
    exact restored_records h hne hf rfl hm fun v hv => List.all_eq_true.1 hw v hv
  | @within s h =>
    obtain ⟨-, hstarts, hstops, -⟩ := h.ofSides_eq
    have hsides : ∀ v ∈ [s.starts, s.stops], v.isWritable = true := List.all_eq_true.1 hw
    exact restored_within h (hstarts.readsBack hm.1 (hsides _ (by simp)))
      (hstops.readsBack hm.2 (hsides _ (by simp)))
  | @withinAny rs hne h hshape =>
    refine restored_withinAny hne h hshape fun s hs => ?_
    obtain ⟨-, hstarts, hstops, -⟩ := (h s hs).ofSides_eq
    have hsides : ∀ v ∈ [s.starts, s.stops], v.isWritable = true := fun v hv =>
      List.all_eq_true.1 hw v (List.mem_flatMap.2 ⟨s, hs, hv⟩)
    exact ⟨hstarts.readsBack (hm s hs).1 (hsides _ (by simp)),
      hstops.readsBack (hm s hs).2 (hsides _ (by simp))⟩
  | zone id => exact restored_zone hm.1 hm.2

end Rule

end Recurrence
