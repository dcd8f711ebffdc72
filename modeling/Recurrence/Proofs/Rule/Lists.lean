import Recurrence.Proofs.Rule.Forms

/-!
Lists and ranges, read back from their items. A bracketed list divides at its commas into the items
it was written with, and each is read as the value that it was made of, up to the order of the
units.

Main statements: `reads_items`, `split_items`, `readBracketed_eq` and `readRange_eq`.
-/

namespace Recurrence

open Token Scan

/-- Whether a token can stand in an item of a list: in a value, or between two. -/
def Lexeme.isInner (l : Lexeme) : Bool := l.isPlain || decide (l.kind = .conjunction)

/-- A text with the tokens of an item of a list. -/
structure Item (text : String) (ls : List Lexeme) : Prop where
  reads : Reads signs text.toList ls
  inner : ∀ l ∈ ls, l.isInner = true
  first : ∃ l, ls.head? = some l ∧ l.kind ≠ .blank
  closed : Closed ls

def Lexeme.conjunction : Lexeme := ⟨.conjunction, "and"⟩

variable {text text' : String} {ls ls' : List Lexeme} {ts : List Token}

lemma Phrase.item (h : Phrase text ls) : Item text ls :=
  ⟨h.reads, fun l hl => by rw [Lexeme.isInner, h.plain l hl, Bool.true_or], h.first, h.closed⟩

lemma Item.between (h : Phrase text ls) (h' : Phrase text' ls') :
    Item (text ++ " and " ++ text') (ls ++ .blank :: .conjunction :: .blank :: ls') := by
  have hword : wordKind "and" = .ok .conjunction :=
    wordKind_canonicalWords ("and", _) (by simp [canonicalWords])
  have hand : Reads signs "and".toList [.conjunction] :=
    reads_word (by decide) hword (by simp)
  have htext : (text ++ " and " ++ text').toList
      = text.toList ++ ' ' :: ("and".toList ++ ' ' :: text'.toList) := by
    simp [String.toList_append]
  refine ⟨?_, ?_, ?_, ?_⟩
  · rw [htext]
    exact h.reads.spaced (hand.spaced h'.reads (by decide) ⟨_, rfl, by decide⟩) (by decide) h.closed
  · refine List.forall_mem_append.2 ⟨h.item.inner, List.forall_mem_cons.2 ⟨rfl,
      List.forall_mem_cons.2 ⟨rfl, List.forall_mem_cons.2 ⟨rfl, h'.item.inner⟩⟩⟩⟩
  · obtain ⟨l, hl, hk⟩ := h.first
    exact ⟨l, by rw [List.head?_append, hl]; rfl, hk⟩
  · exact (((h'.closed.cons _).cons _).cons _).append

def itemLexemes : List (List Lexeme) → List Lexeme
  | [] => []
  | [ls] => ls
  | ls :: more :: rest => ls ++ .comma :: .blank :: itemLexemes (more :: rest)

/-- Items with commas between them are a text with the tokens of both. -/
theorem reads_items {texts : List String} {lss : List (List Lexeme)}
    (h : List.Forall₂ Item texts lss) (hne : texts ≠ []) :
    Reads signs (", ".intercalate texts).toList (itemLexemes lss) ∧ Closed (itemLexemes lss) := by
  induction h with
  | nil => exact absurd rfl hne
  | @cons text ls texts lss hitem hrest ih =>
    cases hrest with
    | nil =>
      rw [String.intercalate_singleton]
      exact ⟨hitem.reads, hitem.closed⟩
    | cons h hrest =>
      obtain ⟨hreads, hclosed⟩ := ih (by simp)
      refine ⟨?_, ((hclosed.cons _).cons _).append⟩
      rw [String.intercalate_cons_cons, String.toList_append, String.toList_append,
        List.append_assoc]
      have hcomma := hitem.reads.append reads_nil (c := ',') (l := .comma) (by decide) (by decide)
        fun h0 => absurd h0 (by decide)
      have := hcomma.spaced hreads (by decide) (Closed.append ⟨_, rfl, by decide⟩)
      simpa [itemLexemes] using this

/-! ### Dividing at commas -/

namespace Rule

lemma splitCommas_cons_comma {t : Token} (ht : t.kind = .comma) (ts : List Token) :
    splitCommas (t :: ts) = [] :: splitCommas ts := by
  rw [splitCommas]
  split
  · rename_i h
    exact absurd h (splitCommas_ne_nil ts)
  · rename_i item items h
    rw [if_pos ht, h]

lemma splitCommas_append {first us : List Token} {items : List (List Token)}
    (hts : ∀ t ∈ ts, t.kind ≠ .comma) (h : splitCommas us = first :: items) :
    splitCommas (ts ++ us) = (ts ++ first) :: items := by
  induction ts with
  | nil => exact h
  | cons t ts ih =>
    obtain ⟨ht, hts⟩ := List.forall_mem_cons.1 hts
    rw [List.cons_append, splitCommas, ih hts]
    simp only [if_neg ht]
    rfl

def Padded (item : List Token) (ls : List Lexeme) : Prop :=
  ∃ as us, item = as ++ us ∧ (∀ t ∈ as, t.kind = .blank) ∧ Spell us ls

lemma Padded.forall_kind {P : Kind → Prop} {item : List Token} (h : Padded item ls)
    (hb : P .blank) (hl : ∀ l ∈ ls, P l.kind) : ∀ t ∈ item, P t.kind := by
  obtain ⟨as, us, rfl, has, hus⟩ := h
  exact List.forall_mem_append.2 ⟨fun t ht => has t ht ▸ hb, hus.forall_kind hl⟩

lemma Padded.around {item : List Token} {l : Lexeme}
    (h : Padded item (ls ++ .blank :: l :: .blank :: ls')) : ∃ first b t second,
      item = (first ++ [b]) ++ t :: second ∧ Padded first ls ∧ b.kind = .blank ∧ t.kind = l.kind
        ∧ Padded second ls' := by
  obtain ⟨as, _, rfl, has, hts⟩ := h
  obtain ⟨us, _, rfl, hus, h₁⟩ := spell_append hts
  obtain ⟨line, column, endColumn, _, rfl, h₂⟩ := spell_cons h₁
  obtain ⟨line', column', endColumn', _, rfl, h₃⟩ := spell_cons h₂
  obtain ⟨line'', column'', endColumn'', vs, rfl, hvs⟩ := spell_cons h₃
  exact ⟨as ++ us, Lexeme.blank.placed line column endColumn, l.placed line' column' endColumn',
    Lexeme.blank.placed line'' column'' endColumn'' :: vs, by simp, ⟨as, us, rfl, has, hus⟩, rfl,
    rfl, ⟨[_], vs, rfl, List.forall_mem_singleton.2 rfl, hvs⟩⟩

/-- The tokens of items with commas between them divide into those of the items. -/
theorem split_items {lss : List (List Lexeme)} (hne : lss ≠ [])
    (hinner : ∀ ls ∈ lss, ∀ l ∈ ls, l.kind ≠ .comma) (hts : Spell ts (itemLexemes lss)) :
    List.Forall₂ Padded (splitCommas ts) lss := by
  induction lss generalizing ts with
  | nil => exact absurd rfl hne
  | cons ls lss ih =>
    obtain ⟨hls, hrest⟩ := List.forall_mem_cons.1 hinner
    cases lss with
    | nil =>
      have hsplit := splitCommas_append (hts.forall_kind (P := fun k => k ≠ .comma) hls)
        (show splitCommas [] = [] :: [] from rfl)
      rw [List.append_nil] at hsplit
      rw [hsplit]
      exact .cons ⟨[], ts, rfl, by simp, hts⟩ .nil
    | cons more lss =>
      obtain ⟨us, _, rfl, hus, h₁⟩ := spell_append hts
      obtain ⟨line', column', endColumn', _, rfl, h₂⟩ := spell_cons h₁
      obtain ⟨line, column, endColumn, vs, rfl, hvs⟩ := spell_cons h₂
      have hkind : ∀ t ∈ [Lexeme.blank.placed line column endColumn], t.kind ≠ .comma :=
        List.forall_mem_singleton.2 (by rintro ⟨⟩)
      obtain ⟨item, items, ⟨as, ws, rfl, has, hws⟩, hmore, hsplit⟩ :=
        List.forall₂_cons_right_iff.1 (ih (by simp) hrest hvs)
      -- the blank after the comma goes to the next item
      have hblank := splitCommas_append hkind hsplit
      have hfirst := splitCommas_append (hus.forall_kind (P := fun k => k ≠ .comma) hls)
        (splitCommas_cons_comma (t := Lexeme.comma.placed line' column' endColumn') rfl
          ([Lexeme.blank.placed line column endColumn] ++ vs))
      rw [List.append_nil, hblank] at hfirst
      refine hfirst ▸ ?_
      refine .cons ⟨[], us, rfl, by simp, hus⟩ (.cons ⟨_ :: as, ws, rfl, ?_, hws⟩ hmore)
      exact List.forall_mem_cons.2 ⟨rfl, has⟩

/-! ### Brackets -/

variable {before inner after : List Token} {o c : Token}

/-- A bracketed list has the items between its brackets, and the unit in front of them. -/
theorem readBracketed_eq {named : Option TimeUnit} (ho : o.kind = .openBracket)
    (hc : c.kind = .closeBracket) (hbefore : ∀ t ∈ before, t.kind ≠ .openBracket)
    (hinner : ∀ t ∈ inner, t.kind ≠ .openBracket ∧ t.kind ≠ .closeBracket)
    (hafter : ∀ t ∈ after, t.kind = .blank)
    (hnamed : significant before = [] ∧ named = none
      ∨ ∃ word, significant before = [word] ∧ word.unit?.isSome = true ∧ named = word.unit?)
    (hitems : ∀ item ∈ splitCommas inner, significant item ≠ []) :
    readBracketed (before ++ o :: (inner ++ c :: after)) = .ok ⟨named.or
      ((splitCommas inner).head?.bind fun item => (significant item).head?.bind Token.unit?),
      splitCommas inner⟩ := by
  -- the closing bracket is looked for from the end
  have hreverse : (inner ++ c :: after).reverse = after.reverse ++ c :: inner.reverse := by simp
  have hclose : ∀ t ∈ after.reverse, t.kind ≠ .closeBracket := by
    intro t ht
    simp [hafter t (List.mem_reverse.1 ht)]
  have hany : ((inner ++ c :: after).any fun t => t.kind = .closeBracket) = true :=
    List.any_eq_true.2 ⟨c, by simp, by simp [hc]⟩
  have hnested : (inner.any fun t => t.kind = .openBracket) = false := by
    rw [List.any_eq_false]
    intro t ht
    simp [(hinner t ht).1]
  have hempty : ((splitCommas inner).any fun item => (significant item).isEmpty) = false := by
    rw [List.any_eq_false]
    intro item hi
    simpa using hitems item hi
  have hrest : significant after = [] := by
    refine List.filter_eq_nil_iff.2 fun t ht => ?_
    simp [isTrivia, hafter t ht]
  unfold readBracketed
  simp only [takeWhile_kind_ne hbefore ho, dropWhile_kind_ne hbefore ho, List.drop_succ_cons,
    List.drop_zero, hreverse, takeWhile_kind_ne hclose hc, dropWhile_kind_ne hclose hc,
    List.reverse_reverse, hany, hnested, hempty, hrest]
  rcases hnamed with ⟨hb, rfl⟩ | ⟨word, hb, hword, rfl⟩
  · rw [hb]
    rfl
  · obtain ⟨u, hu⟩ := Option.isSome_iff_exists.1 hword
    simp only [hb, hu]
    rfl

end Rule

/-! ### Values among blanks -/

lemma Lexeme.isTrivia_of_isPlain {l : Lexeme} (h : l.isPlain = true) (hk : l.kind ≠ .blank) :
    l.isTrivia = false := by
  obtain ⟨kind, text⟩ := l
  cases kind <;> first | rfl | exact absurd rfl hk | cases h

lemma Phrase.trimmed (h : Phrase text ls) (hts : Spell ts ls) : Trimmed ts := by
  have hplain {t : Token} {l : Lexeme} (ht : t.Spells l) (hl : l ∈ ls) (hk : l.kind ≠ .blank) :
      t.isTrivia = false := by
    rw [ht.isTrivia, Lexeme.isTrivia_of_isPlain (h.plain l hl) hk]
  constructor
  · obtain ⟨l, hl, hk⟩ := h.first
    obtain ⟨ls, rfl⟩ := List.head?_eq_some_iff.1 hl
    obtain ⟨t, ts, ht, -, rfl⟩ := List.forall₂_cons_right_iff.1 hts
    exact ⟨t, rfl, hplain ht List.mem_cons_self hk⟩
  · obtain ⟨l, hl, hk⟩ := h.closed
    obtain ⟨ls, rfl⟩ := List.getLast?_eq_some_iff.1 hl
    obtain ⟨us, vs, rfl, -, hvs⟩ := spell_append hts
    obtain ⟨t, vs, ht, hnil, rfl⟩ := List.forall₂_cons_right_iff.1 hvs
    rw [spell_nil hnil]
    exact ⟨t, by simp, hplain ht (by simp) hk⟩

namespace Value

lemma read_congr {us : List Token} (h : trimTrivia ts = trimTrivia us) (default : Option TimeUnit) :
    read ts default = read us default := by
  simp only [read, dateTime, dayTime, clock, date, h]

end Value

lemma Phrase.read_padded {as bs : List Token} (h : Phrase text ls) (hts : Spell ts ls)
    (has : ∀ t ∈ as, t.kind = .blank) (hbs : ∀ t ∈ bs, t.kind = .blank)
    (default : Option TimeUnit) :
    Value.read (as ++ ts ++ bs) default = Value.read ts default := by
  have htrim := h.trimmed hts
  have hblank {bs : List Token} (hbs : ∀ t ∈ bs, t.kind = .blank) : ∀ t ∈ bs, t.isTrivia = true :=
    fun t ht => by rw [Token.isTrivia, hbs t ht]
  refine Value.read_congr ?_ default
  rw [trimTrivia_append htrim (hblank has) (hblank hbs), trimTrivia_eq htrim]

lemma ReadsBack.padded {defaults : Option TimeUnit → Prop} {vs : Values}
    (h : ReadsBack defaults text vs) : ∃ ls, Phrase text ls ∧ ∀ item, Rule.Padded item ls →
      ∀ bs : List Token, (∀ t ∈ bs, t.kind = .blank) → ∀ default, defaults default →
      ∃ ws, Value.read (item ++ bs) default = .ok ws ∧ ws.Same vs := by
  obtain ⟨ls, hls, hread⟩ := h
  refine ⟨ls, hls, ?_⟩
  rintro _ ⟨as, us, rfl, has, hus⟩ bs hbs default hd
  obtain ⟨ws, hws, hsame⟩ := hread us hus default hd
  exact ⟨ws, by rw [hls.read_padded hus has hbs, hws], hsame⟩

namespace Rule

lemma readItems_eq {default : Option TimeUnit} {items : List (List Token)} {records : List Values}
    {units : UnitSet} (h : List.Forall₂ (fun item r => ∃ ws, Value.read item default = .ok ws
      ∧ ws.Same r) items records) (hunits : ∀ r ∈ records, r.units = units)
    {shape : Option UnitSet} (hshape : ∀ s, shape = some s → s = units) :
    ∃ records', readItems default shape items = .ok records'
      ∧ List.Forall₂ Values.Same records' records := by
  induction h generalizing shape with
  | nil => exact ⟨[], rfl, .nil⟩
  | @cons item r items records hitem _ ih =>
    obtain ⟨hr, hrest⟩ := List.forall_mem_cons.1 hunits
    obtain ⟨ws, hws, hsame⟩ := hitem
    have hw : ws.units = units := hsame.units_eq.trans hr
    obtain ⟨records', hrecords, hrel⟩ := ih hrest
      (show ∀ s, some ws.units = some s → s = units by rintro _ ⟨⟩; exact hw)
    refine ⟨ws :: records', ?_, .cons hsame hrel⟩
    have hcheck : shape.any (fun s => s ≠ ws.units) = false := by
      cases shape with
      | none => rfl
      | some s => simp [hshape s rfl, hw]
    rw [readItems]
    refine Value.bind_eq_ok.2 ⟨ws, hws, ?_⟩
    rw [if_neg (by rw [hcheck]; decide)]
    exact Value.bind_eq_ok.2 ⟨records', hrecords, rfl⟩

variable {start stop : String} {starts stops : Values}

lemma readRange_between {item bs : List Token} (h : Phrase text ls) (h' : Phrase text' ls')
    (hitem : Padded item (ls ++ .blank :: .conjunction :: .blank :: ls'))
    (hbs : ∀ t ∈ bs, t.kind = .blank) (default : Option TimeUnit) :
    ∃ first second as unit cause, Padded first ls ∧ Padded second ls' ∧ (∀ t ∈ as, t.kind = .blank)
      ∧ readRange default (item ++ bs) = do
        let starts ← Value.read (first ++ as) unit
        let stops ← Value.read (second ++ bs) unit
        if starts.units ≠ stops.units then throw cause
        return .ofSides starts stops := by
  obtain ⟨first, b, a, second, rfl, hfirst, hb, ha, hsecond⟩ := hitem.around
  have hside {item : List Token} {ls : List Lexeme} (hls : ∀ l ∈ ls, l.isPlain = true)
      (hitem : Padded item ls) : ∀ t ∈ item, t.kind ≠ .conjunction :=
    hitem.forall_kind (P := fun k => k ≠ .conjunction) (by decide) fun l hl hk => by
      have hplain := hls l hl
      rw [Lexeme.isPlain, hk] at hplain
      cases hplain
  have hstart : ∀ t ∈ first ++ [b], t.kind ≠ .conjunction :=
    List.forall_mem_append.2 ⟨hside h.plain hfirst, List.forall_mem_singleton.2 (by simp [hb])⟩
  have hstop : ∀ t ∈ second ++ bs, t.kind ≠ .conjunction :=
    List.forall_mem_append.2 ⟨hside h'.plain hsecond, fun t ht => by simp [hbs t ht]⟩
  have hany : ((second ++ bs).any fun t => t.kind = .conjunction) = false := by
    rw [List.any_eq_false]
    exact fun t ht => by simpa using hstop t ht
  have htake := takeWhile_kind_ne hstart ha (second ++ bs)
  have hdrop := dropWhile_kind_ne hstart ha (second ++ bs)
  rw [List.append_assoc, List.cons_append]
  generalize hrange : (first ++ [b]) ++ a :: (second ++ bs) = range at htake hdrop
  refine ⟨first, second, [b], default.or ((significant range).findSome? Token.unit?),
    .sideUnitsDiffer (sourceText range), hfirst, hsecond, List.forall_mem_singleton.2 hb, ?_⟩
  unfold readRange
  simp only [htake, hdrop, hany]
  rfl

/-- A range between values that are read back is the range that was made of them. -/
theorem readRange_eq (h : ReadsBack (fun _ => True) start starts)
    (h' : ReadsBack (fun _ => True) stop stops) (hs : (starts.map Prod.fst).Nodup)
    (hunits : starts.units = stops.units) :
    ∃ ls, Item (start ++ " and " ++ stop) ls ∧ ∀ ts, Padded ts ls →
      ∀ bs : List Token, (∀ t ∈ bs, t.kind = .blank) → ∀ default,
      readRange default (ts ++ bs) = .ok (.ofSides starts stops) := by
  obtain ⟨ls, hls, hread⟩ := h.padded
  obtain ⟨ls', hls', hread'⟩ := h'.padded
  refine ⟨_, .between hls hls', fun ts hts bs hbs default => ?_⟩
  obtain ⟨first, second, as, unit, cause, hfirst, hsecond, has, heq⟩ :=
    readRange_between hls hls' hts hbs default
  obtain ⟨starts', hstarts', hsame⟩ := hread first hfirst as has unit trivial
  obtain ⟨stops', hstops', hsame'⟩ := hread' second hsecond bs hbs unit trivial
  have hunits' : ¬starts'.units ≠ stops'.units :=
    not_not.2 ((hsame.units_eq.trans hunits).trans hsame'.units_eq.symm)
  rw [heq]
  refine Value.bind_eq_ok.2 ⟨starts', hstarts', Value.bind_eq_ok.2 ⟨stops', hstops', ?_⟩⟩
  rw [if_neg hunits']
  exact congrArg Except.ok (Range.ofSides_congr hsame hsame' hs)

end Rule

end Recurrence
