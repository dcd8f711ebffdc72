import Recurrence.Proofs.Expression.RoundTrips
import Recurrence.Proofs.Rule.Checks
import Recurrence.Proofs.Rule.Recasting
import Recurrence.Proofs.Rule.TrailingBlanks
import Recurrence.Proofs.Rule.ZoneClauses
import Recurrence.Proofs.Token.Joining
import Recurrence.Zone.Offsets

/-!
Texts one after the other. What is read of a list of tokens does not depend on their places; a list
that starts with a keyword is read as if it stood alone; and the blank between two texts is one more
at the end of a clause. An accepted text does not leave a zone awaited, since the zone would have a
name of signs.

Main statement: `Parsed.ofText_append`.
-/

namespace Recurrence

open Token Scan

variable {D : Zone.Database} {ts us : List Token} {t u b : Token} {k : Keyword} {c c' : Clause}

namespace Clause

lemma split_append_of_keyword (hu : u.keyword? = some k) (ts us : List Token) :
    split (ts ++ u :: us) = ((split ts).1, (split ts).2 ++ (split (u :: us)).2) := by
  induction ts with
  | nil => rw [List.nil_append, split_cons_of_keyword us hu, split, List.nil_append]
  | cons t ts ih =>
    rw [List.cons_append]
    cases ht : t.keyword? with
    | none => rw [split_cons_of_not_keyword _ ht, split_cons_of_not_keyword _ ht, ih]
    | some q => rw [split_cons_of_keyword _ ht, split_cons_of_keyword _ ht, ih, List.cons_append]

lemma split_concat (hb : b.keyword? = none) (ts : List Token) :
    split ts = (ts, []) ∧ split (ts ++ [b]) = (ts ++ [b], [])
      ∨ ∃ lead clauses q head body, split ts = (lead, clauses ++ [⟨q, head, body⟩])
        ∧ split (ts ++ [b]) = (lead, clauses ++ [⟨q, head, body ++ [b]⟩]) := by
  induction ts with
  | nil => exact Or.inl ⟨rfl, split_cons_of_not_keyword [] hb⟩
  | cons t ts ih =>
    rw [List.cons_append]
    cases ht : t.keyword? with
    | none =>
      rw [split_cons_of_not_keyword _ ht, split_cons_of_not_keyword _ ht]
      rcases ih with ⟨h, h'⟩ | ⟨lead, clauses, q, head, body, h, h'⟩
      · exact Or.inl (by rw [h, h']; exact ⟨rfl, rfl⟩)
      · exact Or.inr ⟨t :: lead, clauses, q, head, body, by rw [h, h']; exact ⟨rfl, rfl⟩⟩
    | some q =>
      rw [split_cons_of_keyword _ ht, split_cons_of_keyword _ ht]
      rcases ih with ⟨h, h'⟩ | ⟨lead, clauses, q', head, body, h, h'⟩
      · exact Or.inr ⟨[], [], q, t, ts, by rw [h, h']; exact ⟨rfl, rfl⟩⟩
      · exact Or.inr ⟨[], ⟨q, t, lead⟩ :: clauses, q', head, body, by rw [h, h']; exact ⟨rfl, rfl⟩⟩

/-- The second clause is the first, at other places. -/
structure Kept (c c' : Clause) : Prop where
  keyword : c'.keyword = c.keyword
  head : Scan.Kept c.head c'.head
  body : List.Forall₂ Scan.Kept c.body c'.body

lemma split_kept (h : List.Forall₂ Scan.Kept ts us) :
    List.Forall₂ Scan.Kept (split ts).1 (split us).1
      ∧ List.Forall₂ Kept (split ts).2 (split us).2 := by
  induction h with
  | nil => exact ⟨.nil, .nil⟩
  | @cons t u ts us htu _ ih =>
    have hkeyword : u.keyword? = t.keyword? := by rw [keyword?, keyword?, htu.kind]
    cases ht : t.keyword? with
    | none =>
      rw [split_cons_of_not_keyword _ ht, split_cons_of_not_keyword _ (hkeyword.trans ht)]
      exact ⟨.cons htu ih.1, ih.2⟩
    | some q =>
      rw [split_cons_of_keyword _ ht, split_cons_of_keyword _ (hkeyword.trans ht)]
      exact ⟨.nil, .cons ⟨rfl, htu, ih.1⟩ ih.2⟩

end Clause

/-! ### Tokens at other places -/

lemma recast_kept (h : List.Forall₂ Kept ts us) :
    us.map (Token.recast id) = ts.map (Token.recast id) := by
  induction h with
  | nil => rfl
  | cons htu _ ih =>
    rw [List.map_cons, List.map_cons, ih, Token.recast, Token.recast, htu.kind, htu.text]

lemma forall₂_bare (ts : List Token) : List.Forall₂ Kept ts (ts.map bare) := by
  rw [List.forall₂_map_right_iff]
  exact List.forall₂_same.2 fun t _ => ⟨rfl, rfl, fun h => h⟩

lemma forall₂_of_bare (ts : List Token) : List.Forall₂ Kept (ts.map bare) ts := by
  rw [List.forall₂_map_left_iff]
  exact List.forall₂_same.2 fun t _ => ⟨rfl, rfl, fun h => h⟩

lemma Rule.ofClause_kept {rules : List Rule} (h : c.Kept c') (hread : ofClause c = .ok rules) :
    ofClause c' = .ok rules := by
  by_cases hz : c.keyword = .zone
  · have hzone {c : Clause} (hz : c.keyword = .zone) : ofClause c = readZone c.body := by
      rw [ofClause, hz]
    rw [hzone hz, readZone] at hread
    rw [hzone (h.keyword.trans hz), readZone, sourceText_kept h.body]
    exact hread
  · have hid : Text.Recast id := ⟨fun _ _ => rfl, fun _ => rfl, rfl⟩
    obtain ⟨rules', hread', heq⟩ :=
      ofClause_of_recast hid (fun _ => rfl) hz h.keyword (recast_kept h.body) hread
    rw [show Rule.recast id = id from funext recast_id, List.map_id, List.map_id] at heq
    rw [hread', heq]

namespace Parsed

lemma ofClause_kept (h : c.Kept c') (hc : (ofClause c).problems = []) :
    ofClause c' = ofClause c := by
  obtain ⟨hvalid, rules, hread, -⟩ := ofClause_eq_ok hc
  have htokens : List.Forall₂ Kept c.tokens c'.tokens := .cons h.head h.body
  have hvalid' (ts : List Token) (hts : ∀ t ∈ ts, t.fault = none) : ∀ t ∈ ts, t.isValid = true :=
    fun t ht => by rw [isValid, hts t ht]; rfl
  rw [ofClause_of_valid (hvalid' _ hvalid) hread,
    ofClause_of_valid (hvalid' _ (isValid_kept htokens hvalid)) (Rule.ofClause_kept h hread),
    Clause.source, Clause.source, sourceText_kept htokens]

lemma flatMap_kept {cs cs' : List Clause} (h : List.Forall₂ Clause.Kept cs cs')
    (hcs : ∀ c ∈ cs, (ofClause c).problems = []) {α : Type} (f : Parsed → List α) :
    (cs'.flatMap fun c => f (ofClause c)) = cs.flatMap fun c => f (ofClause c) := by
  induction h with
  | nil => rfl
  | cons hc _ ih =>
    obtain ⟨hproblems, hrest⟩ := List.forall_mem_cons.1 hcs
    rw [List.flatMap_cons, List.flatMap_cons, ih hrest, ofClause_kept hc hproblems]

lemma takeWhile_kept (h : List.Forall₂ Kept ts us) :
    List.Forall₂ Kept (ts.takeWhile fun t => t.kind ≠ .endOfInput)
      (us.takeWhile fun t => t.kind ≠ .endOfInput) := by
  induction h with
  | nil => exact .nil
  | cons htu _ ih =>
    rw [List.takeWhile_cons, List.takeWhile_cons, htu.kind]
    split
    · exact .cons htu ih
    · exact .nil

/-- **Tokens without a problem are read alike wherever they stand.** -/
theorem ofTokens_kept (h : List.Forall₂ Kept ts us) (hts : (ofTokens ts).problems = []) :
    ofTokens us = ofTokens ts := by
  obtain ⟨hlead, hclauses⟩ := Clause.split_kept (takeWhile_kept h)
  rw [ofTokens_eq] at hts
  obtain ⟨hproblems, hnone⟩ := List.append_eq_nil_iff.1 hts
  have hnone := List.flatMap_eq_nil_iff.1 hnone
  have hlead' := problems_ofLead_congr (hlead.imp fun _ _ htu _ => ⟨htu.kind, htu.fault⟩) hproblems
  rw [ofTokens_eq, ofTokens_eq, hproblems, hlead', flatMap_kept hclauses hnone,
    flatMap_kept hclauses hnone]

/-- **Tokens that start with a keyword are read as if they stood alone.** -/
theorem ofTokens_append (hts : ∀ t ∈ ts, t.kind ≠ .endOfInput) (hu : u.keyword? = some k)
    (us : List Token) :
    ofTokens (ts ++ u :: us) = (ofTokens ts).append (ofTokens (u :: us)) := by
  have hkind : decide (u.kind ≠ .endOfInput) = true := by simp [kind_of_keyword? hu]
  have htake : (u :: us).takeWhile (fun t => t.kind ≠ .endOfInput)
      = u :: us.takeWhile fun t => t.kind ≠ .endOfInput := by rw [List.takeWhile_cons, if_pos hkind]
  have hall : ts.takeWhile (fun t => t.kind ≠ .endOfInput) = ts :=
    List.takeWhile_eq_self_iff.2 fun t ht => decide_eq_true (hts t ht)
  rw [ofTokens_eq, ofTokens_eq, ofTokens_eq, hall, List.takeWhile_append_of_pos fun t ht =>
    decide_eq_true (hts t ht), htake, Clause.split_append_of_keyword hu]
  have hlead : (Clause.split (u :: us.takeWhile fun t => t.kind ≠ .endOfInput)).1 = [] := by
    rw [Clause.split_cons_of_keyword _ hu]
  rw [hlead]
  simp [append, show (ofLead []).problems = [] from rfl]

/-- A blank at the end of tokens changes nothing. -/
theorem ofTokens_concat (hts : ∀ t ∈ ts, t.kind ≠ .endOfInput) (hb : b.kind = .blank)
    (hfault : b.fault = none)
    (hblank : ∀ c ∈ b.text.toList, Text.isBlank c = true) : ofTokens (ts ++ [b]) = ofTokens ts := by
  have htake {ts : List Token} (hts : ∀ t ∈ ts, t.kind ≠ .endOfInput) :
      ts.takeWhile (fun t => t.kind ≠ .endOfInput) = ts :=
    List.takeWhile_eq_self_iff.2 fun t ht => decide_eq_true (hts t ht)
  have hall : ∀ t ∈ ts ++ [b], t.kind ≠ .endOfInput :=
    List.forall_mem_append.2 ⟨hts, List.forall_mem_singleton.2 (by simp [hb])⟩
  rw [ofTokens_eq, ofTokens_eq, htake hts, htake hall]
  rcases Clause.split_concat (b := b) (by rw [keyword?, hb]) ts
    with ⟨h, h'⟩ | ⟨_, _, q, head, body, h, h'⟩
  · rw [h, h', ofLead_concat hb ts hfault hblank]
  · rw [h, h']
    simp only [List.flatMap_append, List.flatMap_singleton, ofClause_concat hb hfault hblank]

lemma ofTokens_blankAdded (hts : ∀ t ∈ ts, t.kind ≠ .endOfInput) (h : BlankAdded ts us) :
    (∀ u ∈ us, u.kind ≠ .endOfInput) ∧ ofTokens us = ofTokens ts := by
  obtain ⟨before, blank, rfl, hb, h⟩ := h
  have hend : ∀ t ∈ [blank], t.kind ≠ .endOfInput := List.forall_mem_singleton.2 (by simp [hb.kind])
  rcases h with rfl | ⟨blank', rfl, hb'⟩
  · exact ⟨List.forall_mem_append.2 ⟨hts, hend⟩, ofTokens_concat hts hb.kind hb.fault hb.text⟩
  · obtain ⟨hbefore, -⟩ := List.forall_mem_append.1 hts
    refine ⟨List.forall_mem_append.2 ⟨hbefore, hend⟩, ?_⟩
    rw [ofTokens_concat hbefore hb.kind hb.fault hb.text,
      ofTokens_concat hbefore hb'.kind hb'.fault hb'.text]

lemma ofTokens_end (hts : ∀ t ∈ ts, t.kind ≠ .endOfInput) (he : u.kind = .endOfInput) :
    ofTokens (ts ++ [u]) = ofTokens ts := by
  have htake (us : List Token) : (ts ++ us).takeWhile (fun t => t.kind ≠ .endOfInput)
      = ts ++ us.takeWhile fun t => t.kind ≠ .endOfInput :=
    List.takeWhile_append_of_pos fun t ht => decide_eq_true (hts t ht)
  have hself := htake []
  have hend := htake [u]
  rw [List.takeWhile_cons_of_neg (by simp [he])] at hend
  rw [List.append_nil, List.takeWhile_nil] at hself
  rw [ofTokens_eq, ofTokens_eq, hend, hself]

/-- Tokens that leave a zone awaited are not accepted: the zone would be named by signs. -/
lemma not_awaits (hts : ∀ t ∈ ts, t.kind ≠ .endOfInput) (hproblems : (ofTokens ts).problems = [])
    (hstands : RuleSet.Stands D ((ofTokens ts).rules.map WrittenRule.rule)) : ¬Awaits false ts := by
  rintro ⟨_, body, rfl, hbody, hsigns, ⟨-, hz⟩ | ⟨start, z, rfl, hz⟩⟩
  · cases hz
  have hstart : ∀ t ∈ start, t.kind ≠ .endOfInput := fun t ht => hts t (by simp [ht])
  have hkeyword : z.keyword? = some .zone := by rw [keyword?, hz]
  have hall : (z :: body).takeWhile (fun t => t.kind ≠ .endOfInput) = z :: body :=
    List.takeWhile_eq_self_iff.2 fun t ht => decide_eq_true (hts t (by simp_all))
  -- nothing but signs follows the last zone keyword, so its clause is the last one
  have hsplit : Clause.split (z :: body) = ([], [⟨.zone, z, body⟩]) := by
    have hfree := Clause.split_append hbody []
    rw [List.append_nil, Clause.split, List.append_nil] at hfree
    rw [Clause.split_cons_of_keyword _ hkeyword, hfree]
  have htokens : ofTokens (z :: body) = ofClause ⟨.zone, z, body⟩ := by
    rw [ofTokens_eq, hall, hsplit]
    simp [show (ofLead []).problems = [] from rfl]
  rw [List.append_assoc, List.singleton_append, ofTokens_append hstart hkeyword, htokens]
    at hproblems hstands
  obtain ⟨-, rules, hread, hrules⟩ := ofClause_eq_ok (List.append_eq_nil_iff.1 hproblems).2
  have hread : Rule.readZone body = .ok rules := hread
  obtain rfl := zone_of_readZone hread
  -- the clause names a zone by those signs, and such a zone is in no database
  have hid : sourceText body ∈ RuleSet.zones
      (((ofTokens start).append (ofClause ⟨.zone, z, body⟩)).rules.map WrittenRule.rule) := by
    rw [append, List.map_append, hrules]
    exact List.mem_filterMap.2 ⟨.zone (sourceText body), by simp, rfl⟩
  have hname := D.named _ (hstands.known _ hid)
  rw [not_name_of_isBreaking hsigns] at hname
  cases hname

/-- **The rules of two texts, one after the other.** A text that starts with a keyword can follow an
accepted one: its rules follow those of the first, and their source texts are the same. -/
theorem ofText_append {first second : String} {ceiling : Nat} {e : Expression}
    (hnul : '\x00' ∉ first.toList) (hfirst : Expression.parse D first ceiling = .ok e)
    (hsecond : (ofText D second).problems = [])
    (hkeyword : ∃ t ts k, Token.scan D second = t :: ts ∧ t.kind = .keyword k) :
    ofText D (first ++ " " ++ second)
      = ⟨(ofText D first).rules ++ (ofText D second).rules, []⟩ := by
  obtain ⟨t, ts, k, hscan, hk⟩ := hkeyword
  obtain ⟨hproblems, hconflict, hrules⟩ := Expression.parse_eq_ok hfirst
  rw [hrules] at hconflict
  obtain ⟨m, d, done, e, htokens, he, hdone, hawaits, hgo⟩ :=
    (divided_scan D first).before_blank rfl hnul
  -- the first text ends at its end, with no zone awaited
  have hofDone : ofTokens done = ofText D first := by
    rw [← ofTokens_end hdone he, ← htokens]
    exact ofTokens_kept (forall₂_bare _) hproblems
  have hplain : m = .plain := by
    have hnot : ¬Awaits false done := by
      rw [← hofDone] at hproblems hconflict
      exact not_awaits hdone hproblems (RuleSet.conflict?_eq_none_iff.1 hconflict)
    cases m with
    | plain => rfl
    | marked | zone => exact absurd (hawaits rfl) hnot
  subst hplain
  -- the second text, with the brackets of the first open
  have hstart : ∀ c ∈ (second.toList ++ ['\x00']).head?, Text.isBlank c = false := by
    refine (divided_scan D second).head_not_blank ?_
    rw [hscan]
    rintro _ ⟨⟩
    simp [kind_bare, hk]
  obtain ⟨us, hus, hkept⟩ := (divided_scan D second).deeper (Nat.zero_le d)
  have hofSecond : ofTokens us = ofText D second := by
    have hbare : ofTokens ((Token.scan D second).map bare) = ofText D second :=
      ofTokens_kept (forall₂_bare _) hsecond
    rw [ofTokens_kept hkept (by rw [hbare]; exact hsecond), hbare]
  obtain ⟨done', hdivided, hadded⟩ := hgo _ us hstart hus
  obtain ⟨hdone', hofDone'⟩ := ofTokens_blankAdded hdone hadded
  have htext : (first ++ " " ++ second).toList ++ ['\x00']
      = first.toList ++ ' ' :: (second.toList ++ ['\x00']) := by simp [String.toList_append]
  rw [← htext] at hdivided
  -- the tokens of both
  rw [hscan] at hkept
  obtain ⟨u, us, htu, -, rfl⟩ := List.forall₂_cons_left_iff.1 hkept
  have hkeyword : u.keyword? = some k := by rw [keyword?, htu.kind, kind_bare, hk]
  have hboth :
      ofTokens (done' ++ u :: us) = ⟨(ofText D first).rules ++ (ofText D second).rules, []⟩ := by
    rw [ofTokens_append hdone' hkeyword, hofDone', hofDone, hofSecond, append, hproblems, hsecond]
    rfl
  have hscans : List.Forall₂ Kept (done' ++ u :: us) (Token.scan D (first ++ " " ++ second)) := by
    rw [← hdivided.scan]
    exact forall₂_of_bare _
  rw [← hboth]
  exact ofTokens_kept hscans (by rw [hboth])

/-- A zone is named at the end of the first text, and the second is a list. -/
theorem ofText_append_zoned :
    (∃ e, Expression.parse Zone.recorded "@weekly @tz Europe/Berlin" Expression.standardCeiling
      = .ok e)
      ∧ ofText Zone.recorded ("@weekly @tz Europe/Berlin" ++ " " ++ "@at [9:30, 17:30]")
        = ⟨(ofText Zone.recorded "@weekly @tz Europe/Berlin").rules
          ++ (ofText Zone.recorded "@at [9:30, 17:30]").rules, []⟩ := by
  obtain ⟨e, he, -⟩ :=
    Expression.exists_of_any Zone.recorded "@weekly @tz Europe/Berlin" Expression.standardCeiling
    (fun _ => true) (by decide +kernel)
  have hproblems : (ofText Zone.recorded "@at [9:30, 17:30]").problems = [] := by decide +kernel
  have hkeyword :
      ((Token.scan Zone.recorded "@at [9:30, 17:30]").head?.bind keyword?) = some .pick := by
    decide +kernel
  refine ⟨⟨e, he⟩, ofText_append (by decide) he hproblems ?_⟩
  obtain ⟨t, ht, hk⟩ := Option.bind_eq_some_iff.1 hkeyword
  obtain ⟨ts, hts⟩ := List.head?_eq_some_iff.1 ht
  exact ⟨t, ts, .pick, hts, kind_of_keyword? hk⟩

end Parsed

end Recurrence
