import Recurrence.Expression
import Recurrence.Proofs.Rule.Misreadings

/-!
Texts, written again in canonical form. The rules of a text that is accepted are those of its
clauses, each of them as a clause leaves it; the canonical texts of the rules, one space apart, are
clauses that are read as the same rules, as long as each of the rules can be said.

Main statements: `Expression.parse_canonical_iff` and `Expression.parse_canonical_of_populated`.
-/

namespace Recurrence

open Token Scan

variable {D : Zone.Database} {ts us : List Token} {ls : List Lexeme} {rules : List Rule}
  {clauses : List Clause}

/-! ### Clauses of a text -/

namespace Clause

/-- What is in front of the first keyword of a text, and the clauses of the text. -/
def splitText (D : Zone.Database) (text : String) : List Token × List Clause :=
  split ((Token.scan D text).takeWhile fun t => t.kind ≠ .endOfInput)

def runsOfText (D : Zone.Database) (text : String) : List ValueRun :=
  (splitText D text).2.flatMap valueRuns

lemma split_append (h : ∀ t ∈ ts, t.keyword? = none) (us : List Token) :
    split (ts ++ us) = (ts ++ (split us).1, (split us).2) := by
  induction ts with
  | nil => rfl
  | cons t ts ih =>
    obtain ⟨ht, hts⟩ := List.forall_mem_cons.1 h
    rw [List.cons_append, split_cons_of_not_keyword _ ht, ih hts]
    rfl

end Clause

lemma keyword?_of_kind {t : Token} (h : ∀ k, t.kind ≠ .keyword k) : t.keyword? = none := by
  rw [← Option.not_isSome_iff_eq_none, Option.isSome_iff_exists]
  rintro ⟨q, hq⟩
  exact h q (kind_of_keyword? hq)

lemma Token.Spells.isValid {t : Token} {l : Lexeme} (h : t.Spells l) : t.isValid = true := by
  obtain ⟨_, _, _, rfl⟩ := h
  rfl

variable {P : Rule → Except Malformed (List Rule) → Prop}

/-- The canonical texts of rules, one space apart, are one clause each. -/
theorem reads_rules (h : ∀ r ∈ rules, r.SaidAs (P r)) (hne : rules ≠ []) :
    ∃ ls, Reads [' ', '\x00'] (" ".intercalate (rules.map Rule.canonical)).toList ls
      ∧ (∀ l ∈ ls, l.kind ≠ .endOfInput)
      ∧ ∀ ts, Spell ts ls → ∃ clauses, Clause.split ts = ([], clauses)
        ∧ List.Forall₂ (fun c r => P r (Rule.ofClause c)) clauses rules := by
  induction rules with
  | nil => exact absurd rfl hne
  | cons r rules ih =>
    obtain ⟨⟨k, w, ls, hreads, hclosed, hbody, hread⟩, hrest⟩ := List.forall_mem_cons.1 h
    have hword {head : Token} (hh : head.Spells ⟨.keyword k, w⟩) : head.keyword? = some k := by
      rw [keyword?, hh.kind]
    have hfree {us : List Token} (hus : Spell us ls) : ∀ t ∈ us, t.keyword? = none :=
      fun t ht => keyword?_of_kind
        (hus.forall_kind (P := fun kind => ∀ k, kind ≠ .keyword k) (fun l hl => (hbody l hl).1) t
          ht)
    cases rules with
    | nil =>
      refine ⟨_, by simpa using hreads, ?_, fun ts hts => ?_⟩
      · exact List.forall_mem_cons.2 ⟨by simp, fun l hl => (hbody l hl).2⟩
      · obtain ⟨head, us, hhead, hus, rfl⟩ := List.forall₂_cons_right_iff.1 hts
        have hsplit : Clause.split (us ++ []) = (us ++ [], []) :=
          Clause.split_append (hfree hus) []
        rw [← List.append_nil us]
        exact ⟨[⟨k, head, us ++ []⟩], by rw [Clause.split_cons_of_keyword _ (hword hhead), hsplit],
          .cons (hread head us [] hus (by simp)) .nil⟩
    | cons r' rules =>
      obtain ⟨ls', hreads', hends', hclauses⟩ := ih hrest (by simp)
      have hall := hreads.spaced hreads' (by decide) (hclosed.cons _)
      refine ⟨_, by simpa [String.intercalate_cons_cons, String.toList_append] using hall, ?_,
        fun ts hts => ?_⟩
      · refine List.forall_mem_append.2 ⟨List.forall_mem_cons.2
          ⟨by simp, fun l hl => (hbody l hl).2⟩, List.forall_mem_cons.2 ⟨?_, hends'⟩⟩
        simp [Lexeme.blank]
      · obtain ⟨head, _, hhead, h₁, rfl⟩ := List.forall₂_cons_right_iff.1 hts
        obtain ⟨us, _, rfl, hus, h₂⟩ := spell_append h₁
        obtain ⟨line, column, endColumn, vs, rfl, hvs⟩ := spell_cons h₂
        obtain ⟨clauses, hsplit, hread'⟩ := hclauses vs hvs
        -- the blank between the two clauses is at the end of the first
        have hblank : (Lexeme.blank.placed line column endColumn).keyword? = none := rfl
        have hlead :=
          Clause.split_append (hfree hus) (Lexeme.blank.placed line column endColumn :: vs)
        rw [Clause.split_cons_of_not_keyword _ hblank, hsplit] at hlead
        refine ⟨_, by rw [Clause.split_cons_of_keyword _ (hword hhead), hlead],
          .cons ?_ hread'⟩
        exact hread head us [_] hus (List.forall_mem_singleton.2 ⟨_, _, _, rfl⟩)

/-! ### Whole texts -/

namespace Parsed

variable {text : String}

lemma foldl_append (p : Parsed) (clauses : List Clause) :
    clauses.foldl (fun p c => p.append (ofClause c)) p
      = ⟨p.rules ++ clauses.flatMap fun c => (ofClause c).rules,
        p.problems ++ clauses.flatMap fun c => (ofClause c).problems⟩ := by
  induction clauses generalizing p with
  | nil => simp
  | cons c clauses ih =>
    rw [List.foldl_cons, ih]
    simp [append]

lemma ofClause_eq_ok {c : Clause} (h : (ofClause c).problems = []) :
    (∀ t ∈ c.tokens, t.fault = none) ∧ ∃ rules, Rule.ofClause c = .ok rules
      ∧ (ofClause c).rules.map WrittenRule.rule = rules := by
  unfold ofClause at h ⊢
  split at h
  · rename_i hfault
    obtain ⟨t, ht, hvalid⟩ := List.any_eq_true.1 hfault
    have hmem := List.filterMap_eq_nil_iff.1 (show Token.diagnostics c.tokens = [] from h) t ht
    rw [isValid, Option.map_eq_none_iff.1 hmem] at hvalid
    cases hvalid
  · rename_i hvalid
    rw [if_neg hvalid]
    refine ⟨fun t ht => ?_, ?_⟩
    · by_contra hf
      refine hvalid (List.any_eq_true.2 ⟨t, ht, ?_⟩)
      rw [isValid, Option.isNone_eq_false_iff.2 (Option.isSome_iff_ne_none.2 hf)]
      rfl
    · split at h
      · rename_i rules hrules
        exact ⟨rules, hrules, by simp [Function.comp_def]⟩
      · cases h

lemma rules_ofLead (lead : List Token) : (ofLead lead).rules = [] := by
  unfold ofLead
  split
  · rfl
  · split <;> rfl

lemma problems_ofLead :
    (ofLead ts).problems = [] ↔ ∀ t ∈ ts, t.fault = none ∧ t.isTrivia = true := by
  have hfault (t : Token) : (!t.isValid) = true ↔ t.fault ≠ none := by
    rw [isValid, Bool.not_eq_true', Option.isNone_eq_false_iff, Option.isSome_iff_ne_none]
  unfold ofLead
  split
  · rename_i h
    obtain ⟨t, ht, hf⟩ := List.any_eq_true.1 h
    rw [hfault] at hf
    refine iff_of_false (fun hnil => hf ?_) fun hall => hf (hall t ht).1
    exact Option.map_eq_none_iff.1 (List.filterMap_eq_nil_iff.1 hnil t ht)
  · rename_i hvalid
    have hvalid : ∀ t ∈ ts, t.fault = none := fun t ht => by
      by_contra hf
      exact hvalid (List.any_eq_true.2 ⟨t, ht, (hfault t).2 hf⟩)
    split
    · rename_i h
      obtain ⟨t, ht, hf⟩ := List.any_eq_true.1 h
      rw [Bool.not_eq_true'] at hf
      exact iff_of_false (List.cons_ne_nil _ _) fun hall => by simp [(hall t ht).2] at hf
    · rename_i htrivia
      refine iff_of_true rfl fun t ht => ⟨hvalid t ht, ?_⟩
      by_contra hf
      exact htrivia (List.any_eq_true.2 ⟨t, ht, by rw [Bool.not_eq_true] at hf; rw [hf]; rfl⟩)

lemma problems_ofLead_congr (h : List.Forall₂ (fun t u : Token => t.isTrivia = true →
    u.kind = t.kind ∧ (t.fault = none → u.fault = none)) ts us) (hts : (ofLead ts).problems = []) :
    (ofLead us).problems = [] := by
  rw [problems_ofLead] at hts ⊢
  induction h with
  | nil => exact hts
  | cons htu _ ih =>
    obtain ⟨⟨hfault, htrivia⟩, hrest⟩ := List.forall_mem_cons.1 hts
    obtain ⟨hkind, hvalid⟩ := htu htrivia
    refine List.forall_mem_cons.2 ⟨⟨hvalid hfault, ?_⟩, ih hrest⟩
    rw [isTrivia, hkind]
    exact htrivia

lemma ofTokens_eq (ts : List Token) : ofTokens ts
    = ⟨(Clause.split (ts.takeWhile fun t => t.kind ≠ .endOfInput)).2.flatMap
      fun c => (ofClause c).rules,
      (ofLead (Clause.split (ts.takeWhile fun t => t.kind ≠ .endOfInput)).1).problems
        ++ (Clause.split (ts.takeWhile fun t => t.kind ≠ .endOfInput)).2.flatMap fun c =>
          (ofClause c).problems⟩ := by
  have hfold : ofTokens ts = (Clause.split (ts.takeWhile fun t => t.kind ≠ .endOfInput)).2.foldl
      (fun p c => p.append (ofClause c))
      (ofLead (Clause.split (ts.takeWhile fun t => t.kind ≠ .endOfInput)).1) := rfl
  rw [hfold, foldl_append, rules_ofLead, List.nil_append]

lemma ofText_eq (D : Zone.Database) (text : String) : ofText D text
    = ⟨(Clause.splitText D text).2.flatMap fun c => (ofClause c).rules,
      (ofLead (Clause.splitText D text).1).problems
        ++ (Clause.splitText D text).2.flatMap fun c => (ofClause c).problems⟩ :=
  ofTokens_eq (Token.scan D text)

/-- The clauses of a text without a problem have valid tokens, and the rules of the text are those
that the clauses are read as. -/
lemma rules_of_problems (h : (ofText D text).problems = []) :
    (∀ c ∈ (Clause.splitText D text).2, ∀ t ∈ c.tokens, t.fault = none)
      ∧ ∃ groups, List.Forall₂ (fun c rules => Rule.ofClause c = .ok rules)
          (Clause.splitText D text).2 groups
        ∧ (ofText D text).rules.map WrittenRule.rule = groups.flatten := by
  rw [ofText_eq] at h ⊢
  have hclauses := List.flatMap_eq_nil_iff.1 (List.append_eq_nil_iff.1 h).2
  generalize (Clause.splitText D text).2 = clauses at hclauses
  refine ⟨fun c hc => (ofClause_eq_ok (hclauses c hc)).1, ?_⟩
  induction clauses with
  | nil => exact ⟨[], .nil, rfl⟩
  | cons c clauses ih =>
    obtain ⟨hc, hrest⟩ := List.forall_mem_cons.1 hclauses
    obtain ⟨-, rules, hrules, hmap⟩ := ofClause_eq_ok hc
    obtain ⟨groups, hgroups, hflat⟩ := ih hrest
    refine ⟨rules :: groups, .cons hrules hgroups, ?_⟩
    rw [List.flatMap_cons, List.map_append, hmap, hflat, List.flatten_cons]

lemma ofClause_of_valid {c : Clause} (hvalid : ∀ t ∈ c.tokens, t.isValid = true)
    (h : Rule.ofClause c = .ok rules) :
    ofClause c = ⟨rules.map fun r => ⟨r, c.source⟩, []⟩ := by
  have hany : ¬(c.tokens.any fun t => !t.isValid) = true := by
    rw [List.any_eq_true]
    rintro ⟨t, ht, hf⟩
    simp [hvalid t ht] at hf
  rw [ofClause, if_neg hany, h]

lemma ofText_of_clauses (hsplit : Clause.splitText D text = ([], clauses))
    (hvalid : ∀ c ∈ clauses, ∀ t ∈ c.tokens, t.isValid = true)
    (h : List.Forall₂ (fun c r => Rule.ofClause c = .ok [r]) clauses rules) :
    (ofText D text).problems = [] ∧ (ofText D text).rules.map WrittenRule.rule = rules := by
  rw [ofText_eq, hsplit]
  clear hsplit
  induction h with
  | nil => exact ⟨rfl, rfl⟩
  | cons hread _ ih =>
    obtain ⟨hclause, hrest⟩ := List.forall_mem_cons.1 hvalid
    obtain ⟨hproblems, hrules⟩ := ih hrest
    simp only [List.flatMap_cons, ofClause_of_valid hclause hread]
    exact ⟨hproblems, congrArg (_ :: ·) hrules⟩

end Parsed

lemma splitText_canonical (h : ∀ r ∈ rules, r.SaidAs (P r)) (hne : rules ≠ []) :
    ∃ clauses, Clause.splitText D (" ".intercalate (rules.map Rule.canonical)) = ([], clauses)
      ∧ (∀ c ∈ clauses, ∀ t ∈ c.tokens, t.isValid = true)
      ∧ List.Forall₂ (fun c r => P r (Rule.ofClause c)) clauses rules := by
  obtain ⟨ls, hreads, hends, hclauses⟩ := reads_rules h hne
  obtain ⟨ts, e, hscan, hts, he⟩ := scan_eq hreads (by simp)
  rw [String.ofList_toList] at hscan
  obtain ⟨clauses, hsplit, hread⟩ := hclauses ts hts
  have htake : (ts ++ [e]).takeWhile (fun t => t.kind ≠ .endOfInput) = ts :=
    takeWhile_kind_ne (hts.forall_kind (P := fun k => k ≠ .endOfInput) hends) he []
  refine ⟨clauses, by rw [Clause.splitText, hscan, htake, hsplit], fun c hc t ht => ?_, hread⟩
  have htokens := Clause.split_tokens ts
  rw [hsplit, List.nil_append] at htokens
  obtain ⟨l, -, hspells⟩ := Rule.exists_of_forall₂ hts.flip
    (b := t) (htokens ▸ List.mem_flatMap.2 ⟨c, hc, ht⟩)
  exact Spells.isValid hspells

namespace Expression

variable {text : String} {ceiling : Nat} {e e' : Expression}

/-- The canonical text: those of the rules, one space apart. -/
def canonical (e : Expression) : String := " ".intercalate (e.rules.map Rule.canonical)

lemma parse_eq_ok (h : parse D text ceiling = .ok e) : (Parsed.ofText D text).problems = []
    ∧ RuleSet.conflict? D e.rules = none
    ∧ e.rules = (Parsed.ofText D text).rules.map WrittenRule.rule := by
  unfold parse at h
  dsimp only at h
  split at h
  · cases h
  rename_i hproblems
  split at h
  · cases h
  rename_i hconflict
  cases h
  exact ⟨not_not.1 hproblems, hconflict, rfl⟩

lemma eq_of_parse (h : parse D text ceiling = .ok e) :
    e = ⟨text, (Parsed.ofText D text).rules, RuleSet.zone? D e.rules, ceiling⟩ := by
  unfold parse at h
  dsimp only at h
  split at h
  · cases h
  · split at h
    · cases h
    · cases h
      rfl

lemma parse_of_rules (hproblems : (Parsed.ofText D text).problems = [])
    (hrules : (Parsed.ofText D text).rules.map WrittenRule.rule = rules)
    (hconflict : RuleSet.conflict? D rules = none) (ceiling : Nat) :
    ∃ e, parse D text ceiling = .ok e ∧ e.rules = rules := by
  subst hrules
  refine ⟨⟨text, (Parsed.ofText D text).rules,
    RuleSet.zone? D ((Parsed.ofText D text).rules.map WrittenRule.rule), ceiling⟩, ?_, rfl⟩
  unfold parse
  simp [hproblems, hconflict]

lemma mem_rules_of_parse (h : parse D text ceiling = .ok e) {r : Rule} (hr : r ∈ e.rules) :
    ∃ c ∈ (Clause.splitText D text).2, ∃ rules, Rule.ofClause c = .ok rules ∧ r ∈ rules
      ∧ (c.head.Genuine ∧ c.head.kind = .keyword c.keyword)
      ∧ (c.keyword ≠ .zone → ∀ t ∈ c.body, t.Usable) := by
  obtain ⟨hproblems, -, hrules⟩ := parse_eq_ok h
  obtain ⟨hvalid, groups, hgroups, hflat⟩ := Parsed.rules_of_problems hproblems
  rw [hrules, hflat, List.mem_flatten] at hr
  obtain ⟨rules, hmem, hr⟩ := hr
  obtain ⟨c, hc, hread⟩ := Rule.exists_of_forall₂ hgroups hmem
  obtain ⟨hhead, hbody⟩ := genuine_of_split_scan hc
  refine ⟨c, hc, rules, hread, hr, hhead, fun hk t ht => ⟨hbody hk t ht, ?_, ?_⟩⟩
  · exact hvalid c hc t (List.mem_cons_of_mem _ ht)
  · exact (Clause.not_keyword_of_split _).2 c hc t ht

/-- The rules of an accepted text look as clauses leave them. -/
theorem formed_of_parse (h : parse D text ceiling = .ok e) : ∀ r ∈ e.rules, r.Formed := by
  intro r hr
  obtain ⟨c, -, rules, hread, hmem, hhead, hbody⟩ := mem_rules_of_parse h hr
  exact Rule.formed_of_ofClause hhead hbody hread r hmem

lemma rules_ne_nil (h : parse D text ceiling = .ok e) : e.rules ≠ [] := by
  intro hnil
  obtain ⟨-, hconflict, -⟩ := parse_eq_ok h
  rw [hnil] at hconflict
  cases hconflict

/-- The canonical text is read as the rules, if it can say each of them. -/
theorem parse_canonical (h : parse D text ceiling = .ok e)
    (hw : ∀ r ∈ e.rules, r.isWritable = true) :
    ∃ e', parse D e.canonical ceiling = .ok e' ∧ e'.rules = e.rules := by
  have hmeaningful := RuleSet.meaningful_of_conflict (parse_eq_ok h).2.1
  obtain ⟨clauses, hsplit, hvalid, hread⟩ := splitText_canonical (P := fun r x => x = .ok [r])
    (fun r hr => (formed_of_parse h r hr).restored (hmeaningful r hr) (hw r hr)) (rules_ne_nil h)
  obtain ⟨hproblems, hrules⟩ := Parsed.ofText_of_clauses hsplit hvalid hread
  exact parse_of_rules hproblems hrules (parse_eq_ok h).2.1 ceiling

lemma forall_of_flatten {Q : Rule → Prop} {groups : List (List Rule)}
    (h : List.Forall₂ (fun group r => ∃ r', group = [r'] ∧ (r' = r → Q r)) groups rules)
    (hflat : groups.flatten = rules) : ∀ r ∈ rules, Q r := by
  induction h with
  | nil => simp
  | cons hgroup _ ih =>
    obtain ⟨r', rfl, hq⟩ := hgroup
    obtain ⟨heq, hrest⟩ := List.cons.inj hflat
    exact List.forall_mem_cons.2 ⟨hq heq, ih hrest⟩

/-- A canonical text that is read as the rules can say each of them. -/
theorem writable_of_parse_canonical (h : parse D text ceiling = .ok e)
    (h' : parse D e.canonical ceiling = .ok e') (hrules : e'.rules = e.rules) :
    ∀ r ∈ e.rules, r.isWritable = true := by
  have hmeaningful := RuleSet.meaningful_of_conflict (parse_eq_ok h).2.1
  obtain ⟨clauses, hsplit, -, hread⟩ := splitText_canonical (fun r hr =>
    (formed_of_parse h r hr).recognized (hmeaningful r hr)) (rules_ne_nil h)
  obtain ⟨hproblems, -, heq⟩ := parse_eq_ok h'
  obtain ⟨-, groups, hgroups, hflat⟩ := Parsed.rules_of_problems hproblems
  rw [canonical, hsplit] at hgroups
  rw [heq, hflat] at hrules
  refine forall_of_flatten (Rule.forall₂_of_common ?_ hgroups.flip hread.flip) hrules
  exact fun group c r hgroup hr => hr group hgroup

lemma exists_of_any (D : Zone.Database) (text : String) (ceiling : Nat) (p : Expression → Bool)
    (h : (parse D text ceiling).toOption.any p = true) :
    ∃ e, parse D text ceiling = .ok e ∧ p e = true := by
  cases he : parse D text ceiling with
  | error => rw [he] at h; cases h
  | ok e => exact ⟨e, rfl, by rwa [he] at h⟩

/-- The canonical text of an accepted text is read as the same rules exactly if it can say each of
them. -/
theorem parse_canonical_iff (h : parse D text ceiling = .ok e) :
    (∃ e', parse D e.canonical ceiling = .ok e' ∧ e'.rules = e.rules)
      ↔ ∀ r ∈ e.rules, r.isWritable = true :=
  ⟨fun ⟨_, h', hrules⟩ => writable_of_parse_canonical h h' hrules, parse_canonical h⟩

/-- Days with clock times can be said, and are read again. -/
theorem parse_canonical_iff_clock_times :
    ∃ e, parse .empty "@at [1st 9:00, ClosestWeekdayTo 15 17:30]" standardCeiling = .ok e
      ∧ ∃ e', parse .empty e.canonical standardCeiling = .ok e' ∧ e'.rules = e.rules := by
  obtain ⟨e, he, hw⟩ :=
    exists_of_any .empty "@at [1st 9:00, ClosestWeekdayTo 15 17:30]" standardCeiling
    (fun e => e.rules.all Rule.isWritable) (by decide +kernel)
  exact ⟨e, he, (parse_canonical_iff he).2 fun r hr => List.all_eq_true.1 hw r hr⟩

/-- A day with a bare hour makes no phrase. The list of it is written as `[day 1 hour 9]`, which is
no value. -/
theorem parse_canonical_bare_hour :
    (∃ run ∈ Clause.runsOfText .empty "@on [1st 9am]", 1 < run.populated)
      ∧ ∃ e, parse .empty "@on [1st 9am]" standardCeiling = .ok e
        ∧ ¬∃ e', parse .empty e.canonical standardCeiling = .ok e' ∧ e'.rules = e.rules := by
  refine ⟨by decide +kernel, ?_⟩
  obtain ⟨e, he, hcanonical⟩ := exists_of_any .empty "@on [1st 9am]" standardCeiling
    (fun e => e.canonical = "@at [day 1 hour 9]") (by decide +kernel)
  refine ⟨e, he, ?_⟩
  rintro ⟨e', he', -⟩
  rw [of_decide_eq_true hcanonical] at he'
  have hrefused : (parse .empty "@at [day 1 hour 9]" standardCeiling).toOption.isSome = false := by
    decide +kernel
  rw [he'] at hrefused
  cases hrefused

/-- The rules of an accepted text whose value runs get one unit each are read again from their
canonical text. -/
theorem parse_canonical_of_populated (h : parse D text ceiling = .ok e)
    (hone : ∀ run ∈ Clause.runsOfText D text, run.populated = 1) :
    ∃ e', parse D e.canonical ceiling = .ok e' ∧ e'.rules = e.rules := by
  refine parse_canonical h fun r hr => List.all_eq_true.2 fun v hv => ?_
  obtain ⟨c, hc, rules, hread, hmem, -, hbody⟩ := mem_rules_of_parse h hr
  have hsingle : ∀ run ∈ c.valueRuns, ∃ u value, run.read = .ok [(u, value)] := fun run hrun =>
    ValueRun.read_of_populated (hone run (List.mem_flatMap.2 ⟨c, hc, hrun⟩))
  obtain ⟨u, value, rfl, hsole⟩ := Rule.sole_of_ofClause (fun hk t ht => (hbody hk t ht).genuine)
    hsingle hread r hmem v hv
  rw [Values.isWritable, hsole.not_isPadded]
  rfl

theorem parse_canonical_of_populated_spring :
    ∃ e, parse .empty "@every 2 hours AnchoredOn 9 @in [month 3, Apr]"
        standardCeiling = .ok e
      ∧ ∃ e', parse .empty e.canonical standardCeiling = .ok e' ∧ e'.rules = e.rules := by
  obtain ⟨e, he, -⟩ := exists_of_any .empty "@every 2 hours AnchoredOn 9 @in [month 3, Apr]"
    standardCeiling (fun _ => true) (by decide +kernel)
  exact ⟨e, he, parse_canonical_of_populated he (by decide +kernel)⟩

end Expression

end Recurrence
