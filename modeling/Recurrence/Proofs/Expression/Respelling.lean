import Recurrence.Proofs.Expression.RoundTrips
import Recurrence.Proofs.Resolution.LetterCase
import Recurrence.Proofs.Rule.Respelling
import Recurrence.Proofs.Search.RecastPlans
import Recurrence.Zone.Offsets

/-!
Expressions spelled another way. The tokens of a text, and with them its clauses, say the same in
every spelling; so an accepted text is accepted in every spelling, with rules that are the same up
to the letter case. What their texts stand for is the same, and so is whatever is asked of the
rules.

Main statement: `Expression.parse_respelled`.
-/

namespace Recurrence

open Token

variable {D : Zone.Database} {zoned : Bool} {t u : Token} {ts us : List Token} {c c' : Clause}
  {text : String}

/-! ### Clauses of tokens that are alike -/

namespace Token

lemma Alike.endOfInput_iff (h : t.Alike zoned u) : t.kind = .endOfInput ↔ u.kind = .endOfInput := by
  have hodd {t : Token} (hk : t.kind = .endOfInput) : ¬ t.Odd := by
    rintro (h | h) <;> rw [hk] at h <;> cases h
  constructor
  · exact fun hk => (h.kind_of_not_odd (hodd hk)).1.trans hk
  · exact fun hk => (h.symm.kind_of_not_odd (hodd hk)).1.trans hk

lemma AlikeFrom.forall₂ (h : AlikeFrom zoned ts us) :
    List.Forall₂ (fun t u => ¬ t.Odd → u.kind = t.kind ∧ u.fault = t.fault) ts us := by
  induction h with
  | nil => exact .nil
  | cons htu _ _ ih => exact .cons htu.kind_of_not_odd ih

lemma AlikeFrom.takeWhile (h : AlikeFrom zoned ts us) :
    AlikeFrom zoned (ts.takeWhile fun t => t.kind ≠ .endOfInput)
      (us.takeWhile fun t => t.kind ≠ .endOfInput) := by
  induction h with
  | nil => exact .nil _
  | @cons zoned t u ts us htu hnext _ ih =>
    rw [List.takeWhile_cons, List.takeWhile_cons]
    by_cases hk : t.kind = .endOfInput
    · rw [if_neg (by simpa using hk), if_neg (by simpa using htu.endOfInput_iff.1 hk)]
      exact .nil _
    · rw [if_pos (by simpa using hk), if_pos (by simpa using mt htu.endOfInput_iff.2 hk)]
      refine .cons htu (fun hz hzone v hv => hnext hz hzone v ?_) ih
      cases ts with
      | nil => cases hv
      | cons t' ts =>
        rw [List.takeWhile_cons] at hv
        split at hv
        · exact hv
        · cases hv

end Token

namespace Clause

lemma head?_split {v : Token} (hv : v ∈ (split ts).1.head?) : v ∈ ts.head? := by
  cases ts with
  | nil => exact hv
  | cons t ts =>
    cases ht : t.keyword? with
    | none =>
      rw [split_cons_of_not_keyword _ ht] at hv
      exact hv
    | some q =>
      rw [split_cons_of_keyword _ ht] at hv
      cases hv

lemma split_alike (h : AlikeFrom zoned ts us) :
    AlikeFrom zoned (split ts).1 (split us).1 ∧ List.Forall₂ Alike (split ts).2 (split us).2 := by
  induction h with
  | nil => exact ⟨.nil _, .nil⟩
  | @cons zoned t u ts us htu hnext _ ih =>
    cases ht : t.keyword? with
    | none =>
      rw [split_cons_of_not_keyword _ ht, split_cons_of_not_keyword _ (htu.keyword ▸ ht)]
      exact ⟨.cons htu (fun hz hk v hv => hnext hz hk v (head?_split hv)) ih.1, ih.2⟩
    | some q =>
      have hkind := kind_of_keyword? ht
      rw [split_cons_of_keyword _ ht, split_cons_of_keyword _ (htu.keyword ▸ ht)]
      have hodd : ¬ t.Odd := by
        rintro (h | h) <;> rw [hkind] at h <;> cases h
      have hbody := ih.1
      rw [show t.expects zoned = decide (q = .zone) by rw [expects, hkind]] at hbody
      exact ⟨.nil _, .cons ⟨rfl, (htu.kind_of_not_odd hodd).2, hbody⟩ ih.2⟩

end Clause

namespace Parsed

/-- A clause that says what an accepted one does has no problem. -/
lemma ofClause_alike (h : c.Alike c') (hc : c.Scanned) (hproblems : (ofClause c).problems = [])
    (hm : ∀ r ∈ (ofClause c).rules.map WrittenRule.rule, r.Meaningful) : (ofClause c').problems = []
      ∧ ((ofClause c').rules.map WrittenRule.rule).map (Rule.recast Char.toLower)
        = ((ofClause c).rules.map WrittenRule.rule).map (Rule.recast Char.toLower) := by
  obtain ⟨hvalid, rules, hread, hrules⟩ := ofClause_eq_ok hproblems
  obtain ⟨hhead, hbody⟩ := List.forall_mem_cons.1 hvalid
  rw [hrules] at hm ⊢
  obtain ⟨hbody', rules', hread', hrecast⟩ := Rule.ofClause_alike h hc hbody hread hm
  have hvalid' : ∀ t ∈ c'.tokens, t.isValid = true := by
    have hnone : ∀ t ∈ c'.tokens, t.fault = none :=
      List.forall_mem_cons.2 ⟨h.fault.trans hhead, hbody'⟩
    exact fun t ht => by rw [isValid, hnone t ht]; rfl
  rw [ofClause_of_valid hvalid' hread', List.map_map]
  exact ⟨rfl, by simpa [Function.comp_def] using hrecast⟩

lemma clauses_alike {cs cs' : List Clause} (h : List.Forall₂ Clause.Alike cs cs')
    (hcs : ∀ c ∈ cs, c.Scanned)
    (hproblems : ∀ c ∈ cs, (ofClause c).problems = [])
    (hm : ∀ c ∈ cs, ∀ r ∈ (ofClause c).rules.map WrittenRule.rule, r.Meaningful) :
    (cs'.flatMap fun c => (ofClause c).problems) = []
      ∧ ((cs'.flatMap fun c => (ofClause c).rules).map WrittenRule.rule).map
        (Rule.recast Char.toLower)
        = ((cs.flatMap fun c => (ofClause c).rules).map WrittenRule.rule).map
          (Rule.recast Char.toLower) := by
  induction h with
  | nil => exact ⟨rfl, rfl⟩
  | cons hc _ ih =>
    obtain ⟨hscanned, hscans⟩ := List.forall_mem_cons.1 hcs
    obtain ⟨hnone, hnones⟩ := List.forall_mem_cons.1 hproblems
    obtain ⟨hmean, hmeans⟩ := List.forall_mem_cons.1 hm
    obtain ⟨hfirst, hrules⟩ := ofClause_alike hc hscanned hnone hmean
    obtain ⟨hrest, hothers⟩ := ih hscans hnones hmeans
    rw [List.flatMap_cons, List.flatMap_cons, List.flatMap_cons, hfirst, hrest]
    simp only [List.map_append]
    rw [hrules, hothers]
    exact ⟨rfl, rfl⟩

/-- **A text with the tokens of an accepted one has its rules,** up to the letter case. -/
theorem ofText_alike {first second : String}
    (h : AlikeFrom false (Token.scan D first) (Token.scan D second))
    (hproblems : (ofText D first).problems = [])
    (hm : ∀ r ∈ (ofText D first).rules.map WrittenRule.rule, r.Meaningful) :
    (ofText D second).problems = []
      ∧ ((ofText D second).rules.map WrittenRule.rule).map (Rule.recast Char.toLower)
        = ((ofText D first).rules.map WrittenRule.rule).map (Rule.recast Char.toLower) := by
  obtain ⟨hlead, hclauses⟩ := Clause.split_alike h.takeWhile
  rw [ofText_eq] at hproblems hm ⊢
  rw [ofText_eq]
  obtain ⟨hfirst, hnone⟩ := List.append_eq_nil_iff.1 hproblems
  obtain ⟨hrest, hrules⟩ := clauses_alike hclauses (fun c hc => Clause.scanned_of_split hc)
    (List.flatMap_eq_nil_iff.1 hnone) fun c hc r hr => hm r <| by
      obtain ⟨w, hw, rfl⟩ := List.mem_map.1 hr
      exact List.mem_map_of_mem (List.mem_flatMap.2 ⟨c, hc, hw⟩)
  have hlead' := problems_ofLead_congr (hlead.forall₂.imp fun t u htu ht =>
    (htu (not_odd_of_isTrivia ht)).imp_right fun hsame hvalid => hsame.trans hvalid) hfirst
  exact ⟨List.append_eq_nil_iff.2 ⟨hlead', hrest⟩, hrules⟩

end Parsed

/-! ### Expressions -/

lemma Resolution.kept_toLower : Resolution.Kept Char.toLower := ofText_toLower

namespace Expression

lemma parse_alike {first second : String} {ceiling : Nat} {e : Expression}
    (h : AlikeFrom false (Token.scan D first) (Token.scan D second))
    (hfirst : parse D first ceiling = .ok e) :
    ∃ e', parse D second ceiling = .ok e'
      ∧ e'.rules.map (Rule.recast Char.toLower) = e.rules.map (Rule.recast Char.toLower) := by
  obtain ⟨hproblems, hconflict, hrules⟩ := parse_eq_ok hfirst
  rw [hrules] at hconflict
  obtain ⟨hsecond, hrecast⟩ :=
    Parsed.ofText_alike h hproblems (RuleSet.meaningful_of_conflict hconflict)
  have hstands : RuleSet.Stands D ((Parsed.ofText D second).rules.map WrittenRule.rule) := by
    rw [← RuleSet.stands_recast Resolution.kept_toLower, hrecast,
      RuleSet.stands_recast Resolution.kept_toLower]
    exact RuleSet.conflict?_eq_none_iff.1 hconflict
  obtain ⟨e', hparsed, hsame⟩ :=
    parse_of_rules hsecond rfl (RuleSet.conflict?_eq_none_iff.2 hstands) ceiling
  exact ⟨e', hparsed, by rw [hsame, hrules]; exact hrecast⟩

/-- **Spelling does not matter.** Two texts that differ in the letter case of what is no name of a
zone, and in whether keywords have their at sign, are both rejected or both accepted. Accepted, they
name the same zone and are in the same zone; whatever is asked of them, one search after the other,
they find the same and look at the same times. -/
theorem parse_respelled (D : Zone.Database) {first second : String}
    (h : Respells false (Token.scan D first) (second.toList ++ ['\x00'])) (ceiling : Nat) :
    (∃ problems problems', parse D first ceiling = .error problems
      ∧ parse D second ceiling = .error problems')
      ∨ ∃ e e', parse D first ceiling = .ok e ∧ parse D second ceiling = .ok e'
        ∧ e'.zoneName? = e.zoneName?
        ∧ e'.zone? = e.zone?
        ∧ (∀ base queries, (Search.fresh (Plan.conditions e'.rules base)).answers queries
          = (Search.fresh (Plan.conditions e.rules base)).answers queries)
        ∧ ∀ zone base count bound,
          e'.occurrences zone base count bound = e.occurrences zone base count bound
            ∧ (series e'.rules (e'.zoneOr zone) ceiling base count bound).2.trace
              = (series e.rules (e.zoneOr zone) ceiling base count bound).2.trace := by
  have htokens := alike_scan h
  cases hfirst : parse D first ceiling with
  -- a text that is accepted would have the other one accepted, by symmetry
  | error problems =>
    cases hsecond : parse D second ceiling with
    | error problems' => exact Or.inl ⟨problems, problems', rfl, rfl⟩
    | ok e' =>
      obtain ⟨e, he, -⟩ := parse_alike htokens.symm hsecond
      rw [hfirst] at he
      cases he
  | ok e =>
    obtain ⟨e', hsecond, hrecast⟩ := parse_alike htokens hfirst
    -- small letters leave the names of zones as they are
    have hzones : RuleSet.zones e'.rules = RuleSet.zones e.rules := by
      rw [← RuleSet.zones_recast Char.toLower, hrecast, RuleSet.zones_recast]
    have hzone : e'.zone? = e.zone? := by
      rw [congrArg zone? (eq_of_parse hsecond), congrArg zone? (eq_of_parse hfirst),
        RuleSet.zone?, RuleSet.zone?, hzones]
    -- what texts stand for is the same in small letters, so the plans ask for the same steps
    have halike := Search.alike_of_recast Resolution.kept_toLower hrecast
    refine Or.inr ⟨e, e', rfl, hsecond, congrArg List.head? hzones, hzone,
      fun base queries => (halike base).answers queries, fun zone base count bound => ?_⟩
    have hzoneOr : e'.zoneOr zone = e.zoneOr zone := by rw [zoneOr, zoneOr, hzone]
    obtain ⟨hfound, htrace⟩ :=
      (halike ((e.zoneOr zone).toLocal base)).instants (e.zoneOr zone) ceiling bound
      count base
    rw [occurrences, occurrences, hzoneOr, congrArg Expression.ceiling (eq_of_parse hfirst),
      congrArg Expression.ceiling (eq_of_parse hsecond)]
    exact ⟨hfound, htrace rfl⟩

/-- The keywords lose their at signs, and nothing but the zone keeps its letter case. -/
theorem parse_respelled_small :
    Respells false
      (Token.scan Zone.recorded "@every 2 weeks AnchoredOn Monday @at 9am @tz Europe/Berlin")
        ("EVERY 2 Weeks anchoredon MONDAY at 9AM TZ Europe/Berlin".toList ++ ['\x00'])
      ∧ ∃ e e', parse Zone.recorded "@every 2 weeks AnchoredOn Monday @at 9am @tz Europe/Berlin"
        standardCeiling = .ok e
        ∧ parse Zone.recorded "EVERY 2 Weeks anchoredon MONDAY at 9AM TZ Europe/Berlin"
          standardCeiling = .ok e'
        ∧ e'.zone? = e.zone? ∧ ∀ zone base count bound,
          e'.occurrences zone base count bound = e.occurrences zone base count bound := by
  have hsaid : saidBy false
      (Token.scan Zone.recorded "@every 2 weeks AnchoredOn Monday @at 9am @tz Europe/Berlin")
      ["EVERY", " ", "2", " ", "Weeks", " ", "anchoredon", " ", "MONDAY", " ", "at", " ", "9", "AM",
        " ", "TZ", " ", "Europe/Berlin", "\x00"] = true := by decide +kernel
  have htext :
      ["EVERY", " ", "2", " ", "Weeks", " ", "anchoredon", " ", "MONDAY", " ", "at", " ", "9", "AM",
        " ", "TZ", " ", "Europe/Berlin", "\x00"].flatMap String.toList
      = "EVERY 2 Weeks anchoredon MONDAY at 9AM TZ Europe/Berlin".toList ++ ['\x00'] := by
    decide +kernel
  have hrespells := Respells.of_pieces hsaid
  rw [htext] at hrespells
  refine ⟨hrespells, ?_⟩
  obtain ⟨e, he, -⟩ :=
    exists_of_any Zone.recorded "@every 2 weeks AnchoredOn Monday @at 9am @tz Europe/Berlin"
      standardCeiling (fun _ => true) (by decide +kernel)
  rcases parse_respelled Zone.recorded hrespells standardCeiling with
    ⟨_, _, hrejected, -⟩ | ⟨e₁, e', he₁, he', -, hzone, -, h⟩
  · rw [he] at hrejected
    cases hrejected
  · exact ⟨e₁, e', he₁, he', hzone, fun zone base count bound => (h zone base count bound).1⟩

end Expression

end Recurrence
