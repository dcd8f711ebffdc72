import Recurrence.Proofs.Expression.RoundTrips

/-!
What is reported of a text. The tokens that are read are those in front of the first keyword and
those of the clauses. Faulty tokens are reported one by one; a clause of good tokens is read as
rules or reported once, since no reader leaves a clause without a rule. Every problem has a place
among the tokens, and the places rise.

Main statement: `Parsed.ofText_reported`.
-/

namespace Recurrence

open Token

def Diagnostic.isLexical : Diagnostic → Bool
  | .lexical .. => true
  | _ => false

/-- The problem is the fault of the token, at the place of the token. -/
def Token.FaultIs (t : Token) (d : Diagnostic) : Prop :=
  ∃ f, t.fault = some f ∧ d = .lexical t.text t.line t.column f

/-- The problems are the faults of the invalid ones among the tokens, once each and in order. -/
def Token.FaultsAre (ts : List Token) (ds : List Diagnostic) : Prop :=
  List.Forall₂ FaultIs (ts.filter fun t => !t.isValid) ds

/-- What the tokens in front of the first keyword add to the problems. -/
inductive Parsed.LeadAdds (lead : List Token) : List Diagnostic → Prop
  | nothing (hvalid : ∀ t ∈ lead, t.isValid = true) (htrivia : ∀ t ∈ lead, t.isTrivia = true) :
      LeadAdds lead []
  | malformed (hvalid : ∀ t ∈ lead, t.isValid = true) (hmeaning : ∃ t ∈ lead, t.isTrivia = false) :
      LeadAdds lead [.malformed (sourceText lead) .keywordExpected]
  | faults {ds : List Diagnostic} (hinvalid : ∃ t ∈ lead, t.isValid = false)
    (h : FaultsAre lead ds) :
      LeadAdds lead ds

/-- What a clause adds: rules, or one problem of its own, or the faults of its tokens. -/
inductive Clause.Adds (c : Clause) : Parsed → Prop
  | rules {rules : List WrittenRule} (hvalid : ∀ t ∈ c.tokens, t.isValid = true) (hne : rules ≠ [])
      (hsource : ∀ r ∈ rules, r.source = c.source) : Adds c ⟨rules, []⟩
  | malformed (hvalid : ∀ t ∈ c.tokens, t.isValid = true) (cause : Malformed) :
      Adds c ⟨[], [.malformed c.source cause]⟩
  | faults {ds : List Diagnostic} (hinvalid : ∃ t ∈ c.tokens, t.isValid = false)
      (h : FaultsAre c.tokens ds) : Adds c ⟨[], ds⟩

/-- The problem is one of the token with the number `i`, or of the part of the tokens that starts
there. -/
inductive Parsed.Concerns (lead : List Token) (clauses : List Clause) : Nat → Diagnostic → Prop
  | fault {i : Nat} {t : Token} {d : Diagnostic}
      (ht : (lead ++ clauses.flatMap Clause.tokens)[i]? = some t) (hd : t.FaultIs d) :
      Concerns lead clauses i d
  | lead (hne : lead ≠ []) : Concerns lead clauses 0 (.malformed (sourceText lead) .keywordExpected)
  | clause {before after : List Clause} {c : Clause} (h : clauses = before ++ c :: after)
      (cause : Malformed) :
      Concerns lead clauses (lead ++ before.flatMap Clause.tokens).length
        (.malformed c.source cause)

/-- The problems have places from `start` on and before `stop`, each a later one than the problem
before it. -/
inductive Parsed.InOrder (at? : Nat → Diagnostic → Prop) : Nat → List Diagnostic → Nat → Prop
  | nil {start stop : Nat} (h : start ≤ stop) : InOrder at? start [] stop
  | cons {start i stop : Nat} {d : Diagnostic} {ds : List Diagnostic} (h : start ≤ i) (hd : at? i d)
      (hds : InOrder at? (i + 1) ds stop) : InOrder at? start (d :: ds) stop

/-- What is reported of tokens that are those of `lead` and then those of the clauses. -/
structure Parsed.Reported (ts lead : List Token) (clauses : List Clause) (p : Parsed) : Prop where
  /-- Every token is in front of the clauses or in one of them. -/
  tokens : lead ++ clauses.flatMap Clause.tokens = ts
  free : ∀ t ∈ lead, t.keyword? = none
  /-- A clause starts with the keyword that its first word is, and holds no other. -/
  clause : ∀ c ∈ clauses, c.head.keyword? = some c.keyword
    ∧ Keyword.ofWord? c.head.text = some c.keyword ∧ ∀ t ∈ c.body, t.keyword? = none
  /-- The rules and problems are those of the parts, one part after the other. -/
  parts : ∃ ds ps, LeadAdds lead ds ∧ List.Forall₂ Clause.Adds clauses ps
    ∧ p = ⟨ps.flatMap Parsed.rules, ds ++ ps.flatMap Parsed.problems⟩
  /-- The problems of single tokens are the faults of all tokens. -/
  faults : FaultsAre ts (p.problems.filter Diagnostic.isLexical)
  order : InOrder (Concerns lead clauses) 0 p.problems ts.length

/-! ### Faults -/

namespace Token

variable {ts us : List Token} {ds es : List Diagnostic}

lemma faultsAre_diagnostics (ts : List Token) : FaultsAre ts (Token.diagnostics ts) := by
  induction ts with
  | nil => exact .nil
  | cons t ts ih =>
    cases hf : t.fault with
    | none =>
      have hvalid : t.isValid = true := by rw [isValid, hf]; rfl
      simpa [FaultsAre, Token.diagnostics, hvalid, hf] using ih
    | some f =>
      have hvalid : t.isValid = false := by rw [isValid, hf]; rfl
      simpa [FaultsAre, Token.diagnostics, hvalid, hf] using List.Forall₂.cons ⟨f, hf, rfl⟩ ih

lemma FaultsAre.append (h : FaultsAre ts ds) (h' : FaultsAre us es) :
    FaultsAre (ts ++ us) (ds ++ es) := by
  rw [FaultsAre, List.filter_append]
  exact List.rel_append h h'

lemma faultsAre_nil (h : ∀ t ∈ ts, t.isValid = true) : FaultsAre ts [] := by
  rw [FaultsAre, List.filter_eq_nil_iff.2 (by simpa using h)]
  exact .nil

lemma FaultsAre.filter_eq (h : FaultsAre ts ds) : ds.filter Diagnostic.isLexical = ds := by
  refine List.filter_eq_self.2 fun d hd => ?_
  obtain ⟨t, -, f, -, rfl⟩ := Rule.exists_of_forall₂ h hd
  rfl

end Token

/-! ### Places -/

namespace Parsed

section

variable {P Q : Nat → Diagnostic → Prop} {start mid stop : Nat} {ds es : List Diagnostic}

lemma InOrder.from_earlier (h : InOrder P mid ds stop) (hle : start ≤ mid) :
    InOrder P start ds stop := by
  cases h with
  | nil h => exact .nil (by omega)
  | cons h hd hds => exact .cons (by omega) hd hds

lemma InOrder.append (h : InOrder P start ds mid) (h' : InOrder P mid es stop) :
    InOrder P start (ds ++ es) stop := by
  induction h with
  | nil h => exact h'.from_earlier h
  | cons h hd _ ih => exact .cons h hd (ih h')

lemma InOrder.imp (h : InOrder P start ds stop) (himp : ∀ i d, P i d → Q i d) :
    InOrder Q start ds stop := by
  induction h with
  | nil h => exact .nil h
  | cons h hd _ ih => exact .cons h (himp _ _ hd) ih

end

end Parsed

lemma Token.FaultsAre.inOrder {ts : List Token} {ds : List Diagnostic} (before after : List Token)
    (h : FaultsAre ts ds) :
    Parsed.InOrder (fun i d => ∃ t, (before ++ ts ++ after)[i]? = some t ∧ t.FaultIs d)
      before.length ds (before ++ ts).length := by
  induction ts generalizing before ds with
  | nil =>
    cases h
    exact .nil (by simp)
  | cons t ts ih =>
    have hmove : before ++ t :: ts = before ++ [t] ++ ts := List.append_cons before t ts
    rw [hmove]
    cases hv : t.isValid with
    | true =>
      rw [FaultsAre, List.filter_cons_of_neg (by simp [hv])] at h
      exact (ih _ h).from_earlier (by simp)
    | false =>
      rw [FaultsAre, List.filter_cons_of_pos (by simp [hv])] at h
      obtain ⟨d, ds, hd, hds, rfl⟩ := List.forall₂_cons_left_iff.1 h
      have hrest := ih (before ++ [t]) hds
      refine .cons (Nat.le_refl _) ⟨t, by simp, hd⟩ ?_
      simpa using hrest

/-! ### Parts -/

namespace Parsed

variable {lead : List Token} {ds : List Diagnostic}

lemma LeadAdds.inOrder (h : LeadAdds lead ds) (clauses : List Clause) :
    InOrder (Concerns lead clauses) 0 ds lead.length := by
  cases h with
  | nothing => exact .nil (Nat.zero_le _)
  | malformed _ hmeaning =>
    obtain ⟨t, ht, -⟩ := hmeaning
    have hne : lead ≠ [] := List.ne_nil_of_mem ht
    exact .cons (Nat.le_refl 0) (.lead hne) (.nil (List.length_pos_iff.2 hne))
  | faults _ h =>
    refine (h.inOrder [] (clauses.flatMap Clause.tokens)).imp ?_
    rintro i d ⟨t, ht, hd⟩
    exact .fault ht hd

lemma adds_ofLead (lead : List Token) : LeadAdds lead (ofLead lead).problems := by
  unfold ofLead
  split
  · rename_i h
    exact .faults (by simpa using h) (faultsAre_diagnostics lead)
  · rename_i hvalid
    have hvalid : ∀ t ∈ lead, t.isValid = true := by simpa using hvalid
    split
    · rename_i h
      exact .malformed hvalid (by simpa using h)
    · rename_i h
      exact .nothing hvalid (by simpa using h)

lemma LeadAdds.faultsAre (h : LeadAdds lead ds) :
    FaultsAre lead (ds.filter Diagnostic.isLexical) := by
  cases h with
  | nothing hvalid => exact faultsAre_nil hvalid
  | malformed hvalid => exact faultsAre_nil hvalid
  | faults _ h => rwa [h.filter_eq]

end Parsed

lemma Rule.ne_nil_of_ofClause {c : Clause} {rules : List Rule}
    (hbody : c.keyword ≠ .zone → ∀ t ∈ c.body, t.Genuine) (h : Rule.ofClause c = .ok rules) :
    rules ≠ [] := by
  unfold Rule.ofClause at h
  split at h
  · obtain ⟨e, rfl⟩ := readEvery_eq_ok h
    simp
  · obtain ⟨e, rfl⟩ := readEach_eq_ok h
    simp
  · rename_i hk
    rcases readPick_eq_ok h with ⟨vs, -, hvs, rfl⟩ | ⟨records, -, -, -, rfl⟩
    · have hformed := formed_of_value (hbody (by simp [hk])) (by simp) hvs
      simpa using hformed.ne_nil
    · simp
  · obtain ⟨ranges, -, -, -, ⟨r, -, rfl⟩ | rfl⟩ := readBetween_eq_ok h
    · simp
    · simp
  · obtain ⟨vs, -, hrules⟩ := Value.bind_eq_ok.1 h
    cases hrules
    simp
  · obtain ⟨vs, -, hrules⟩ := Value.bind_eq_ok.1 h
    cases hrules
    simp
  · obtain ⟨id, rfl⟩ := readZone_eq_ok h
    simp

namespace Clause

open Parsed

variable {c : Clause} {clauses : List Clause} {p : Parsed} {ps : List Parsed}

lemma adds_ofClause (hbody : c.keyword ≠ .zone → ∀ t ∈ c.body, t.Genuine) :
    c.Adds (ofClause c) := by
  unfold ofClause
  split
  · rename_i h
    exact .faults (by simpa using h) (faultsAre_diagnostics c.tokens)
  · rename_i hvalid
    have hvalid : ∀ t ∈ c.tokens, t.isValid = true := by simpa using hvalid
    split
    · rename_i rules hrules
      exact .rules hvalid (by simpa using Rule.ne_nil_of_ofClause hbody hrules) (by simp)
    · exact .malformed hvalid _

lemma Adds.faultsAre (h : c.Adds p) :
    FaultsAre c.tokens (p.problems.filter Diagnostic.isLexical) := by
  cases h with
  | rules hvalid => exact faultsAre_nil hvalid
  | malformed hvalid => exact faultsAre_nil hvalid
  | faults _ h => rwa [h.filter_eq]

lemma Adds.inOrder {lead : List Token} {before after : List Clause} (h : c.Adds p)
    (hc : clauses = before ++ c :: after) :
    InOrder (Concerns lead clauses) (lead ++ before.flatMap tokens).length p.problems
      (lead ++ (before ++ [c]).flatMap tokens).length := by
  have hlength : (lead ++ (before ++ [c]).flatMap tokens).length
      = (lead ++ before.flatMap tokens).length + (c.body.length + 1) := by
    simp [tokens, Nat.add_assoc]
  cases h with
  | rules => exact .nil (by omega)
  | malformed _ cause => exact .cons (Nat.le_refl _) (.clause hc cause) (.nil (by omega))
  | faults _ h =>
    have horder := h.inOrder (lead ++ before.flatMap tokens) (after.flatMap tokens)
    rw [show lead ++ (before ++ [c]).flatMap tokens = lead ++ before.flatMap tokens
      ++ c.tokens by simp]
    refine horder.imp ?_
    rintro i d ⟨t, ht, hd⟩
    exact .fault (by simpa [hc] using ht) hd

lemma inOrder_of_adds {lead : List Token} {rest : List Clause} (before : List Clause)
    (h : List.Forall₂ Adds rest ps) (hrest : clauses = before ++ rest) :
    InOrder (Concerns lead clauses) (lead ++ before.flatMap tokens).length (ps.flatMap problems)
      (lead ++ clauses.flatMap tokens).length := by
  induction h generalizing before with
  | nil => exact .nil (by simp [hrest])
  | @cons c p rest ps hc _ ih =>
    exact (hc.inOrder hrest).append (ih (before ++ [c]) (by simp [hrest]))

lemma faultsAre_of_adds (h : List.Forall₂ Adds clauses ps) :
    FaultsAre (clauses.flatMap tokens) ((ps.flatMap problems).filter Diagnostic.isLexical) := by
  induction h with
  | nil => exact .nil
  | cons hc _ ih =>
    rw [List.flatMap_cons, List.flatMap_cons, List.filter_append]
    exact FaultsAre.append hc.faultsAre ih

end Clause

namespace Parsed

/-- **Every problem of a text is reported once, in its place.** -/
theorem ofText_reported (D : Zone.Database) (text : String) :
    Reported ((Token.scan D text).takeWhile fun t => t.kind ≠ .endOfInput)
      (Clause.splitText D text).1
      (Clause.splitText D text).2 (ofText D text) := by
  have hsplit := Clause.split_tokens ((Token.scan D text).takeWhile fun t => t.kind ≠ .endOfInput)
  have hfree :=
    Clause.not_keyword_of_split ((Token.scan D text).takeWhile fun t => t.kind ≠ .endOfInput)
  have hlead := adds_ofLead (Clause.splitText D text).1
  have hclauses : List.Forall₂ Clause.Adds (Clause.splitText D text).2
      ((Clause.splitText D text).2.map ofClause) := by
    rw [List.forall₂_map_right_iff]
    exact List.forall₂_same.2 fun c hc => Clause.adds_ofClause (genuine_of_split_scan hc).2
  have hparsed := ofText_eq D text
  refine ⟨hsplit, hfree.1, fun c hc => ?_, ⟨_, _, hlead, hclauses, ?_⟩, ?_, ?_⟩
  · obtain ⟨⟨hgenuine, hkind⟩, -⟩ := genuine_of_split_scan hc
    refine ⟨by rw [keyword?, hkind], ?_, hfree.2 c hc⟩
    cases means_of_wordKind (hgenuine.wordKind_of_kind hkind rfl Kind.noConfusion) with
    | keyword hword => exact hword
  · rw [hparsed, List.flatMap_map, List.flatMap_map]
  · rw [hparsed, ← hsplit, List.filter_append]
    have hfaults := Clause.faultsAre_of_adds hclauses
    rw [List.flatMap_map] at hfaults
    exact FaultsAre.append hlead.faultsAre hfaults
  · have hrest : InOrder (Concerns (Clause.splitText D text).1 (Clause.splitText D text).2)
        ((Clause.splitText D text).1 ++ []).length _ _ := Clause.inOrder_of_adds [] hclauses rfl
    rw [List.append_nil, List.flatMap_map] at hrest
    rw [hparsed, ← hsplit]
    exact (hlead.inOrder _).append hrest

/-- A word in front, a clause with a faulty word and one without a second side are reported once
each. -/
example : (ofText .empty "2024 @every 2 zz @between 9:00 @daily").problems
    = [.malformed "2024" .keywordExpected, .lexical "zz" 1 15 .unrecognized,
      .malformed "@between 9:00" (.noConjunction "9:00")] := by
  decide +kernel

end Parsed

end Recurrence
