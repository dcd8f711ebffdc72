import Recurrence.Proofs.Expression.Problems
import Recurrence.Proofs.Indexed.Runs
import Recurrence.Proofs.Indexed.Scan

/-!
The rules of a text by positions. The tokens are cut where clauses start, and a clause at its
anchor, its brackets and its conjunction, all by number.

Main statements: `readBracketed_eq`, `readRange_eq`, `group_eq` and `parse_in_range`.
-/

namespace Recurrence.Indexed

open Token
open Rule (interval splitCommas Bracketed hasBracket addRecord openStart openEnd)

lemma decide_kind_ne (k : Kind) :
    (fun t : Token => decide (t.kind ≠ k)) = fun t => !decide (t.kind = k) :=
  funext fun _ => decide_not

/-! ### Anchors -/

def splitAnchor (body : List Token) : Reading (List Token × Option String) := do
  match body.findIdx? fun t => t.kind = .anchor with
  | none => return (body, none)
  | some anchor =>
    let value ← slice body (anchor + 1) body.length
    match value.find? fun t => t.kind = .anchor with
    | some extra => fail (.secondAnchor extra.text)
    | none =>
      if spelling value = "" then fail (.noAnchorValue (← get body anchor).text)
      else return (← slice body 0 anchor, some (spelling value))

lemma splitAnchor_eq (body : List Token) : splitAnchor body = lift (Rule.splitAnchor body) := by
  unfold splitAnchor Rule.splitAnchor
  rw [decide_kind_ne]
  rcases findIdx?_cases (fun t : Token => t.kind = .anchor) body with
    ⟨hidx, -, -, hdrop⟩ | ⟨before, word, value, rfl, -, -, hidx, htake, hdrop⟩
  · rw [hidx, hdrop]
    rfl
  · have hbefore := slice_prefix before (word :: value)
    rw [hidx, hdrop, htake]
    simp only [slice_after, ok_bind, get_append, hbefore]
    cases value.find? fun t => t.kind = .anchor with
    | some extra => rfl
    | none =>
      dsimp only
      split <;> rfl

def readEach (unit : TimeUnit) (body : List Token) : Reading (List Rule) := do
  let (main, anchor) ← splitAnchor body
  lift do
    match significant main with
    | extra :: _ => throw (.unexpected extra.text)
    | [] => return [.every ⟨unit, 1, anchor⟩]

lemma readEach_eq (unit : TimeUnit) (body : List Token) :
    readEach unit body = lift (Rule.readEach unit body) := by
  rw [Rule.readEach, lift_bind, ← splitAnchor_eq]
  rfl

def readEvery (body : List Token) : Reading (List Rule) := do
  let (main, anchor) ← splitAnchor body
  lift do
    let words := significant main
    let count := words.head?.filter fun t => t.kind = .number
    let rest := if count.isSome then words.tail else words
    let n ← match count with
      | some word => interval word
      | none => pure 1
    match rest with
    | [] =>
      match count with
      | some word => throw (.noUnitAfter word.text)
      | none => throw .intervalExpected
    | _ :: extra :: _ => throw (.unexpected extra.text)
    | [word] =>
      match word.kind with
      | .unit unit => return [.every ⟨unit, n, anchor⟩]
      | .weekday =>
        if count.isSome then throw (.unexpected word.text)
        else if anchor.isSome then throw (.alreadyAnchored word.text)
        else return [.every ⟨.week, 1, some word.text⟩]
      | _ => throw (.unexpected word.text)

lemma readEvery_eq (body : List Token) : readEvery body = lift (Rule.readEvery body) := by
  rw [Rule.readEvery, lift_bind, ← splitAnchor_eq]
  rfl

/-! ### Brackets -/

/-- Reads a bracketed list from the tokens before, between and after its brackets. -/
def listOf (before inner after : List Token) : Except Malformed Bracketed := do
  let named ← match significant before with
    | [] => pure none
    | [word] =>
      match word.unit? with
      | some unit => pure (some unit)
      | none => throw (.unexpectedBeforeBracket word.text)
    | other :: _ => throw (.unexpectedBeforeBracket other.text)
  match significant after with
  | extra :: _ => throw (.unexpectedAfterBracket extra.text)
  | [] =>
    if inner.any fun t => t.kind = .openBracket then
      throw .nestedBrackets
    let items := splitCommas inner
    if items.any fun item => (significant item).isEmpty then
      throw .emptyItem
    let first := items.head?.bind fun item => (significant item).head?.bind Token.unit?
    return ⟨named.or first, items⟩

/-- Cuts the body of a clause at its brackets. The one that closes the list is the last, and has to
come after the one that opens it. -/
def readBracketed (body : List Token) : Reading Bracketed := do
  let opening := (body.findIdx? fun t => t.kind = .openBracket).getD 0
  match (lastIdx? (fun t => t.kind = .closeBracket) body).filter fun closing => opening
      < closing with
  | none => fail .bracketNotClosed
  | some closing =>
    let before ← slice body 0 opening
    let inner ← slice body (opening + 1) closing
    let after ← slice body (closing + 1) body.length
    lift (listOf before inner after)

section

variable {before inner after opened : List Token} {o c : Token}

lemma readBracketed_open (hbefore : ∀ t ∈ before, decide (t.kind = .openBracket) = false)
    (ho : decide (o.kind = .openBracket) = true)
    (hopened : ∀ t ∈ opened, decide (t.kind = .closeBracket) = false) :
    Rule.readBracketed (before ++ o :: opened) = .error .bracketNotClosed := by
  have hany : (opened.any fun t => t.kind = .closeBracket) = false :=
    List.any_eq_false.mpr fun t ht => by simp [hopened t ht]
  unfold Rule.readBracketed
  simp only [decide_kind_ne, dropWhile_not_append hbefore ho, List.drop_succ_cons, List.drop_zero,
    hany]
  rfl

lemma readBracketed_closed (hbefore : ∀ t ∈ before, decide (t.kind = .openBracket) = false)
    (ho : decide (o.kind = .openBracket) = true) (hc : decide (c.kind = .closeBracket) = true)
    (hafter : ∀ t ∈ after, decide (t.kind = .closeBracket) = false) :
    Rule.readBracketed (before ++ o :: (inner ++ c :: after)) = listOf before inner after := by
  have hreverse : (inner ++ c :: after).reverse = after.reverse ++ c :: inner.reverse := by simp
  have hafter' : ∀ t ∈ after.reverse, decide (t.kind = .closeBracket) = false := fun t ht =>
    hafter t (List.mem_reverse.mp ht)
  have hany : ((inner ++ c :: after).any fun t => t.kind = .closeBracket) = true := by
    simp [of_decide_eq_true hc]
  unfold Rule.readBracketed
  simp only [decide_kind_ne, takeWhile_not_append hbefore ho, dropWhile_not_append hbefore ho,
    hreverse, takeWhile_not_append hafter' hc, dropWhile_not_append hafter' hc, List.drop_succ_cons,
    List.drop_zero, hany, List.reverse_reverse]
  rfl

end

lemma readBracketed_eq {body : List Token} (h : hasBracket body = true) :
    readBracketed body = lift (Rule.readBracketed body) := by
  -- the first bracket that opens, which there is
  rcases findIdx?_cases (fun t : Token => t.kind = .openBracket) body with
    ⟨-, hall, -⟩ | ⟨before, o, opened, rfl, ho, hbefore, hidx, -⟩
  · obtain ⟨t, ht, hopen⟩ := List.any_eq_true.mp h
    rw [hall t ht] at hopen
    cases hopen
  · have hopen : decide (o.kind = .closeBracket) = false := by
      rw [of_decide_eq_true ho]
      rfl
    unfold readBracketed
    rw [hidx, Option.getD_some]
    -- the last bracket that closes, of those behind it
    rcases lastIdx?_cases (fun t : Token => t.kind = .closeBracket) opened with
      ⟨-, hall⟩ | ⟨inner, c, after, rfl, hc, hafter, hlast⟩
    · have hnone :
          (lastIdx? (fun t : Token => t.kind = .closeBracket) (before ++ o :: opened)).filter
          (fun closing => before.length < closing) = none := by
        rw [lastIdx?_append_of_not _ before (List.forall_mem_cons.mpr ⟨hopen, hall⟩),
          Option.filter_eq_none_iff]
        intro i hi
        simpa using (lastIdx?_lt _ hi).le
      simp only [hnone]
      rw [readBracketed_open hbefore ho hall]
      rfl
    · have hlength : (before ++ o :: inner).length = before.length + 1 + inner.length := by
        simp [Nat.add_assoc, Nat.add_comm 1]
      -- the last closing bracket of the whole body is the last one behind the opening one
      have hclosing : (lastIdx? (fun t : Token => t.kind = .closeBracket)
            (before ++ o :: (inner ++ c :: after))).filter (fun closing => before.length < closing)
          = some (before.length + 1 + inner.length) := by
        have h := lastIdx?_append _ (before ++ [o]) hlast
        rw [List.append_assoc, List.singleton_append, List.length_append, List.length_singleton]
          at h
        rw [h, Option.filter_some, if_pos (decide_eq_true (by omega))]
      have hcut := slice_prefix before (o :: (inner ++ c :: after))
      have hinner : slice (before ++ o :: (inner ++ c :: after)) (before.length + 1)
          (before.length + 1 + inner.length) = .ok inner := by
        simpa using slice_append (before ++ [o]) inner (c :: after)
      have hafter' := slice_after (before ++ o :: inner) c after
      rw [hlength, List.append_assoc, List.cons_append] at hafter'
      simp only [hclosing, hcut, hinner, hafter', ok_bind,
        readBracketed_closed hbefore ho hc hafter]

/-! ### Lists and ranges -/

def readItems (default : Option TimeUnit) (shape : Option UnitSet) :
    List (List Token) → Reading (List Values)
  | [] => return []
  | item :: items => do
    let record ← read item default
    if shape.any (· ≠ record.units) then fail (.itemUnitsDiffer (sourceText item))
    else return record :: (← readItems default (some record.units) items)

lemma readItems_eq (default : Option TimeUnit) (shape : Option UnitSet)
    (items : List (List Token)) :
    readItems default shape items = lift (Rule.readItems default shape items) := by
  induction items generalizing shape with
  | nil => rfl
  | cons item items ih =>
    rw [readItems, Rule.readItems, read_eq, lift_bind]
    refine bind_congr fun record => ?_
    rw [ih]
    dsimp only
    split
    · rfl
    · rw [lift_bind]
      rfl

def readPick (body : List Token) : Reading (List Rule) := do
  if hasBracket body then
    let list ← readBracketed body
    let records ← readItems list.default none list.items
    return [.oneOf ⟨records.foldl addRecord UnitMap.empty⟩]
  else
    return (← read body none).map fun (unit, value) => .equals unit value

lemma readPick_eq (body : List Token) : readPick body = lift (Rule.readPick body) := by
  unfold readPick Rule.readPick
  split
  · rename_i h
    rw [readBracketed_eq h, lift_bind]
    simp only [readItems_eq, lift_bind]
    rfl
  · rw [read_eq, lift_bind]
    rfl

def conjunctionAt (tokens : List Token) (i : Nat) : Reading Bool := do
  return (← get tokens i).kind = .conjunction

def readRange (default : Option TimeUnit) (tokens : List Token) : Reading Range := do
  match ← select (conjunctionAt tokens) (List.range tokens.length) with
  | [] => fail (.noConjunction (sourceText tokens))
  | [conjunction] =>
    let start ← slice tokens 0 conjunction
    let stop ← slice tokens (conjunction + 1) tokens.length
    let unit := default.or ((significant tokens).findSome? Token.unit?)
    let starts ← read start unit
    let stops ← read stop unit
    if starts.units ≠ stops.units then fail (.sideUnitsDiffer (sourceText tokens))
    else
      let bounds := starts.filterMap fun (u, text) =>
        (stops.lookup u).map fun other => (u, (text, other))
      return ⟨UnitMap.ofList bounds⟩
  | _ => fail (.secondConjunction (sourceText tokens))

lemma readRange_eq (default : Option TimeUnit) (tokens : List Token) :
    readRange default tokens = lift (Rule.readRange default tokens) := by
  -- looking at every position finds those of the conjunctions
  have hselect : select (conjunctionAt tokens) (List.range tokens.length)
      = .ok (positions (fun t => t.kind = .conjunction) tokens) := by
    refine select_eq fun i hi => ?_
    have hget := List.getElem?_eq_getElem (List.mem_range.mp hi)
    rw [conjunctionAt, get_eq hget, hget]
    rfl
  unfold readRange Rule.readRange
  rw [hselect, ok_bind, decide_kind_ne]
  -- the body divides at the first conjunction, and a second one is refused
  rcases findIdx?_cases (fun t : Token => t.kind = .conjunction) tokens with
    ⟨-, hall, -, hdrop⟩ | ⟨start, t, stop, rfl, ht, hstart, -, htake, hdrop⟩
  · rw [positions_eq_nil hall, hdrop]
    rfl
  · obtain ⟨more, hmore, hany⟩ := positions_append hstart ht stop
    rw [hmore, hdrop, htake]
    dsimp only
    rw [hany]
    cases more with
    | cons i more => rfl
    | nil =>
      have hcut := slice_prefix start (t :: stop)
      simp only [hcut, slice_after, ok_bind, read_eq]
      rw [List.isEmpty_nil, Bool.not_true, if_neg Bool.false_ne_true, lift_bind]
      refine bind_congr fun starts => ?_
      rw [lift_bind]
      refine bind_congr fun stops => ?_
      split <;> rfl

def readBetween (body : List Token) : Reading (List Rule) := do
  if hasBracket body then
    let list ← readBracketed body
    let ranges ← list.items.mapM (readRange list.default)
    let shape := (ranges.head?.map Range.units).getD ∅
    match ranges.find? fun r => r.units ≠ shape with
    | some odd => fail (.rangeUnitsDiffer (Canonical.range odd))
    | none => return [.withinAny ranges]
  else
    return [.within (← readRange none body)]

lemma readBetween_eq (body : List Token) : readBetween body = lift (Rule.readBetween body) := by
  have hrange (default : Option TimeUnit) :
      readRange default = fun tokens => lift (Rule.readRange default tokens) :=
    funext (readRange_eq default)
  unfold readBetween Rule.readBetween
  split
  · rename_i h
    rw [readBracketed_eq h, lift_bind]
    refine bind_congr fun list => ?_
    rw [hrange, lift_mapM, lift_bind]
    refine bind_congr fun ranges => ?_
    dsimp only
    generalize ranges.find? _ = odd
    cases odd <;> rfl
  · rw [readRange_eq, lift_bind]
    rfl

def readUpto (body : List Token) : Reading (List Rule) := do
  let vs ← read body none
  return [.within ⟨UnitMap.ofList (vs.map fun (u, text) => (u, (openStart u, text)))⟩]

def readOnward (body : List Token) : Reading (List Rule) := do
  let vs ← read body none
  return [.within ⟨UnitMap.ofList (vs.map fun (u, text) => (u, (text, openEnd u)))⟩]

/-! ### Groups -/

/-- A keyword and the tokens from it up to the next keyword. -/
structure Group where
  keyword : Keyword
  tokens : List Token

def Group.body (g : Group) : List Token := g.tokens.tail

def Group.ofClause (c : Clause) : Group := ⟨c.keyword, c.tokens⟩

def readGroup (g : Group) : Reading (List Rule) :=
  match g.keyword with
  | .every => readEvery g.body
  | .each unit => readEach unit g.body
  | .pick => readPick g.body
  | .between => readBetween g.body
  | .upto => readUpto g.body
  | .onward => readOnward g.body
  | .zone => lift (Rule.readZone g.body)

lemma readGroup_eq (c : Clause) : readGroup (Group.ofClause c) = lift (Rule.ofClause c) := by
  unfold readGroup Rule.ofClause Group.ofClause
  dsimp only [Group.body, Clause.tokens, List.tail_cons]
  cases c.keyword with
  | every => exact readEvery_eq c.body
  | each unit => exact readEach_eq unit c.body
  | pick => exact readPick_eq c.body
  | between => exact readBetween_eq c.body
  | upto =>
    dsimp only [readUpto, Rule.readUpto]
    rw [read_eq, lift_bind]
    rfl
  | onward =>
    dsimp only [readOnward, Rule.readOnward]
    rw [read_eq, lift_bind]
    rfl
  | zone => rfl

def start? (p : Token × Nat) : Option (Nat × Keyword) :=
  match p.1.kind with
  | .keyword k => some (p.2, k)
  | _ => none

/-- The groups from each start to the next one, the last to the end. -/
def groupsFrom (tokens : List Token) : List (Nat × Keyword) → Reading (List Group)
  | [] => return []
  | (start, keyword) :: rest => do
    let stop := (rest.head?.map Prod.fst).getD tokens.length
    return ⟨keyword, ← slice tokens start stop⟩ :: (← groupsFrom tokens rest)

/-- The tokens before the first keyword, and the groups. Nothing after the end of the text
counts. -/
def group (tokens : List Token) : Reading (List Token × List Group) := do
  let ts ← slice tokens 0 ((tokens.findIdx? fun t => t.kind = .endOfInput).getD tokens.length)
  let starts := ts.zipIdx.filterMap start?
  let lead ← slice ts 0 ((starts.head?.map Prod.fst).getD ts.length)
  return (lead, ← groupsFrom ts starts)

/-- Where clauses start that follow one another from a position on. -/
def startsFrom (k : Nat) : List Clause → List (Nat × Keyword)
  | [] => []
  | c :: cs => (k, c.keyword) :: startsFrom (k + c.tokens.length) cs

lemma filterMap_start? (ts : List Token) (k : Nat) : (ts.zipIdx k).filterMap start?
    = startsFrom (k + (Clause.split ts).1.length) (Clause.split ts).2 := by
  induction ts generalizing k with
  | nil => rfl
  | cons t ts ih =>
    rw [List.zipIdx_cons, List.filterMap_cons, ih, Clause.split, start?]
    cases t.kind <;> simp [startsFrom, Clause.tokens, Nat.add_assoc, Nat.add_comm 1]

lemma stop_startsFrom (pre : List Token) (clauses : List Clause) :
    ((startsFrom pre.length clauses).head?.map Prod.fst).getD
      (pre ++ clauses.flatMap Clause.tokens).length
      = pre.length := by
  cases clauses with
  | nil => simp [startsFrom]
  | cons c clauses => rfl

lemma groupsFrom_eq (pre : List Token) (clauses : List Clause) :
    groupsFrom (pre ++ clauses.flatMap Clause.tokens) (startsFrom pre.length clauses)
      = .ok (clauses.map Group.ofClause) := by
  induction clauses generalizing pre with
  | nil => rfl
  | cons c clauses ih =>
    have hslice := slice_append pre c.tokens (clauses.flatMap Clause.tokens)
    rw [← List.length_append] at hslice
    rw [List.flatMap_cons, ← List.append_assoc, startsFrom, groupsFrom, ← List.length_append,
      stop_startsFrom, hslice, ih (pre ++ c.tokens)]
    rfl

/-- **The groups are the clauses**: each ends where the next one starts. -/
theorem group_eq (tokens : List Token) : group tokens
    = .ok ((Clause.split (tokens.takeWhile fun t => t.kind ≠ .endOfInput)).1,
      (Clause.split (tokens.takeWhile fun t => t.kind ≠ .endOfInput)).2.map Group.ofClause) := by
  have htext : slice tokens 0 ((tokens.findIdx? fun t => t.kind = .endOfInput).getD tokens.length)
      = .ok (tokens.takeWhile fun t => t.kind ≠ .endOfInput) := by
    rw [decide_kind_ne]
    rcases findIdx?_cases (fun t : Token => t.kind = .endOfInput) tokens with
      ⟨hidx, -, htake, -⟩ | ⟨before, e, after, rfl, -, -, hidx, htake, -⟩
    · rw [hidx, htake]
      simpa using slice_prefix tokens []
    · rw [hidx, htake]
      exact slice_prefix before (e :: after)
  rw [group, htext, ok_bind]
  generalize tokens.takeWhile (fun t => t.kind ≠ .endOfInput) = ts
  have hsplit := Clause.split_tokens ts
  have hstarts := filterMap_start? ts 0
  have hgroups := groupsFrom_eq (Clause.split ts).1 (Clause.split ts).2
  have hlead := slice_prefix (Clause.split ts).1 ((Clause.split ts).2.flatMap Clause.tokens)
  have hstop := stop_startsFrom (Clause.split ts).1 (Clause.split ts).2
  rw [hsplit] at hgroups hlead hstop
  rw [Nat.zero_add] at hstarts
  simp only [hstarts, hstop, hlead, hgroups, ok_bind]
  rfl

/-! ### Texts -/

/-- What a group holds. A position that is out of range is no problem of the group. -/
def ofGroup (g : Group) : Reading Parsed :=
  if g.tokens.any fun t => !t.isValid then return ⟨[], Token.diagnostics g.tokens⟩
  else match readGroup g with
  | .ok rules => return ⟨rules.map fun r => ⟨r, sourceText g.tokens⟩, []⟩
  | .error (.malformed cause) => return ⟨[], [.malformed (sourceText g.tokens) cause]⟩
  | .error .outOfRange => .error .outOfRange

lemma ofGroup_eq (c : Clause) : ofGroup (Group.ofClause c) = .ok (Parsed.ofClause c) := by
  unfold ofGroup Parsed.ofClause
  rw [readGroup_eq]
  refine ok_ite rfl ?_
  cases Rule.ofClause c <;> rfl

def parse (D : Zone.Database) (text : String) : Reading Parsed := do
  let (lead, groups) ← group (← scan D text)
  groups.foldlM (fun p g => return p.append (← ofGroup g)) (Parsed.ofLead lead)

/-- **A text by positions is the text**: every position that is asked for is there. -/
theorem parse_eq (D : Zone.Database) (text : String) :
    parse D text = .ok (Parsed.ofText D text) := by
  have hfold (clauses : List Clause) (p : Parsed) :
      (clauses.map Group.ofClause).foldlM (fun p g => return p.append (← ofGroup g)) p
        = (.ok (clauses.foldl (fun p c => p.append (Parsed.ofClause c)) p) : Reading Parsed) := by
    induction clauses generalizing p with
    | nil => rfl
    | cons c clauses ih =>
      rw [List.map_cons, List.foldlM_cons, ofGroup_eq]
      exact ih _
  rw [parse, scan_eq, ok_bind, group_eq]
  exact hfold _ _

lemma ne_nil_of_faultsAre {ts : List Token} {ds : List Diagnostic}
    (hinvalid : ∃ t ∈ ts, t.isValid = false) (h : FaultsAre ts ds) : ds ≠ [] := by
  rintro rfl
  obtain ⟨t, ht, hfault⟩ := hinvalid
  have hnone := List.filter_eq_nil_iff.mp (List.forall₂_nil_right_iff.mp h) t ht
  simp [hfault] at hnone

lemma ofClause_ne_empty {c : Clause} {p : Parsed} (h : c.Adds p) :
    p.rules ≠ [] ∨ p.problems ≠ [] := by
  cases h with
  | rules _ hne => exact Or.inl hne
  | malformed => exact Or.inr (List.cons_ne_nil _ _)
  | faults hinvalid h => exact Or.inr (ne_nil_of_faultsAre hinvalid h)

lemma isTrivia_of_leadAdds {lead : List Token} (h : Parsed.LeadAdds lead []) :
    ∀ t ∈ lead, t.isTrivia = true := by
  generalize hds : ([] : List Diagnostic) = ds at h
  cases h with
  | nothing _ htrivia => exact htrivia
  | malformed => cases hds
  | faults hinvalid h => exact absurd hds.symm (ne_nil_of_faultsAre hinvalid h)

lemma isTrivia_of_empty {D : Zone.Database} {text : String}
    (hrules : (Parsed.ofText D text).rules = [])
    (hproblems : (Parsed.ofText D text).problems = []) :
    ∀ t ∈ (Token.scan D text).takeWhile fun t => t.kind ≠ .endOfInput, t.isTrivia = true := by
  rw [Parsed.ofText_eq] at hrules hproblems
  obtain ⟨hlead, hclauses⟩ := List.append_eq_nil_iff.mp hproblems
  have hnil : (Clause.splitText D text).2 = [] := by
    refine List.eq_nil_iff_forall_not_mem.mpr fun c hc => ?_
    rcases ofClause_ne_empty (Clause.adds_ofClause (genuine_of_split_scan hc).2) with h | h
    · exact h (List.flatMap_eq_nil_iff.mp hrules c hc)
    · exact h (List.flatMap_eq_nil_iff.mp hclauses c hc)
  have htokens := Clause.split_tokens ((Token.scan D text).takeWhile fun t => t.kind ≠ .endOfInput)
  rw [show (Clause.split _).2 = [] from hnil, List.flatMap_nil, List.append_nil] at htokens
  rw [← htokens]
  exact isTrivia_of_leadAdds (hlead ▸ Parsed.adds_ofLead (Clause.splitText D text).1)

/-- **Every text is read to its end**: no position that is asked for is out of range. What comes out
are rules or problems, or nothing of a text without meaning, which then makes no expression. -/
theorem parse_in_range (D : Zone.Database) (text : String) :
    parse D text = .ok (Parsed.ofText D text)
      ∧ ((Parsed.ofText D text).rules ≠ [] ∨ (Parsed.ofText D text).problems ≠ []
        ∨ ∀ t ∈ (Token.scan D text).takeWhile fun t => t.kind ≠ .endOfInput, t.isTrivia = true)
      ∧ ∀ ceiling, match Expression.parse D text ceiling with
        | .ok e => e.rules ≠ []
        | .error problems => problems ≠ [] := by
  refine ⟨parse_eq D text, ?_, fun ceiling => ?_⟩
  · by_cases hrules : (Parsed.ofText D text).rules = []
    · by_cases hproblems : (Parsed.ofText D text).problems = []
      · exact Or.inr (Or.inr (isTrivia_of_empty hrules hproblems))
      · exact Or.inr (Or.inl hproblems)
    · exact Or.inl hrules
  · unfold Expression.parse
    dsimp only
    by_cases hproblems : (Parsed.ofText D text).problems = []
    · rw [if_neg (not_not.mpr hproblems)]
      cases hconflict : RuleSet.conflict? D ((Parsed.ofText D text).rules.map WrittenRule.rule) with
      | some cause => exact List.cons_ne_nil _ _
      | none =>
        intro hrules
        rw [show (Parsed.ofText D text).rules.map WrittenRule.rule = [] from hrules] at hconflict
        cases hconflict
    · rw [if_pos hproblems]
      exact hproblems

end Recurrence.Indexed
