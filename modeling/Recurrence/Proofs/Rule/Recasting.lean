import Recurrence.Proofs.Rule.ValueRuns
import Recurrence.Proofs.Value.Recasting

/-!
Rules of recast tokens. When the letters of a clause are changed for others and the places of its
tokens are forgotten, its rules are the same, with the same change in their texts. Only the name of
a zone is read off the clause as it stands.

Main statements: `ofClause_recast` and `ofClause_of_recast`.
-/

namespace Recurrence

open Token

/-! ### Rules with their characters changed -/

namespace UnitMap

variable {α β : Type}

def map (g : α → β) (m : UnitMap α) : UnitMap β := ⟨fun u => (m.get? u).map g⟩

@[simp] lemma get?_map (g : α → β) (m : UnitMap α) (u : TimeUnit) :
    (m.map g).get? u = (m.get? u).map g := rfl

lemma insert_map (g : α → β) (m : UnitMap α) (u : TimeUnit) (a : α) :
    (m.map g).insert u (g a) = (m.insert u a).map g := by
  refine ext_get? fun v => ?_
  rw [get?_insert, get?_map, get?_map, get?_insert]
  split <;> rfl

lemma ofList_map (g : α → β) (pairs : List (TimeUnit × α)) :
    ofList (pairs.map fun p => (p.1, g p.2)) = (ofList pairs).map g := by
  have hfold (m : UnitMap α) :
      (pairs.map fun p => (p.1, g p.2)).foldl (fun m p => m.insert p.1 p.2) (m.map g)
      = (pairs.foldl (fun m p => m.insert p.1 p.2) m).map g := by
    induction pairs generalizing m with
    | nil => rfl
    | cons p pairs ih => rw [List.map_cons, List.foldl_cons, List.foldl_cons, insert_map, ih]
  exact hfold empty

lemma keys_map (g : α → β) (m : UnitMap α) : (m.map g).keys = m.keys := by
  rw [keys, keys]
  congr 1
  funext u
  rw [get?_map, Option.isSome_map]

@[simp] lemma units_map (g : α → β) (m : UnitMap α) : (m.map g).units = m.units := by
  rw [units, units, keys_map]

end UnitMap

def Range.recast (f : Char → Char) (r : Range) : Range :=
  ⟨r.bounds.map fun b => (b.1.map f, b.2.map f)⟩

def Columns.recast (f : Char → Char) (c : Columns) : Columns :=
  ⟨c.lists.map (List.map (String.map f))⟩

/-- A rule with its characters changed. The name of a zone stays. -/
def Rule.recast (f : Char → Char) : Rule → Rule
  | .every e => .every { e with anchor := e.anchor.map (String.map f) }
  | .equals u text => .equals u (text.map f)
  | .oneOf c => .oneOf (c.recast f)
  | .within r => .within (r.recast f)
  | .withinAny rs => .withinAny (rs.map (Range.recast f))
  | .zone id => .zone id

def Clause.recast (f : Char → Char) (c : Clause) : Clause :=
  ⟨c.keyword, c.head.recast f, c.body.map (Token.recast f)⟩

namespace Values

variable {f : Char → Char}

lemma units_recast (f : Char → Char) (vs : Values) : (vs.recast f).units = vs.units := by
  rw [units, units, recast, List.map_map]
  rfl

lemma lookup_recast (f : Char → Char) (vs : Values) (u : TimeUnit) :
    (vs.recast f).lookup u = (vs.lookup u).map (String.map f) := by
  induction vs with
  | nil => rfl
  | cons v vs ih =>
    rw [recast, List.map_cons, List.lookup_cons, List.lookup_cons]
    split
    · rfl
    · exact ih

end Values

namespace Rule

variable {f : Char → Char}

/-! ### Cadences -/

lemma dropWhile_recast {p : Token → Bool} (hp : ∀ t : Token, p (t.recast f) = p t)
    (ts : List Token) :
    (ts.map (Token.recast f)).dropWhile p = (ts.dropWhile p).map (Token.recast f) := by
  rw [List.dropWhile_map, show p ∘ Token.recast f = p from funext hp]

lemma takeWhile_recast {p : Token → Bool} (hp : ∀ t : Token, p (t.recast f) = p t)
    (ts : List Token) :
    (ts.map (Token.recast f)).takeWhile p = (ts.takeWhile p).map (Token.recast f) := by
  rw [List.takeWhile_map, show p ∘ Token.recast f = p from funext hp]

lemma any_recast {p : Token → Bool} (hp : ∀ t : Token, p (t.recast f) = p t) (ts : List Token) :
    (ts.map (Token.recast f)).any p = ts.any p := by
  rw [List.any_map, show p ∘ Token.recast f = p from funext hp]

lemma find?_recast {p : Token → Bool} (hp : ∀ t : Token, p (t.recast f) = p t) (ts : List Token) :
    (ts.map (Token.recast f)).find? p = (ts.find? p).map (Token.recast f) := by
  rw [List.find?_map, show p ∘ Token.recast f = p from funext hp]

lemma splitAnchor_recast (hf : Text.Recast f) (body : List Token) :
    Carries (fun p => (p.1.map (Token.recast f), p.2.map (String.map f))) (splitAnchor body)
      (splitAnchor (body.map (Token.recast f))) := by
  unfold splitAnchor
  rw [dropWhile_recast fun _ => rfl, takeWhile_recast fun _ => rfl]
  generalize body.dropWhile (fun t => t.kind ≠ .anchor) = rest
  rcases rest with _ | ⟨word, value⟩
  · exact .ok _
  · rw [List.map_cons]
    dsimp only
    rw [find?_recast fun _ => rfl, spelling_recast hf]
    cases value.find? fun t => t.kind = .anchor with
    | some extra => exact .error _ _
    | none => exact .ite Text.map_eq_empty (fun _ => .error _ _) fun _ => .ok _

lemma readEach_recast (hf : Text.Recast f) (unit : TimeUnit) (body : List Token) :
    Carries (List.map (Rule.recast f)) (readEach unit body)
      (readEach unit (body.map (Token.recast f))) := by
  refine (splitAnchor_recast hf body).bind fun p => ?_
  obtain ⟨main, anchor⟩ := p
  dsimp only
  rw [significant_recast]
  rcases significant main with _ | ⟨extra, rest⟩
  · exact .ok _
  · exact .error _ _

lemma interval_recast (hf : Text.Recast f) (word : Token) :
    Carries id (interval word) (interval (word.recast f)) := by
  unfold interval
  rw [text_recast, hf.word?_map]
  cases Text.word? word.text with
  | none => exact .error _ _
  | some n => exact .ok n

lemma readEvery_recast (hf : Text.Recast f) (body : List Token) :
    Carries (List.map (Rule.recast f)) (readEvery body)
      (readEvery (body.map (Token.recast f))) := by
  refine (splitAnchor_recast hf body).bind fun p => ?_
  obtain ⟨main, anchor⟩ := p
  have hnumber : (fun t : Token => decide (t.kind = .number)) ∘ Token.recast f
      = fun t => decide (t.kind = .number) := rfl
  dsimp only
  rw [significant_recast, List.head?_map, Option.filter_map, hnumber, Option.isSome_map,
    ← List.map_tail]
  generalize (significant main).head?.filter (fun t => t.kind = .number) = count
  -- the interval is the first word, and what is left is recast word by word
  have hrest : (if count.isSome = true then (significant main).tail.map (Token.recast f)
      else (significant main).map (Token.recast f))
      = (if count.isSome = true then (significant main).tail else significant main).map
          (Token.recast f) := by
    split <;> rfl
  rw [hrest]
  generalize (if count.isSome = true then (significant main).tail else significant main) = rest
  -- one word has to be left, a unit or a weekday
  rcases rest with _ | ⟨word, _ | ⟨extra, rest⟩⟩
  · cases count with
    | none => exact .error _ _
    | some number => exact (interval_recast hf number).bind fun n => .error _ _
  · rw [List.map_cons, List.map_nil]
    have hunit (n : Nat) (u : TimeUnit) :
        Carries (List.map (Rule.recast f)) (pure [.every ⟨u, n, anchor⟩])
        (pure [.every ⟨u, n, anchor.map (String.map f)⟩]) := .ok _
    cases hcount : count with
    | none =>
      dsimp only [kind_recast]
      cases word.kind with
      | unit u => exact hunit 1 u
      | weekday =>
        refine .ite ?_ (fun _ => .error _ _) fun _ => .ok _
        rw [Option.isSome_map]
      | _ => exact .error _ _
    | some number =>
      refine (interval_recast hf number).bind fun n => ?_
      dsimp only [kind_recast]
      cases word.kind with
      | unit u => exact hunit n u
      | _ => exact .error _ _
  · cases count with
    | none => exact .error _ _
    | some number => exact (interval_recast hf number).bind fun n => .error _ _

/-! ### Lists -/

lemma splitCommas_recast (f : Char → Char) (ts : List Token) :
    splitCommas (ts.map (Token.recast f)) = (splitCommas ts).map (List.map (Token.recast f)) := by
  induction ts with
  | nil => rfl
  | cons t ts ih =>
    rw [List.map_cons, splitCommas, splitCommas, ih]
    cases splitCommas ts with
    | nil => rfl
    | cons item items =>
      rw [List.map_cons]
      dsimp only
      by_cases ht : t.kind = .comma
      · rw [if_pos ht, if_pos (show (t.recast f).kind = .comma from ht)]
        rfl
      · rw [if_neg ht, if_neg (show ¬(t.recast f).kind = .comma from ht)]
        rfl

def Bracketed.recast (f : Char → Char) (b : Bracketed) : Bracketed :=
  ⟨b.default, b.items.map (List.map (Token.recast f))⟩

lemma hasBracket_recast (f : Char → Char) (body : List Token) :
    hasBracket (body.map (Token.recast f)) = hasBracket body := any_recast (fun _ => rfl) body

lemma readBracketed_recast (f : Char → Char) (body : List Token) :
    Carries (Bracketed.recast f) (readBracketed body)
      (readBracketed (body.map (Token.recast f))) := by
  unfold readBracketed
  dsimp only
  rw [takeWhile_recast fun _ => rfl, dropWhile_recast fun _ => rfl, ← List.map_drop,
    ← List.map_reverse, takeWhile_recast fun _ => rfl, dropWhile_recast fun _ => rfl,
    ← List.map_drop, ← List.map_reverse, ← List.map_reverse, any_recast fun _ => rfl]
  -- the brackets stand where they stood: name the tokens between them
  generalize (body.dropWhile fun t => decide (t.kind ≠ .openBracket)).drop 1 = opened
  generalize body.takeWhile (fun t => t.kind ≠ .openBracket) = before
  generalize (opened.reverse.takeWhile fun t => decide (t.kind ≠ .closeBracket)).reverse = after
  generalize ((opened.reverse.dropWhile fun t => decide (t.kind ≠ .closeBracket)).drop 1).reverse
    = inner
  refine .guard Iff.rfl _ _ ?_
  -- what is asked of the items does not look at their characters
  have hempty : (fun item => (significant item).isEmpty) ∘ List.map (Token.recast f)
      = fun item => (significant item).isEmpty :=
    funext fun item => by rw [Function.comp_apply, significant_recast, List.isEmpty_map]
  have hfirst (items : List (List Token)) :
      ((items.map (List.map (Token.recast f))).head?.bind fun item => (significant item).head?.bind
        Token.unit?)
        = items.head?.bind fun item => (significant item).head?.bind Token.unit? := by
    cases items with
    | nil => rfl
    | cons item items =>
      show (significant (item.map (Token.recast f))).head?.bind Token.unit?
        = (significant item).head?.bind Token.unit?
      rw [significant_recast]
      cases significant item <;> rfl
  have hitems : ((splitCommas inner).map (List.map (Token.recast f))).any
        (fun item => (significant item).isEmpty)
      = (splitCommas inner).any fun item => (significant item).isEmpty := by
        rw [List.any_map, hempty]
  rw [significant_recast f before, significant_recast f after, any_recast fun _ => rfl,
    splitCommas_recast, hfirst, hitems]
  -- nothing may follow the list, and at most a unit may come before it
  cases significant after with
  | cons extra rest =>
    rcases significant before with _ | ⟨word, _ | ⟨other, rest⟩⟩
    · exact .error _ _
    · rw [List.map_cons, List.map_nil]
      dsimp only
      rw [unit?_recast]
      cases word.unit? <;> exact .error _ _
    · exact .error _ _
  | nil =>
    rcases significant before with _ | ⟨word, _ | ⟨other, rest⟩⟩
    · refine (Carries.ok (g := id) none).bind fun named => ?_
      exact .guard Iff.rfl _ _ (.guard Iff.rfl _ _ (.pure_eq rfl))
    · rw [List.map_cons, List.map_nil]
      dsimp only
      rw [unit?_recast]
      cases word.unit? with
      | some unit =>
        refine (Carries.ok (g := id) (some unit)).bind fun named => ?_
        exact .guard Iff.rfl _ _ (.guard Iff.rfl _ _ (.pure_eq rfl))
      | none => exact .error _ _
    · exact .error _ _

lemma readItems_recast (hf : Text.Recast f) (default : Option TimeUnit) (shape : Option UnitSet)
    (items : List (List Token)) :
    Carries (List.map (Values.recast f)) (readItems default shape items)
      (readItems default shape (items.map (List.map (Token.recast f)))) := by
  induction items generalizing shape with
  | nil => exact .ok _
  | cons item items ih =>
    rw [List.map_cons, readItems, readItems]
    refine (Value.read_recast hf item default).bind fun record => ?_
    rw [Values.units_recast]
    exact .guard Iff.rfl _ _ ((ih _).bind fun _ => .ok _)

lemma addRecord_recast (f : Char → Char) (m : UnitMap (List String)) (record : Values) :
    addRecord (m.map (List.map (String.map f))) (record.recast f)
      = (addRecord m record).map (List.map (String.map f)) := by
  unfold addRecord Values.recast
  induction record generalizing m with
  | nil => rfl
  | cons v vs ih =>
    rw [List.map_cons, List.foldl_cons, List.foldl_cons, ← ih, ← UnitMap.insert_map]
    congr 2
    dsimp only
    rw [UnitMap.get?_map]
    cases m.get? v.1 <;> simp

lemma addRecords_recast (f : Char → Char) (records : List Values) :
    (records.map (Values.recast f)).foldl addRecord UnitMap.empty
      = (records.foldl addRecord UnitMap.empty).map (List.map (String.map f)) := by
  have hfold (m : UnitMap (List String)) :
      (records.map (Values.recast f)).foldl addRecord (m.map (List.map (String.map f)))
        = (records.foldl addRecord m).map (List.map (String.map f)) := by
    induction records generalizing m with
    | nil => rfl
    | cons r rs ih => rw [List.map_cons, List.foldl_cons, List.foldl_cons, addRecord_recast, ih]
  exact hfold UnitMap.empty

lemma readPick_recast (hf : Text.Recast f) (body : List Token) :
    Carries (List.map (Rule.recast f)) (readPick body) (readPick (body.map (Token.recast f))) := by
  unfold readPick
  rw [hasBracket_recast]
  refine .ite Iff.rfl (fun _ => ?_) fun _ => ?_
  · refine (readBracketed_recast f body).bind fun list => ?_
    refine (readItems_recast hf list.default none list.items).bind fun records => .pure_eq ?_
    rw [List.map_singleton, Rule.recast, Columns.recast, addRecords_recast]
  · refine (Value.read_recast hf body none).bind fun vs => .pure_eq ?_
    rw [Values.recast, List.map_map, List.map_map]
    rfl

/-! ### Ranges -/

lemma recast_ofList (f : Char → Char) (bounds : List (TimeUnit × String × String)) :
    Range.mk (UnitMap.ofList (bounds.map fun p => (p.1, (p.2.1.map f, p.2.2.map f))))
      = Range.recast f ⟨UnitMap.ofList bounds⟩ :=
  congrArg Range.mk (UnitMap.ofList_map (fun b : String × String => (b.1.map f, b.2.map f)) bounds)

lemma readRange_recast (hf : Text.Recast f) (default : Option TimeUnit) (tokens : List Token) :
    Carries (Range.recast f) (readRange default tokens)
      (readRange default (tokens.map (Token.recast f))) := by
  unfold readRange
  dsimp only
  rw [takeWhile_recast fun _ => rfl, dropWhile_recast fun _ => rfl]
  generalize tokens.dropWhile (fun t => t.kind ≠ .conjunction) = rest
  generalize tokens.takeWhile (fun t => t.kind ≠ .conjunction) = start
  -- there is a conjunction or the range has no end
  rcases rest with _ | ⟨word, stop⟩
  · exact .error _ _
  have hunit : (significant (tokens.map (Token.recast f))).findSome? Token.unit?
      = (significant tokens).findSome? Token.unit? := by
    rw [significant_recast, List.findSome?_map]
    rfl
  rw [List.map_cons]
  dsimp only
  rw [any_recast fun _ => rfl, hunit]
  refine .guard Iff.rfl _ _ ?_
  refine (Value.read_recast hf start _).bind fun starts => (Value.read_recast hf stop _).bind
    fun stops => ?_
  rw [Values.units_recast, Values.units_recast]
  refine .guard Iff.rfl _ _ (.pure_eq ?_)
  -- the bounds are filed from the recast texts of both sides
  rw [← recast_ofList, show starts.recast f = starts.map fun v => (v.1, v.2.map f) from rfl,
    List.filterMap_map, List.map_filterMap]
  refine congrArg (fun k => Range.mk (UnitMap.ofList (starts.filterMap k))) (funext fun p => ?_)
  simp only [Function.comp_apply, Values.lookup_recast]
  cases stops.lookup p.1 <;> rfl

lemma range_units_recast (f : Char → Char) (r : Range) : (r.recast f).units = r.units :=
  UnitMap.units_map _ _

lemma readBetween_recast (hf : Text.Recast f) (body : List Token) :
    Carries (List.map (Rule.recast f)) (readBetween body)
      (readBetween (body.map (Token.recast f))) := by
  unfold readBetween
  rw [hasBracket_recast]
  refine .ite Iff.rfl (fun _ => ?_) fun _ => ?_
  · refine (readBracketed_recast f body).bind fun list => ?_
    refine (Carries.mapM fun item => readRange_recast hf list.default item).bind fun ranges => ?_
    have hunits : Range.units ∘ Range.recast f = Range.units := funext (range_units_recast f)
    have hodd : (fun r : Range => decide (r.units ≠ (ranges.head?.map Range.units).getD ∅)) ∘
      Range.recast f
        = fun r => decide (r.units ≠ (ranges.head?.map Range.units).getD ∅) :=
      funext fun r => by rw [Function.comp_apply, range_units_recast]
    dsimp only
    rw [List.head?_map, Option.map_map, hunits, List.find?_map, hodd]
    generalize ranges.find? (fun r => r.units ≠ (ranges.head?.map Range.units).getD ∅) = odd
    cases odd with
    | some odd => exact .error _ _
    | none => exact .ok _
  · exact (readRange_recast hf none body).bind fun r => .ok _

lemma openStart_recast (hf : Text.Recast f) (u : TimeUnit) : (openStart u).map f = openStart u :=
  hf.map_of_isNumeral (by cases u <;> decide)

lemma readUpto_recast (hf : Text.Recast f) (body : List Token) :
    Carries (List.map (Rule.recast f)) (readUpto body) (readUpto (body.map (Token.recast f))) := by
  refine (Value.read_recast hf body none).bind fun vs =>
    .pure_eq (congrArg (fun w => [Rule.within w]) ?_)
  rw [← recast_ofList, Values.recast, List.map_map, List.map_map]
  exact congrArg (fun bounds => Range.mk (UnitMap.ofList bounds))
    (List.map_congr_left fun v _ => by simp [openStart_recast hf])

lemma map_again (hagain : ∀ c, f (f c) = f c) (s : String) : (s.map f).map f = s.map f := by
  apply String.toList_inj.1
  rw [String.toList_map, String.toList_map, List.map_map]
  exact List.map_congr_left fun c _ => hagain c

lemma recast_recast (hagain : ∀ c, f (f c) = f c) (r : Rule) :
    (r.recast f).recast f = r.recast f := by
  have hrange (w : Range) : (w.recast f).recast f = w.recast f := by
    refine congrArg Range.mk (UnitMap.ext_get? fun u => ?_)
    rw [Range.recast, UnitMap.get?_map, UnitMap.get?_map]
    cases w.bounds.get? u with
    | none => rfl
    | some b => simp [map_again hagain]
  cases r with
  | every e =>
    obtain ⟨u, n, anchor⟩ := e
    cases anchor <;> simp [Rule.recast, map_again hagain]
  | equals u text => simp [Rule.recast, map_again hagain]
  | oneOf c =>
    refine congrArg (fun m => Rule.oneOf ⟨m⟩) (UnitMap.ext_get? fun u => ?_)
    rw [Columns.recast, UnitMap.get?_map, UnitMap.get?_map]
    cases c.lists.get? u with
    | none => rfl
    | some texts => simp [map_again hagain]
  | within w => exact congrArg Rule.within (hrange w)
  | withinAny ws =>
    rw [Rule.recast, Rule.recast, List.map_map]
    exact congrArg Rule.withinAny (List.map_congr_left fun w _ => hrange w)
  | zone id => rfl

/-- The last value of a unit may be a word, so the rules agree once both are recast. -/
lemma readOnward_recast (hf : Text.Recast f) (hagain : ∀ c, f (f c) = f c) (body : List Token) :
    Carries (List.map (Rule.recast f)) (readOnward body)
      ((readOnward (body.map (Token.recast f))).map (List.map (Rule.recast f))) := by
  have hread := Value.read_recast hf body none
  unfold readOnward
  generalize Value.read body none = x at hread ⊢
  generalize Value.read (body.map (Token.recast f)) none = y at hread ⊢
  cases hread with
  | error e e' => exact .error e e'
  | ok vs =>
    refine .pure_eq (congrArg (fun w => [Rule.within w]) ?_)
    rw [← recast_ofList, ← recast_ofList, Values.recast, List.map_map, List.map_map, List.map_map]
    exact congrArg (fun bounds => Range.mk (UnitMap.ofList bounds))
      (List.map_congr_left fun v _ => by simp [map_again hagain])

/-- **The rules of a recast clause are its rules recast.** -/
theorem ofClause_recast (hf : Text.Recast f) (hagain : ∀ c, f (f c) = f c) {c : Clause}
    (hz : c.keyword ≠ .zone) : Carries (List.map (Rule.recast f)) (ofClause c)
      ((ofClause (c.recast f)).map (List.map (Rule.recast f))) := by
  have hagain' (x y : Except Malformed (List Rule)) (h : Carries (List.map (Rule.recast f)) x y) :
      Carries (List.map (Rule.recast f)) x (y.map (List.map (Rule.recast f))) := by
    cases h with
    | error e e' => exact .error e e'
    | ok rules =>
      refine .pure_eq ?_
      rw [List.map_map]
      exact List.map_congr_left fun r _ => recast_recast hagain r
  obtain ⟨keyword, head, body⟩ := c
  cases keyword with
  | every => exact hagain' _ _ (readEvery_recast hf body)
  | each u => exact hagain' _ _ (readEach_recast hf u body)
  | pick => exact hagain' _ _ (readPick_recast hf body)
  | between => exact hagain' _ _ (readBetween_recast hf body)
  | upto => exact hagain' _ _ (readUpto_recast hf body)
  | onward => exact readOnward_recast hf hagain body
  | zone => exact absurd rfl hz

/-- **Clauses that are the same once recast are read as rules that are the same once recast.** -/
theorem ofClause_of_recast (hf : Text.Recast f) (hagain : ∀ c, f (f c) = f c) {c c' : Clause}
    (hz : c.keyword ≠ .zone) (hk : c'.keyword = c.keyword)
    (hbody : c'.body.map (Token.recast f) = c.body.map (Token.recast f)) {rules : List Rule}
    (h : ofClause c = .ok rules) :
    ∃ rules', ofClause c' = .ok rules'
      ∧ rules'.map (Rule.recast f) = rules.map (Rule.recast f) := by
  have heq : ofClause (c'.recast f) = ofClause (c.recast f) := by
    unfold ofClause Clause.recast
    rw [hk, hbody]
  have hc := ofClause_recast hf hagain hz
  have hc' := ofClause_recast hf hagain (c := c') (hk ▸ hz)
  rw [heq] at hc'
  rw [h] at hc
  generalize (ofClause (c.recast f)).map (List.map (Rule.recast f)) = y at hc hc'
  cases hc
  generalize hy : Except.ok (rules.map (Rule.recast f)) = y at hc'
  generalize hx : ofClause c' = x at hc'
  cases hc' with
  | ok rules' => exact ⟨rules', rfl, (Except.ok.inj hy).symm⟩
  | error => cases hy

lemma recast_id (r : Rule) : r.recast id = r := by
  have hid : String.map id = id := funext fun s => String.toList_inj.1 (by simp)
  have hrange : Range.recast id = id := by
    refine funext fun w => congrArg Range.mk (UnitMap.ext_get? fun u => ?_)
    rw [UnitMap.get?_map]
    cases w.bounds.get? u <;> simp
  cases r with
  | every e => simp [Rule.recast, hid]
  | oneOf c =>
    refine congrArg (fun m => Rule.oneOf ⟨m⟩) (UnitMap.ext_get? fun u => ?_)
    rw [UnitMap.get?_map, hid, List.map_id_fun, Option.map_id, id]
  | _ => simp [Rule.recast, hrange]

end Rule

end Recurrence
