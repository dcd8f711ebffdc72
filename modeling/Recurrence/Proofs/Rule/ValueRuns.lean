import Recurrence.Proofs.Rule.Filing

/-!
Value runs: the parts of a clause that are read as one value each. A clause with values has one rule
for each pair of its one value, or the columns of its items, or ranges between the values of two
sides.

Main statements: `readPick_eq_ok` and `readBetween_eq_ok`.
-/

namespace Recurrence

open Token

/-- Tokens that are read as one value, and the unit for a number among them. -/
structure ValueRun where
  tokens : List Token
  default : Option TimeUnit

namespace ValueRun

def read (r : ValueRun) : Except Malformed Values := Value.read r.tokens r.default

def populated (r : ValueRun) : Nat :=
  match r.read with
  | .ok vs => vs.length
  | .error _ => 0

def sides (r : ValueRun) : List ValueRun :=
  let unit := r.default.or ((significant r.tokens).findSome? Token.unit?)
  [⟨r.tokens.takeWhile fun t => t.kind ≠ .conjunction, unit⟩,
    ⟨(r.tokens.dropWhile fun t => t.kind ≠ .conjunction).tail, unit⟩]

/-- The items of a bracketed list or, where there is no bracket, the whole body of a clause. -/
def ofBody (body : List Token) : List ValueRun :=
  if Rule.hasBracket body then
    match Rule.readBracketed body with
    | .ok list => list.items.map fun item => ⟨item, list.default⟩
    | .error _ => []
  else [⟨body, none⟩]

lemma read_of_populated {r : ValueRun} (h : r.populated = 1) :
    ∃ u text, r.read = .ok [(u, text)] := by
  unfold populated at h
  split at h
  · rename_i vs hvs
    obtain ⟨⟨u, text⟩, rfl⟩ := List.length_eq_one_iff.1 h
    exact ⟨u, text, hvs⟩
  · cases h

/-- The run is made of tokens of the body, and its unit is that of one of them. -/
structure In (body : List Token) (r : ValueRun) : Prop where
  tokens : ∀ t ∈ r.tokens, t ∈ body
  default : ∀ u, r.default = some u → ∃ t ∈ body, t.unit? = some u

end ValueRun

def Clause.valueRuns (c : Clause) : List ValueRun :=
  match c.keyword with
  | .pick => ValueRun.ofBody c.body
  | .between => (ValueRun.ofBody c.body).flatMap ValueRun.sides
  | .upto | .onward => [⟨c.body, none⟩]
  | .every | .each _ | .zone => []

def Rule.values : Rule → List Values
  | .equals u text => [[(u, text)]]
  | .oneOf c => c.records
  | .within r => [r.starts, r.stops]
  | .withinAny rs => rs.flatMap fun r => [r.starts, r.stops]
  | .every _ | .zone _ => []

namespace Rule

variable {body : List Token} {default : Option TimeUnit} {rules : List Rule}

lemma ofBody_of_bracket {list : Bracketed} (hb : hasBracket body = true)
    (h : readBracketed body = .ok list) :
    ValueRun.ofBody body = list.items.map fun item => ⟨item, list.default⟩ := by
  rw [ValueRun.ofBody, if_pos hb, h]

lemma ofBody_of_not_bracket (h : ¬hasBracket body = true) :
    ValueRun.ofBody body = [⟨body, none⟩] := if_neg h

/-! ### Bracketed lists -/

lemma mem_of_mem_splitCommas {ts item : List Token} {t : Token} (hi : item ∈ splitCommas ts)
    (ht : t ∈ item) : t ∈ ts := by
  induction ts generalizing item with
  | nil =>
    rw [List.mem_singleton.1 hi] at ht
    cases ht
  | cons t' ts ih =>
    rw [splitCommas] at hi
    split at hi
    · rw [List.mem_singleton.1 hi] at ht
      rw [List.mem_singleton.1 ht]
      exact List.mem_cons_self
    · rename_i first items hsplit
      rw [hsplit] at ih
      split at hi
      · rcases List.mem_cons.1 hi with rfl | hi
        · cases ht
        · exact List.mem_cons_of_mem _ (ih hi ht)
      · rcases List.mem_cons.1 hi with rfl | hi
        · rcases List.mem_cons.1 ht with rfl | ht
          · exact List.mem_cons_self
          · exact List.mem_cons_of_mem _ (ih List.mem_cons_self ht)
        · exact List.mem_cons_of_mem _ (ih (List.mem_cons_of_mem _ hi) ht)

lemma splitCommas_ne_nil (ts : List Token) : splitCommas ts ≠ [] := by
  cases ts with
  | nil => simp [splitCommas]
  | cons t ts =>
    rw [splitCommas]
    split
    · simp
    · split <;> simp

lemma items_of_readBracketed {list : Bracketed} (h : readBracketed body = .ok list) :
    list.items ≠ [] ∧ (∀ item ∈ list.items, ∀ t ∈ item, t ∈ body)
      ∧ ∀ u, list.default = some u → ∃ t ∈ body, t.unit? = some u := by
  unfold readBracketed at h
  extract_lets before opened after inner items first finish resume at h
  -- every cut of the body leaves tokens of the body
  have hinner : ∀ t ∈ inner, t ∈ body := fun t ht =>
    (List.dropWhile_sublist _).subset ((List.drop_sublist _ _).subset (List.mem_reverse.1
      ((List.dropWhile_sublist _).subset ((List.drop_sublist _ _).subset (List.mem_reverse.1 ht)))))
  have hitems : ∀ item ∈ items, ∀ t ∈ item, t ∈ body := fun item hi t ht =>
    hinner t (mem_of_mem_splitCommas hi ht)
  -- the unit is the word in front of the bracket or starts the first item
  have hfirst : ∀ u, first = some u → ∃ t ∈ body, t.unit? = some u := by
    intro u h
    obtain ⟨item, hi, h⟩ := Option.bind_eq_some_iff.1 h
    obtain ⟨t, ht, h⟩ := Option.bind_eq_some_iff.1 h
    exact ⟨t, hitems item (List.mem_of_mem_head? hi) t
      (List.mem_of_mem_filter (List.mem_of_mem_head? ht)), h⟩
  have hfinish {named : Option TimeUnit}
      (hnamed : ∀ u, named = some u → ∃ t ∈ body, t.unit? = some u)
      (h : finish named = .ok list) : list.items ≠ []
        ∧ (∀ item ∈ list.items, ∀ t ∈ item, t ∈ body)
        ∧ ∀ u, list.default = some u → ∃ t ∈ body, t.unit? = some u := by
    dsimp only [finish] at h
    split at h
    · cases h
    split at h
    · cases h
    split at h
    · cases h
    cases h
    refine ⟨splitCommas_ne_nil _, hitems, fun u hu => ?_⟩
    rcases Option.or_eq_some_iff.1 hu with hu | ⟨-, hu⟩
    · exact hnamed u hu
    · exact hfirst u hu
  split at h
  · cases h
  dsimp only [resume] at h
  split at h
  · exact hfinish (by simp) h
  · rename_i word hword
    split at h
    · rename_i unit hunit
      refine hfinish ?_ h
      rintro _ ⟨⟩
      have hmem : word ∈ significant before := by
        rw [hword]
        exact List.mem_cons_self
      exact ⟨word, (List.takeWhile_sublist _).subset (List.mem_of_mem_filter hmem), hunit⟩
    · cases h
  · cases h

lemma in_of_mem_ofBody {run : ValueRun} (h : run ∈ ValueRun.ofBody body) : run.In body := by
  unfold ValueRun.ofBody at h
  split at h
  · split at h
    · rename_i list hlist
      obtain ⟨-, hitems, hdefault⟩ := items_of_readBracketed hlist
      obtain ⟨item, hitem, rfl⟩ := List.mem_map.1 h
      exact ⟨hitems item hitem, hdefault⟩
    · cases h
  · rw [List.mem_singleton.1 h]
    exact ⟨fun _ ht => ht, by simp⟩

lemma in_of_mem_sides {r run : ValueRun} (hr : r.In body) (h : run ∈ r.sides) : run.In body := by
  have hunit : ∀ u, r.default.or ((significant r.tokens).findSome? Token.unit?) = some u →
      ∃ t ∈ body, t.unit? = some u := by
    intro u hu
    rcases Option.or_eq_some_iff.1 hu with hu | ⟨-, hu⟩
    · exact hr.default u hu
    · obtain ⟨t, ht, hu⟩ := List.exists_of_findSome?_eq_some hu
      exact ⟨t, hr.tokens t (List.mem_of_mem_filter ht), hu⟩
  rcases List.mem_cons.1 h with rfl | h
  · exact ⟨fun t ht => hr.tokens t ((List.takeWhile_sublist _).subset ht), hunit⟩
  · obtain rfl := List.mem_singleton.1 h
    exact ⟨fun t ht => hr.tokens t ((List.dropWhile_sublist _).subset (List.mem_of_mem_tail ht)),
      hunit⟩

/-! ### Readers -/

lemma readItems_eq_ok {items : List (List Token)} {shape : Option UnitSet} {records : List Values}
    (h : readItems default shape items = .ok records) :
    List.Forall₂ (fun item r => Value.read item default = .ok r) items records
      ∧ (∀ s, shape = some s → ∀ r ∈ records, r.units = s)
      ∧ ∀ r ∈ records, ∀ r' ∈ records, r.units = r'.units := by
  induction items generalizing shape records with
  | nil =>
    cases h
    simp
  | cons item items ih =>
    obtain ⟨record, hrecord, h₁⟩ := Value.bind_eq_ok.1 h
    clear h
    split at h₁
    · cases h₁
    rename_i hshape
    obtain ⟨others, hothers, h₂⟩ := Value.bind_eq_ok.1 h₁
    cases h₂
    obtain ⟨hread, hunits, -⟩ := ih hothers
    have hsame : ∀ r ∈ record :: others, r.units = record.units :=
      List.forall_mem_cons.2 ⟨rfl, hunits _ rfl⟩
    refine ⟨.cons hrecord hread, ?_, fun r hr r' hr' => (hsame r hr).trans (hsame r' hr').symm⟩
    rintro s rfl r hr
    rw [hsame r hr]
    by_contra hne
    exact hshape (by simpa using Ne.symm hne)

/-- A clause of fixed values has a rule for each unit of its value, or the columns of its items. -/
theorem readPick_eq_ok (h : readPick body = .ok rules) :
    (∃ vs, ValueRun.ofBody body = [⟨body, none⟩] ∧ Value.read body none = .ok vs
        ∧ rules = vs.map fun p => .equals p.1 p.2)
      ∨ ∃ records, List.Forall₂ (fun run r => run.read = .ok r) (ValueRun.ofBody body) records
        ∧ records ≠ [] ∧ (∀ r ∈ records, ∀ r' ∈ records, r.units = r'.units)
        ∧ rules = [.oneOf (.ofRecords records)] := by
  unfold readPick at h
  split at h
  · rename_i hb
    obtain ⟨list, hlist, h₁⟩ := Value.bind_eq_ok.1 h
    obtain ⟨records, hrecords, h₂⟩ := Value.bind_eq_ok.1 h₁
    cases h₂
    obtain ⟨hread, -, hunits⟩ := readItems_eq_ok hrecords
    refine Or.inr ⟨records, ?_, ?_, hunits, rfl⟩
    · rw [ofBody_of_bracket hb hlist]
      exact List.forall₂_map_left_iff.2 hread
    · rintro rfl
      exact (items_of_readBracketed hlist).1 (List.forall₂_nil_right_iff.1 hread)
  · rename_i hb
    obtain ⟨vs, hvs, h₁⟩ := Value.bind_eq_ok.1 h
    cases h₁
    exact Or.inl ⟨vs, ofBody_of_not_bracket hb, hvs, rfl⟩

/-- A range is between the values of its two sides, which have the same units. -/
theorem readRange_eq_ok {ts : List Token} {r : Range} (h : readRange default ts = .ok r) :
    ∃ starts stops, List.Forall₂ (fun run vs => run.read = .ok vs) (ValueRun.sides ⟨ts, default⟩)
        [starts, stops]
      ∧ starts.units = stops.units ∧ r = .ofSides starts stops := by
  unfold readRange at h
  extract_lets start named at h
  split at h
  · cases h
  rename_i word stop hstop
  extract_lets finish at h
  split at h
  · cases h
  obtain ⟨starts, hstarts, h₁⟩ := Value.bind_eq_ok.1 h
  obtain ⟨stops, hstops, h₂⟩ := Value.bind_eq_ok.1 h₁
  clear h h₁
  split at h₂
  · cases h₂
  rename_i hunits
  cases h₂
  refine ⟨starts, stops, .cons hstarts (.cons ?_ .nil), not_not.1 hunits, rfl⟩
  rw [ValueRun.read, hstop]
  exact hstops

/-- A clause of windows has the range of its body, or the ranges of its items. -/
theorem readBetween_eq_ok (h : readBetween body = .ok rules) :
    ∃ ranges, List.Forall₂ (fun run r => readRange run.default run.tokens = .ok r)
        (ValueRun.ofBody body) ranges
      ∧ ranges ≠ [] ∧ (∀ r ∈ ranges, r.units = (ranges.head?.map Range.units).getD ∅)
      ∧ ((∃ r, ranges = [r] ∧ rules = [.within r]) ∨ rules = [.withinAny ranges]) := by
  unfold readBetween at h
  split at h
  · rename_i hb
    obtain ⟨list, hlist, h₁⟩ := Value.bind_eq_ok.1 h
    obtain ⟨ranges, hranges, h₂⟩ := Value.bind_eq_ok.1 h₁
    clear h h₁
    extract_lets shape at h₂
    split at h₂
    · cases h₂
    rename_i hodd
    cases h₂
    have hread := Value.forall₂_of_mapM hranges
    refine ⟨ranges, ?_, ?_, fun r hr => by simpa using List.find?_eq_none.1 hodd r hr, Or.inr rfl⟩
    · rw [ofBody_of_bracket hb hlist]
      exact List.forall₂_map_left_iff.2 hread
    · rintro rfl
      exact (items_of_readBracketed hlist).1 (List.forall₂_nil_right_iff.1 hread)
  · rename_i hb
    obtain ⟨r, hr, h₁⟩ := Value.bind_eq_ok.1 h
    cases h₁
    refine ⟨[r], ?_, by simp, List.forall_mem_singleton.2 rfl, Or.inl ⟨r, rfl, rfl⟩⟩
    rw [ofBody_of_not_bracket hb]
    exact .cons hr .nil

lemma readEach_eq_ok {unit : TimeUnit} (h : readEach unit body = .ok rules) :
    ∃ e, rules = [.every e] := by
  obtain ⟨⟨main, anchor⟩, -, h₁⟩ := Value.bind_eq_ok.1 h
  dsimp only at h₁
  split at h₁ <;> cases h₁
  exact ⟨_, rfl⟩

lemma readEvery_eq_ok (h : readEvery body = .ok rules) : ∃ e, rules = [.every e] := by
  obtain ⟨⟨main, anchor⟩, -, h₁⟩ := Value.bind_eq_ok.1 h
  clear h
  dsimp only at h₁
  generalize Option.filter _ (significant main).head? = count at h₁
  rcases count with _ | count
  all_goals
    obtain ⟨n, -, h⟩ := Value.bind_eq_ok.1 h₁
    split at h
    · cases h
    · cases h
    split at h
    · cases h
      exact ⟨_, rfl⟩
    · split at h
      · cases h
      split at h
      · cases h
      cases h
      exact ⟨_, rfl⟩
    · cases h

lemma readZone_eq_ok (h : readZone body = .ok rules) : ∃ id, rules = [.zone id] := by
  unfold readZone at h
  dsimp only at h
  split at h
  · cases h
  · cases h
    exact ⟨_, rfl⟩

end Rule

end Recurrence
