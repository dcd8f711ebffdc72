import Recurrence.Proofs.Rule.RoundTrips
import Recurrence.Proofs.Value.UsedTokens

/-!
The tokens of clauses. A clause that is read has a use for each of its tokens, in a value, in a
cadence or as a sign of a list; and an anchor that stands for something has no name of a zone in it.
Only a clause that names a zone takes its tokens as they are.

Main statement: `not_odd_of_ofClause`.
-/

namespace Recurrence

open Token

variable {t : Token} {ts body : List Token}

/-- Among the tokens of a body only the name of a zone is of no use, and that has a slash in it. -/
lemma Token.Usable.not_odd (h : t.Usable) (hslash : '/' ∉ t.text.toList) : ¬ t.Odd := by
  have hgenuine := h.genuine
  rintro (hk | hk)
  · rw [Genuine, hk] at hgenuine
    exact hslash hgenuine
  · rw [Genuine, hk, h.valid] at hgenuine
    cases hgenuine

namespace Rule

lemma forall_of_divided {k : Kind} {Q : Token → Prop} (hk : ∀ t : Token, t.kind = k → Q t)
    (hbefore : ∀ t ∈ ts.takeWhile (fun t => t.kind ≠ k), Q t)
    (hafter : ∀ t ∈ (ts.dropWhile fun t => t.kind ≠ k).tail, Q t) : ∀ t ∈ ts, Q t := by
  intro t ht
  rw [← List.takeWhile_append_dropWhile (p := fun t : Token => decide (t.kind ≠ k)) (l := ts),
    List.mem_append] at ht
  rcases ht with ht | ht
  · exact hbefore t ht
  · cases hrest : ts.dropWhile (fun t => decide (t.kind ≠ k)) with
    | nil =>
      rw [hrest] at ht
      cases ht
    | cons word rest =>
      have hword := List.head?_dropWhile_not (fun t : Token => decide (t.kind ≠ k)) ts
      rw [hrest] at ht hafter hword
      rcases List.mem_cons.1 ht with rfl | ht
      · exact hk t (by simpa using hword)
      · exact hafter t ht

/-! ### Cadences -/

lemma not_odd_of_splitAnchor {main : List Token} {anchor : Option String}
    (hbody : ∀ t ∈ body, t.Usable)
    (h : splitAnchor body = .ok (main, anchor)) (hmain : ∀ t ∈ main, ¬ t.Odd)
    (hanchor : ∀ text, anchor = some text → '/' ∉ text.toList) : ∀ t ∈ body, ¬ t.Odd := by
  unfold splitAnchor at h
  split at h
  · cases h
    exact hmain
  · rename_i word value hvalue
    split at h
    · cases h
    split at h
    · cases h
    cases h
    refine forall_of_divided (k := .anchor) (fun t ht => not_odd_of_kind ht (by decide)) hmain ?_
    rw [hvalue]
    refine not_odd_of_significant fun t ht => (hbody t ?_).not_odd fun hslash => ?_
    · exact (List.dropWhile_sublist _).subset
        (hvalue ▸ List.mem_cons_of_mem _ (List.mem_of_mem_filter ht))
    · exact hanchor _ rfl (mem_join ht hslash)

lemma not_slash_of_meaningful {e : Every} (h : (every e).Meaningful) :
    ∀ text, e.anchor = some text → '/' ∉ text.toList :=
  fun text htext hslash => Resolution.not_odd_of_isValid (h text htext) '/' hslash (by decide)

lemma not_odd_of_readEach {unit : TimeUnit} {rules : List Rule} (hbody : ∀ t ∈ body, t.Usable)
    (h : readEach unit body = .ok rules) (hm : ∀ r ∈ rules, r.Meaningful) :
    ∀ t ∈ body, ¬ t.Odd := by
  obtain ⟨⟨main, anchor⟩, hsplit, h⟩ := Value.bind_eq_ok.1 h
  dsimp only at h
  split at h
  · cases h
  · rename_i hmain
    cases h
    refine not_odd_of_splitAnchor hbody hsplit (not_odd_of_significant ?_)
      (not_slash_of_meaningful (List.forall_mem_singleton.1 hm))
    rw [hmain]
    exact List.forall_mem_nil _

lemma not_odd_of_counted {main : List Token} {count : Option Token} {word : Token}
    (hcount : (significant main).head?.filter (fun t => decide (t.kind = .number)) = count)
    (hword : ¬ word.Odd)
    (hrest : (if count.isSome = true then (significant main).tail else significant main) = [word]) :
    ∀ t ∈ main, ¬ t.Odd := by
  refine not_odd_of_significant ?_
  cases count with
  | none =>
    have hrest : significant main = [word] := hrest
    rw [hrest]
    exact List.forall_mem_singleton.2 hword
  | some number =>
    have hrest : (significant main).tail = [word] := hrest
    obtain ⟨hhead, hk⟩ := Option.filter_eq_some_iff.1 hcount
    obtain ⟨rest, hall⟩ := List.head?_eq_some_iff.1 hhead
    rw [hall, List.tail_cons] at hrest
    rw [hall, hrest]
    exact List.forall_mem_cons.2 ⟨not_odd_of_kind (of_decide_eq_true hk) (by decide),
      List.forall_mem_singleton.2 hword⟩

lemma not_odd_of_readEvery {rules : List Rule} (hbody : ∀ t ∈ body, t.Usable)
    (h : readEvery body = .ok rules) (hm : ∀ r ∈ rules, r.Meaningful) : ∀ t ∈ body, ¬ t.Odd := by
  obtain ⟨⟨main, anchor⟩, hsplit, h₁⟩ := Value.bind_eq_ok.1 h
  clear h
  dsimp only at h₁
  generalize hcount : (significant main).head?.filter (fun t => decide (t.kind = .number)) = count
    at h₁
  -- the words are the interval, if there is one, and a unit or a weekday
  rcases count with _ | count
  all_goals
    obtain ⟨n, -, h₂⟩ := Value.bind_eq_ok.1 h₁
    clear h₁
    split at h₂
    · cases h₂
    · cases h₂
    rename_i word hrest
    split at h₂
    · rename_i unit hk
      cases h₂
      have hword : ¬ word.Odd := not_odd_of_unit? (by rw [unit?, hk]; rfl)
      exact not_odd_of_splitAnchor hbody hsplit (not_odd_of_counted hcount hword hrest)
        (not_slash_of_meaningful (List.forall_mem_singleton.1 hm))
    · rename_i hk
      split at h₂
      · cases h₂
      split at h₂
      · cases h₂
      -- a weekday stands without another anchor
      rename_i hanchor
      have hword : ¬ word.Odd := not_odd_of_kind hk (by decide)
      refine not_odd_of_splitAnchor hbody hsplit (not_odd_of_counted hcount hword hrest) ?_
      rintro text rfl
      exact absurd rfl hanchor
    · cases h₂

/-! ### Lists -/

lemma not_odd_of_splitCommas (h : ∀ item ∈ splitCommas ts, ∀ t ∈ item, ¬ t.Odd) :
    ∀ t ∈ ts, ¬ t.Odd := by
  induction ts with
  | nil => exact List.forall_mem_nil _
  | cons t ts ih =>
    rw [splitCommas] at h
    split at h
    · rename_i hnil
      exact absurd hnil (splitCommas_ne_nil ts)
    · rename_i item items hsplit
      rw [hsplit] at ih
      split at h
      · rename_i hcomma
        exact List.forall_mem_cons.2 ⟨not_odd_of_kind hcomma (by decide),
          ih (List.forall_mem_cons.1 h).2⟩
      · obtain ⟨hfirst, hitems⟩ := List.forall_mem_cons.1 h
        obtain ⟨ht, hitem⟩ := List.forall_mem_cons.1 hfirst
        exact List.forall_mem_cons.2 ⟨ht, ih (List.forall_mem_cons.2 ⟨hitem, hitems⟩)⟩

lemma not_odd_of_readBracketed {list : Bracketed} (h : readBracketed body = .ok list)
    (hitems : ∀ item ∈ list.items, ∀ t ∈ item, ¬ t.Odd) : ∀ t ∈ body, ¬ t.Odd := by
  unfold readBracketed at h
  extract_lets before opened after inner items first finish resume at h
  -- the body is divided at two brackets, which are of use themselves
  have hall (hbefore : ∀ t ∈ significant before, ¬ t.Odd) (hafter : significant after = [])
      (hinner : ∀ item ∈ items, ∀ t ∈ item, ¬ t.Odd) : ∀ t ∈ body, ¬ t.Odd := by
    refine forall_of_divided (k := .openBracket) (fun t ht => not_odd_of_kind ht (by decide))
      (not_odd_of_significant hbefore) ?_
    rw [← List.drop_one]
    suffices hopened : ∀ t ∈ opened.reverse, ¬ t.Odd from
      fun t ht => hopened t (List.mem_reverse.2 ht)
    refine forall_of_divided (k := .closeBracket) (fun t ht => not_odd_of_kind ht (by decide)) ?_ ?_
    · suffices hafter : ∀ t ∈ after, ¬ t.Odd from
        fun t ht => hafter t (List.mem_reverse.2 ht)
      refine not_odd_of_significant ?_
      rw [hafter]
      exact List.forall_mem_nil _
    · rw [← List.drop_one]
      exact fun t ht => not_odd_of_splitCommas hinner t (List.mem_reverse.2 ht)
  -- a list that is read has nothing behind its bracket
  have hfinish {named : Option TimeUnit} (hbefore : ∀ t ∈ significant before, ¬ t.Odd)
      (h : finish named = .ok list) : ∀ t ∈ body, ¬ t.Odd := by
    dsimp only [finish] at h
    split at h
    · cases h
    rename_i hafter
    split at h
    · cases h
    split at h
    · cases h
    cases h
    exact hall hbefore hafter hitems
  split at h
  · cases h
  dsimp only [resume] at h
  split at h
  · rename_i hnil
    exact hfinish (by rw [hnil]; exact List.forall_mem_nil _) h
  -- and at most a unit in front
  · rename_i word hword
    split at h
    · rename_i unit hunit
      refine hfinish ?_ h
      rw [hword]
      exact List.forall_mem_singleton.2 (not_odd_of_unit? (by rw [hunit]; rfl))
    · cases h
  · cases h

lemma not_odd_of_ofBody (hruns : ∀ run ∈ ValueRun.ofBody body, ∀ t ∈ run.tokens, ¬ t.Odd)
    (hlist : hasBracket body = true → ∃ list, readBracketed body = .ok list) :
    ∀ t ∈ body, ¬ t.Odd := by
  by_cases hb : hasBracket body = true
  · obtain ⟨list, hlist⟩ := hlist hb
    rw [ofBody_of_bracket hb hlist] at hruns
    exact not_odd_of_readBracketed hlist fun item hitem => hruns _ (List.mem_map_of_mem hitem)
  · rw [ofBody_of_not_bracket hb] at hruns
    exact List.forall_mem_singleton.1 hruns

lemma forall_of_forall₂ {α β : Type} {R : α → β → Prop} {P : α → Prop} {as : List α} {bs : List β}
    (h : List.Forall₂ R as bs) (hp : ∀ a b, R a b → P a) : ∀ a ∈ as, P a :=
  ((List.forall₂_and_left as bs).1 (h.imp fun a b hab => ⟨hp a b hab, hab⟩)).1

lemma not_odd_of_readPick {rules : List Rule} (h : readPick body = .ok rules) :
    ∀ t ∈ body, ¬ t.Odd := by
  refine not_odd_of_ofBody ?_ fun hb => ?_
  · rcases readPick_eq_ok h with ⟨vs, hbody, hvs, -⟩ | ⟨records, hread, -⟩
    · rw [hbody]
      exact List.forall_mem_singleton.2 (Value.not_odd_of_read hvs)
    · exact forall_of_forall₂ hread fun run r => Value.not_odd_of_read
  · unfold readPick at h
    rw [if_pos hb] at h
    obtain ⟨list, hlist, -⟩ := Value.bind_eq_ok.1 h
    exact ⟨list, hlist⟩

lemma not_odd_of_readRange {default : Option TimeUnit} {r : Range}
    (h : readRange default ts = .ok r) :
    ∀ t ∈ ts, ¬ t.Odd := by
  obtain ⟨starts, stops, hsides, -⟩ := readRange_eq_ok h
  have hused : ∀ run ∈ ValueRun.sides ⟨ts, default⟩, ∀ t ∈ run.tokens, ¬ t.Odd :=
    forall_of_forall₂ hsides fun run _ => Value.not_odd_of_read
  obtain ⟨hstart, hstop⟩ := List.forall_mem_cons.1 hused
  exact forall_of_divided (k := .conjunction) (fun t ht => not_odd_of_kind ht (by decide)) hstart
    (List.forall_mem_singleton.1 hstop)

lemma not_odd_of_readBetween {rules : List Rule} (h : readBetween body = .ok rules) :
    ∀ t ∈ body, ¬ t.Odd := by
  refine not_odd_of_ofBody ?_ fun hb => ?_
  · obtain ⟨ranges, hread, -⟩ := readBetween_eq_ok h
    exact forall_of_forall₂ hread fun run r => not_odd_of_readRange
  · unfold readBetween at h
    rw [if_pos hb] at h
    obtain ⟨list, hlist, -⟩ := Value.bind_eq_ok.1 h
    exact ⟨list, hlist⟩

/-- **A clause that is read has a use for all its tokens,** where it names no zone and its rules
mean something. -/
theorem not_odd_of_ofClause {c : Clause} {rules : List Rule} (hz : c.keyword ≠ .zone)
    (hbody : ∀ t ∈ c.body, t.Usable) (h : ofClause c = .ok rules) (hm : ∀ r ∈ rules, r.Meaningful) :
    ∀ t ∈ c.body, ¬ t.Odd := by
  have hvalue {f : Values → List Rule}
    (h : (do return f (← Value.read c.body none)) = Except.ok rules) :
      ∀ t ∈ c.body, ¬ t.Odd := by
    obtain ⟨vs, hvs, -⟩ := Value.bind_eq_ok.1 h
    exact Value.not_odd_of_read hvs
  unfold ofClause at h
  split at h
  · exact not_odd_of_readEvery hbody h hm
  · exact not_odd_of_readEach hbody h hm
  · exact not_odd_of_readPick h
  · exact not_odd_of_readBetween h
  · exact hvalue h
  · exact hvalue h
  · rename_i hk
    exact absurd hk hz

end Rule

end Recurrence
