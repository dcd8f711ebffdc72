import Recurrence.Proofs.Value.Spellings

/-!
What trimming and the division into runs make of tokens that are put together: trivia around a value
is taken off, and a blank between two stretches makes runs of them.
-/

namespace Recurrence.Token

variable {ts us : List Token} {t : Token}

lemma spell_append {ls ls' : List Lexeme} (h : Spell ts (ls ++ ls')) :
    ∃ as bs, ts = as ++ bs ∧ Spell as ls ∧ Spell bs ls' := by
  induction ls generalizing ts with
  | nil => exact ⟨[], ts, rfl, .nil, h⟩
  | cons l ls ih =>
    obtain ⟨t, ts', ht, hts, rfl⟩ := List.forall₂_cons_right_iff.1 h
    obtain ⟨as, bs, rfl, has, hbs⟩ := ih hts
    exact ⟨t :: as, bs, rfl, .cons ht has, hbs⟩

lemma takeWhile_kind_ne {k : Kind} (h : ∀ t ∈ ts, t.kind ≠ k) (ht : t.kind = k)
    (rest : List Token) : (ts ++ t :: rest).takeWhile (fun t => t.kind ≠ k) = ts := by
  rw [List.takeWhile_append_of_pos (by simpa using h), List.takeWhile_cons_of_neg (by simp [ht]),
    List.append_nil]

lemma dropWhile_kind_ne {k : Kind} (h : ∀ t ∈ ts, t.kind ≠ k) (ht : t.kind = k)
    (rest : List Token) : (ts ++ t :: rest).dropWhile (fun t => t.kind ≠ k) = t :: rest := by
  rw [List.dropWhile_append_of_pos (by simpa using h), List.dropWhile_cons_of_neg (by simp [ht])]

/-- Tokens that neither start nor end with trivia. -/
structure Trimmed (ts : List Token) : Prop where
  first : ∃ t, ts.head? = some t ∧ t.isTrivia = false
  last : ∃ t, ts.getLast? = some t ∧ t.isTrivia = false

lemma dropWhile_trivia_append {as : List Token} (ha : ∀ t ∈ as, t.isTrivia = true)
    (h : ∃ t, ts.head? = some t ∧ t.isTrivia = false) :
    (as ++ ts).dropWhile isTrivia = ts := by
  obtain ⟨t, ht, hk⟩ := h
  obtain ⟨ts, rfl⟩ := List.head?_eq_some_iff.1 ht
  rw [List.dropWhile_append_of_pos ha, List.dropWhile_cons, if_neg (by simp [hk])]

lemma trimTrivia_append {as bs : List Token} (h : Trimmed ts) (ha : ∀ t ∈ as, t.isTrivia = true)
    (hb : ∀ t ∈ bs, t.isTrivia = true) : trimTrivia (as ++ ts ++ bs) = ts := by
  obtain ⟨t, ht, hk⟩ := h.first
  have hfirst : ∃ t, (ts ++ bs).head? = some t ∧ t.isTrivia = false := by
    refine ⟨t, ?_, hk⟩
    rw [List.head?_append, ht]
    rfl
  rw [trimTrivia, List.append_assoc, dropWhile_trivia_append ha hfirst, List.reverse_append,
    dropWhile_trivia_append (fun t ht => hb t (List.mem_reverse.1 ht)) (by
      rw [List.head?_reverse]
      exact h.last), List.reverse_reverse]

lemma trimTrivia_eq (h : Trimmed ts) : trimTrivia ts = ts := by
  have := trimTrivia_append h (List.forall_mem_nil fun t : Token => t.isTrivia = true)
    (List.forall_mem_nil fun t : Token => t.isTrivia = true)
  rwa [List.nil_append, List.append_nil] at this

lemma splitRuns_append {lead : List Token} {rs : List Run} (hts : ts ≠ [])
    (h : ∀ t ∈ ts, t.kind ≠ .blank) (hus : splitRuns us = (lead, rs))
    (hlead : lead = [] → rs = []) :
    splitRuns (ts ++ us) = ([], ⟨ts, lead⟩ :: rs) := by
  induction ts with
  | nil => exact absurd rfl hts
  | cons t ts ih =>
    obtain ⟨ht, hrest⟩ := List.forall_mem_cons.1 h
    rw [List.cons_append, splitRuns]
    cases ts with
    | nil =>
      rw [List.nil_append, hus]
      simp only [if_neg ht]
      split
      · rename_i r rs
        exact absurd (hlead rfl) (by simp)
      · rfl
    | cons t' ts =>
      rw [ih (by simp) hrest]
      simp only [if_neg ht]

lemma splitRuns_append_blank {b : Token} (hts : ts ≠ []) (h : ∀ t ∈ ts, t.kind ≠ .blank)
    (hb : b.kind = .blank) (hus : (splitRuns us).1 = []) :
    splitRuns (ts ++ b :: us) = ([], ⟨ts, [b]⟩ :: runs us) := by
  refine splitRuns_append hts h ?_ (by simp)
  rw [splitRuns]
  simp only [if_pos hb, hus, runs]

lemma splitRuns_eq_singleton (hts : ts ≠ []) (h : ∀ t ∈ ts, t.kind ≠ .blank) :
    splitRuns ts = ([], [⟨ts, []⟩]) := by
  have := splitRuns_append hts h (show splitRuns [] = ([], []) from rfl) fun _ => rfl
  rwa [List.append_nil] at this

end Recurrence.Token
