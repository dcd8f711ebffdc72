import Recurrence.Expression
import Recurrence.Proofs.Rule.Lists

/-!
Clauses with a blank at the end. A blank more changes nothing of what a clause is read as, of its
source text or of what is wrong with it, since every reader drops the blanks at the end of what it
reads.

Main statements: `Parsed.ofLead_concat` and `Parsed.ofClause_concat`.
-/

namespace Recurrence

open Token

section Lists

variable {α : Type} {p : α → Bool} {xs ys : List α}

lemma dropWhile_append_reverse (h : ∀ y ∈ ys, p y = true) :
    ((xs ++ ys).dropWhile p).reverse.dropWhile p = (xs.dropWhile p).reverse.dropWhile p := by
  have hnil : ys.dropWhile p = [] := List.dropWhile_eq_nil_iff.2 h
  rw [List.dropWhile_append, hnil]
  split
  · rename_i hempty
    rw [List.isEmpty_iff.1 hempty]
  · rw [List.reverse_append, List.dropWhile_append_of_pos fun y hy => h y (List.mem_reverse.1 hy)]

lemma span_concat {x : α} (hx : p x = true) (xs : List α) :
    xs.dropWhile p = [] ∧ (xs ++ [x]).dropWhile p = []
      ∨ ∃ y rest, xs.dropWhile p = y :: rest ∧ (xs ++ [x]).dropWhile p = y :: (rest ++ [x])
        ∧ (xs ++ [x]).takeWhile p = xs.takeWhile p := by
  induction xs with
  | nil => exact Or.inl ⟨rfl, by simp [hx]⟩
  | cons z xs ih =>
    rw [List.cons_append, List.dropWhile_cons, List.dropWhile_cons, List.takeWhile_cons,
      List.takeWhile_cons]
    split
    · rcases ih with h | ⟨y, rest, h, h', htake⟩
      · exact Or.inl h
      · exact Or.inr ⟨y, rest, h, h', by rw [htake]⟩
    · exact Or.inr ⟨z, xs, rfl, rfl, rfl⟩

end Lists

variable {b : Token} (hb : b.kind = .blank) (ts : List Token)

lemma Text.trim_append {s : List Char} (h : ∀ c ∈ s, Text.isBlank c = true) (t : List Char) :
    Text.trimChars (t ++ s) = Text.trimChars t :=
  congrArg List.reverse (dropWhile_append_reverse h)

include hb in
lemma trimTrivia_concat : trimTrivia (ts ++ [b]) = trimTrivia ts :=
  congrArg List.reverse
    (dropWhile_append_reverse (List.forall_mem_singleton.2 (by rw [isTrivia, hb])))

include hb in
lemma significant_concat : significant (ts ++ [b]) = significant ts := by
  have hblank : b.isTrivia = true := by rw [isTrivia, hb]
  simp [significant, hblank]

lemma sourceText_concat (hblank : ∀ c ∈ b.text.toList, Text.isBlank c = true) :
    sourceText (ts ++ [b]) = sourceText ts := by
  unfold sourceText Text.trim
  rw [List.flatMap_append, List.flatMap_singleton, String.toList_ofList, String.toList_ofList,
    Text.trim_append hblank]

namespace Rule

variable (body : List Token)

include hb

lemma read_concat (default : Option TimeUnit) :
    Value.read (ts ++ [b]) default = Value.read ts default :=
  Value.read_congr (trimTrivia_concat hb ts) default

/-- The tokens that are not the anchor matter without their blanks only. -/
lemma splitAnchor_concat {f : List Token × Option String → Except Malformed (List Rule)}
    (hf : ∀ ts us anchor, significant ts = significant us → f (ts, anchor) = f (us, anchor)) :
    splitAnchor (body ++ [b]) >>= f = splitAnchor body >>= f := by
  unfold splitAnchor
  rcases span_concat (p := fun t : Token => t.kind ≠ .anchor) (x := b) (by simp [hb]) body
    with ⟨h, h'⟩ | ⟨word, value, h, h', htake⟩
  · rw [h, h']
    exact hf _ _ none (significant_concat hb body)
  · have hfind :
        (value ++ [b]).find? (fun t => t.kind = .anchor) = value.find? fun t => t.kind
        = .anchor := by
      simp [List.find?_append, hb]
    have hspelling : spelling (value ++ [b]) = spelling value := by
      rw [spelling, significant_concat hb, spelling]
    rw [h, h', htake]
    simp only [hfind, hspelling]

lemma readEach_concat (unit : TimeUnit) : readEach unit (body ++ [b]) = readEach unit body :=
  splitAnchor_concat hb body fun ts us anchor h => by simp only [h]

lemma readEvery_concat : readEvery (body ++ [b]) = readEvery body :=
  splitAnchor_concat hb body fun ts us anchor h => by simp only [h]

lemma hasBracket_concat : hasBracket (body ++ [b]) = hasBracket body := by simp [hasBracket, hb]

lemma readBracketed_concat (h : hasBracket body = true) :
    readBracketed (body ++ [b]) = readBracketed body := by
  have hclose : (fun t : Token => decide (t.kind ≠ .closeBracket)) b = true := by simp [hb]
  rcases span_concat (p := fun t : Token => t.kind ≠ .openBracket) (x := b) (by simp [hb]) body
    with ⟨hnil, -⟩ | ⟨o, opened, hdrop, hdrop', htake⟩
  · obtain ⟨t, ht, hk⟩ := List.any_eq_true.1 h
    have hne := List.dropWhile_eq_nil_iff.1 hnil t ht
    exact absurd (of_decide_eq_true hk) (of_decide_eq_true hne)
  · have hany : ((opened ++ [b]).any fun t => t.kind = .closeBracket)
        = opened.any fun t => t.kind = .closeBracket := by simp [hb]
    have hafter :
        ((opened ++ [b]).reverse.takeWhile fun t => decide (t.kind ≠ .closeBracket)).reverse
        = (opened.reverse.takeWhile fun t => decide (t.kind ≠ .closeBracket)).reverse ++ [b] := by
      rw [List.reverse_concat, List.takeWhile_cons, if_pos hclose, List.reverse_cons]
    have hinner : (opened ++ [b]).reverse.dropWhile (fun t => decide (t.kind ≠ .closeBracket))
        = opened.reverse.dropWhile fun t => decide (t.kind ≠ .closeBracket) := by
      rw [List.reverse_concat, List.dropWhile_cons, if_pos hclose]
    unfold readBracketed
    simp only [hdrop, hdrop', htake, List.drop_succ_cons, List.drop_zero, hany, hafter, hinner,
      significant_concat hb]

lemma readPick_concat : readPick (body ++ [b]) = readPick body := by
  unfold readPick
  rw [hasBracket_concat hb, read_concat hb]
  split
  · rename_i h
    rw [readBracketed_concat hb body h]
  · rfl

lemma readRange_concat (hblank : ∀ c ∈ b.text.toList, Text.isBlank c = true)
    (default : Option TimeUnit) :
    readRange default (body ++ [b]) = readRange default body := by
  unfold readRange
  rcases span_concat (p := fun t : Token => t.kind ≠ .conjunction) (x := b) (by simp [hb]) body
    with ⟨h, h'⟩ | ⟨word, stop, h, h', htake⟩
  · rw [h, h', sourceText_concat body hblank]
  · have hany : ((stop ++ [b]).any fun t => t.kind = .conjunction)
        = stop.any fun t => t.kind = .conjunction := by simp [hb]
    simp only [h, h', htake, hany, significant_concat hb, sourceText_concat body hblank,
      read_concat hb]

lemma readBetween_concat (hblank : ∀ c ∈ b.text.toList, Text.isBlank c = true) :
    readBetween (body ++ [b]) = readBetween body := by
  unfold readBetween
  rw [hasBracket_concat hb, readRange_concat hb body hblank]
  split
  · rename_i h
    rw [readBracketed_concat hb body h]
  · rfl

/-- A clause is read without a blank at its end. -/
theorem ofClause_concat (hblank : ∀ c ∈ b.text.toList, Text.isBlank c = true) (keyword : Keyword)
    (head : Token) : ofClause ⟨keyword, head, body ++ [b]⟩ = ofClause ⟨keyword, head, body⟩ := by
  cases keyword with
  | every => exact readEvery_concat hb body
  | each unit => exact readEach_concat hb body unit
  | pick => exact readPick_concat hb body
  | between => exact readBetween_concat hb body hblank
  | upto => simp only [ofClause, readUpto, read_concat hb]
  | onward => simp only [ofClause, readOnward, read_concat hb]
  | zone => simp only [ofClause, readZone, sourceText_concat body hblank]

end Rule

namespace Parsed

variable (hfault : b.fault = none) (hblank : ∀ c ∈ b.text.toList, Text.isBlank c = true)

include hfault in
lemma diagnostics_concat : diagnostics (ts ++ [b]) = diagnostics ts := by
  rw [diagnostics, List.filterMap_append, diagnostics]
  simp [hfault]

include hfault in
lemma any_invalid_concat : ((ts ++ [b]).any fun t => !t.isValid) = ts.any fun t => !t.isValid := by
  simp [isValid, hfault]

include hb hfault hblank

/-- A blank at the end of what is in front of all clauses changes nothing. -/
theorem ofLead_concat : ofLead (ts ++ [b]) = ofLead ts := by
  have htrivia : ((ts ++ [b]).any fun t => !t.isTrivia) = ts.any fun t => !t.isTrivia := by
    simp [isTrivia, hb]
  rw [ofLead, ofLead, any_invalid_concat ts hfault, diagnostics_concat ts hfault, htrivia,
    sourceText_concat ts hblank]

/-- **A blank at the end of a clause changes nothing.** -/
theorem ofClause_concat (keyword : Keyword) (head : Token) (body : List Token) :
    ofClause ⟨keyword, head, body ++ [b]⟩ = ofClause ⟨keyword, head, body⟩ := by
  have htokens : Clause.tokens ⟨keyword, head, body ++ [b]⟩ = head :: body ++ [b] := rfl
  rw [ofClause, ofClause, Rule.ofClause_concat hb body hblank, Clause.source, Clause.source,
    htokens, any_invalid_concat _ hfault, diagnostics_concat _ hfault, sourceText_concat _ hblank]
  rfl

end Parsed

end Recurrence
