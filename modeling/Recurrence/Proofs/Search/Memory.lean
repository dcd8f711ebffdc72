import Mathlib.Data.List.Forall2
import Recurrence.Search.Walk
import Recurrence.Proofs.Calendar.TimeOrder

/-!
What a search remembers. Answers and records kept from earlier times are the ones that would be
found again, so a step with memory is the step of the conditions alone, and a matcher that is asked
again and again answers as if each question were its first.

Main statements: `Matcher.answers_eq_fresh`, `Step.ofMatchers_eq`.
-/

namespace Recurrence

namespace Matcher

/-- The matcher is for a condition, and what it remembers is true of it. -/
structure Recalls (m : Matcher) (c : Condition) : Prop where
  condition : m.condition = c
  last : ∀ known ∈ m.last, known.2 = c.accepts known.1
  month : ∀ known ∈ m.month, known.records = c.recordsIn known.year known.month

lemma recalls_fresh (c : Condition) : (fresh c).Recalls c where
  condition := rfl
  last := by simp [fresh]
  month := by simp [fresh]

variable {m : Matcher} {c : Condition} {t : LocalTime}

lemma listRecords_eq {columns : Columns} (h : m.Recalls (.oneOf columns)) :
    (m.listRecords columns t).1 = columns.resolved t.date.year t.date.month
      ∧ (m.listRecords columns t).2.Recalls (.oneOf columns) := by
  unfold listRecords
  simp only
  split
  · rename_i known hk
    obtain ⟨hm, hsame⟩ := Option.filter_eq_some_iff.mp hk
    simp only [Bool.and_eq_true, decide_eq_true_eq] at hsame
    refine ⟨?_, h⟩
    rw [h.month known hm, hsame.1, hsame.2]
    rfl
  · refine ⟨rfl, h.condition, h.last, ?_⟩
    rintro known ⟨rfl⟩
    rfl

lemma recordsAt_eq (h : m.Recalls c) :
    (m.recordsAt t).1 = c.recordsIn t.date.year t.date.month ∧ (m.recordsAt t).2.Recalls c := by
  unfold recordsAt
  rw [h.condition]
  cases c with
  | oneOf columns => exact listRecords_eq h
  | _ => exact ⟨rfl, h⟩

lemma accepts_eq (h : m.Recalls c) :
    (m.accepts t).1 = c.accepts t ∧ (m.accepts t).2.Recalls c := by
  unfold accepts
  split
  · rename_i known hk
    obtain ⟨hm, hsame⟩ := Option.filter_eq_some_iff.mp hk
    rw [decide_eq_true_eq] at hsame
    refine ⟨?_, h⟩
    rw [h.last known hm, hsame]
  · obtain ⟨hrec, hm⟩ := recordsAt_eq (t := t) h
    simp only [hrec, hm.condition]
    refine ⟨rfl, rfl, ?_, hm.month⟩
    rintro known ⟨rfl⟩
    rfl

lemma advance_eq (h : m.Recalls c) :
    (m.advance t).1 = c.advance t ∧ (m.advance t).2.Recalls c := by
  obtain ⟨hrec, hm⟩ := recordsAt_eq (t := t) h
  simp only [advance, hrec, hm.condition]
  exact ⟨rfl, hm⟩

/-- What a search asks a matcher. -/
inductive Question
  | accepts (t : LocalTime)
  | advance (t : LocalTime)
  deriving DecidableEq

inductive Answer
  | accepts (answer : Bool)
  | advance (jump : Advance)
  deriving DecidableEq

/-- Asks a question; both kinds leave something to remember. -/
def ask (m : Matcher) : Question → Answer × Matcher
  | .accepts t => (.accepts (m.accepts t).1, (m.accepts t).2)
  | .advance t => (.advance (m.advance t).1, (m.advance t).2)

/-- The answers to questions in turn, each with what those before it left to remember. -/
def answers (m : Matcher) : List Question → List Answer
  | [] => []
  | q :: qs => (m.ask q).1 :: (m.ask q).2.answers qs

def answerOf (c : Condition) : Question → Answer
  | .accepts t => .accepts (c.accepts t)
  | .advance t => .advance (c.advance t)

/-- One question: the answer is that of the condition, and what is remembered stays true. -/
lemma ask_eq (h : m.Recalls c) (q : Question) :
    (m.ask q).1 = answerOf c q ∧ (m.ask q).2.Recalls c := by
  cases q with
  | accepts t =>
    obtain ⟨hanswer, hm⟩ := accepts_eq (t := t) h
    exact ⟨congrArg Answer.accepts hanswer, hm⟩
  | advance t =>
    obtain ⟨hjump, hm⟩ := advance_eq (t := t) h
    exact ⟨congrArg Answer.advance hjump, hm⟩

lemma answers_eq (h : m.Recalls c) (qs : List Question) : m.answers qs = qs.map (answerOf c) := by
  -- the matcher changes with each question; that it is right about its condition does not
  induction qs generalizing m with
  | nil => rfl
  | cons q qs ih =>
    obtain ⟨hanswer, hm⟩ := ask_eq h q
    rw [answers, hanswer, ih hm, List.map_cons]

/-- **What a matcher remembers never shows.** Whatever it was asked before, of whatever times and in
whatever order, each answer is the one that a fresh matcher gives to that question alone, and that
is the answer of its condition. -/
theorem answers_eq_fresh (c : Condition) (qs : List Question) :
    (fresh c).answers qs = qs.map (fun q => ((fresh c).ask q).1)
      ∧ (fresh c).answers qs = qs.map (answerOf c) := by
  have hanswers := answers_eq (recalls_fresh c) qs
  refine ⟨?_, hanswers⟩
  rw [hanswers]
  apply List.map_congr_left
  intro q _
  exact (ask_eq (recalls_fresh c) q).1.symm

end Matcher

namespace Step

lemma landing_eq_none {a : Advance} {t : LocalTime} : a.landing t = none ↔ a = .never := by
  cases a <;> simp [Advance.landing]

/-- The step that jumps ask for, given the earliest landing so far. -/
def ofAdvancesFrom (earliest : Option LocalTime) (advances : List Advance) (t : LocalTime) : Step :=
  if advances.contains .never then exhausted
  else match (earliest.toList ++ advances.filterMap fun a => a.landing t).min? with
  | some next => jump next
  | none => found

lemma ofAdvancesFrom_cons {a : Advance} {landing t : LocalTime} (h : a.landing t = some landing)
    (earliest : Option LocalTime) (advances : List Advance) :
    ofAdvancesFrom earliest (a :: advances) t
      = ofAdvancesFrom (some (earliest.elim landing fun e => min e landing)) advances t := by
  have hn : Advance.never ≠ a := by
    rintro rfl
    cases h
  have hmin : (earliest.toList ++ landing :: advances.filterMap fun a => a.landing t).min?
      = ((earliest.elim landing fun e => min e landing)
        :: advances.filterMap fun a => a.landing t).min? := by
    cases earliest <;> rfl
  simp only [ofAdvancesFrom, List.contains_cons, beq_eq_false_iff_ne.mpr hn, Bool.false_or,
    List.filterMap_cons, h, hmin, Option.toList_some, List.singleton_append]

/-- **A step with memory is the step of the conditions.** -/
theorem ofMatchers_eq {ms : List Matcher} {cs : List Condition}
    (h : List.Forall₂ Matcher.Recalls ms cs) (t : LocalTime) :
    (ofMatchers t none ms).1 = ofConditions cs t
      ∧ List.Forall₂ Matcher.Recalls (ofMatchers t none ms).2 cs := by
  suffices hfrom : ∀ earliest, (ofMatchers t earliest ms).1
      = ofAdvancesFrom earliest ((cs.filter fun c => !c.accepts t).map fun c => c.advance t) t
      ∧ List.Forall₂ Matcher.Recalls (ofMatchers t earliest ms).2 cs from hfrom none
  induction h with
  | nil => intro earliest; cases earliest <;> exact ⟨rfl, .nil⟩
  | @cons m c ms cs hm hrest ih =>
    intro earliest
    obtain ⟨hacc, hma⟩ := Matcher.accepts_eq (t := t) hm
    rw [ofMatchers]
    cases ha : m.accepts t with
    | mk answer m' =>
      rw [ha] at hacc hma
      simp only at hacc hma
      subst hacc
      cases hc : c.accepts t with
      | true =>
        obtain ⟨hstep, hms⟩ := ih earliest
        exact ⟨by simp [hc, hstep], .cons hma hms⟩
      | false =>
        obtain ⟨hadv, hmb⟩ := Matcher.advance_eq (t := t) hma
        cases hl : (c.advance t).landing t with
        | none =>
          -- the condition can never hold again, and the others keep what they remember
          have hnever : c.advance t = .never := landing_eq_none.mp hl
          simp only [hadv, hl]
          refine ⟨?_, .cons hmb hrest⟩
          simp [ofAdvancesFrom, hc, hnever]
        | some landing =>
          obtain ⟨hstep, hms⟩ := ih (some (earliest.elim landing fun e => min e landing))
          simp only [hadv, hl, List.filter_cons, hc, Bool.not_false, if_true, List.map_cons,
            ofAdvancesFrom_cons hl]
          refine ⟨?_, .cons hmb ?_⟩
          · rw [← hstep]
            cases earliest <;> rfl
          · cases earliest <;> exact hms

end Step

end Recurrence
