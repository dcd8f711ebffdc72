import Recurrence.TimeUnit

/-!
The keywords that open a rule, written with or without a leading at sign and in any letter case. One
table says which words are keywords, another what each of them opens, and a third after which a zone
is named; they agree.
-/

namespace Recurrence

/-- What kind of rule a keyword opens. -/
inductive Keyword
  /-- A cadence with an interval. -/
  | every
  /-- A cadence of every unit, such as daily. -/
  | each (unit : TimeUnit)
  /-- A value, or a list of values. -/
  | pick
  | between
  /-- A range with an end only. -/
  | upto
  /-- A range with a start only. -/
  | onward
  | zone
  deriving DecidableEq

namespace Keyword

def bare (word : String) : String :=
  match word.toList with
  | '@' :: cs => String.ofList cs
  | _ => word

/-- The words that are keywords, in small letters and without the at sign. -/
def ruleWords : List String :=
  ["yearly", "monthly", "weekly", "daily", "hourly", "minutely", "secondly", "every", "between",
   "tz", "timezone", "at", "on", "in", "upto", "from"]

def isRuleWord (word : String) : Bool := ruleWords.contains (bare word).toLower

def words : List (String × Keyword) :=
  [("yearly", each .year), ("monthly", each .month), ("weekly", each .week), ("daily", each .day),
   ("hourly", each .hour), ("minutely", each .minute), ("secondly", each .second),
   ("every", every), ("at", pick), ("on", pick), ("in", pick),
   ("between", between), ("upto", upto), ("from", onward), ("tz", zone), ("timezone", zone)]

def ofWord? (word : String) : Option Keyword := words.lookup (bare word).toLower

def zoneWords : List String := ["tz", "timezone"]

def isZoneWord (word : String) : Bool := zoneWords.contains (bare word).toLower

/-- A table has an entry for the words in it. -/
theorem isSome_lookup {α : Type} {table : List (String × α)} {word : String} :
    (table.lookup word).isSome = (table.map Prod.fst).contains word := by
  induction table with
  | nil => rfl
  | cons p table ih =>
    rw [List.lookup_cons, List.map_cons, List.contains_cons, ← ih]
    cases word == p.1 <;> rfl

/-- **The words that are keywords are those that open something.** -/
theorem isSome_ofWord? (word : String) : (ofWord? word).isSome = isRuleWord word := by
  have hperm : (words.map Prod.fst).Perm ruleWords := by decide
  rw [ofWord?, isSome_lookup, isRuleWord, Bool.eq_iff_iff, List.contains_iff_mem,
    List.contains_iff_mem, hperm.mem_iff]

/-- **The words that a zone is named after are those that open one.** -/
theorem isZoneWord_iff {word : String} : isZoneWord word = true ↔ ofWord? word = some zone := by
  rw [isZoneWord, List.contains_iff_mem, ofWord?]
  constructor
  · intro h
    have hzone : ∀ w ∈ zoneWords, words.lookup w = some zone := by decide
    exact hzone _ h
  · intro h
    have hword : ∀ p ∈ words, p.2 = zone → p.1 ∈ zoneWords := by decide
    obtain ⟨before, after, hwords, -⟩ := List.lookup_eq_some_iff.1 h
    exact hword _ (hwords ▸ List.mem_append_right _ List.mem_cons_self) rfl

def opened (word : String) (h : isRuleWord word = true) : Keyword :=
  (ofWord? word).get (isSome_ofWord? word ▸ h)

theorem opened_eq {word : String} {k : Keyword} (h : isRuleWord word = true)
    (hk : ofWord? word = some k) : opened word h = k := by
  simp only [opened, hk, Option.get_some]

theorem isRuleWord_of_ofWord? {word : String} {k : Keyword} (h : ofWord? word = some k) :
    isRuleWord word = true := by
  rw [← isSome_ofWord?, h]
  rfl

theorem isRuleWord_eq_false_iff {word : String} :
    isRuleWord word = false ↔ ofWord? word = none := by
  rw [← isSome_ofWord?, Option.isSome_eq_false_iff, Option.isNone_iff_eq_none]

end Keyword

end Recurrence
