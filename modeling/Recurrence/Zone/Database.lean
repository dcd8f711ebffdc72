import Recurrence.Keyword
import Recurrence.Zone.Basic

/-!
Databases of time zones. Reading asks a database whether a name is known and which zone it stands
for, and asks nothing else of it.
-/

namespace Recurrence.Zone

def isNameChar (c : Char) : Bool := c.isAlphanum || ['/', '_', '-', '+'].contains c

/-- Whether a text is formed as the name of a zone: a letter, then letters, digits and signs. -/
def isName (id : String) : Bool :=
  match id.toList with
  | [] => false
  | c :: cs => c.isAlpha && cs.all isNameChar

/-- A database of time zones: the zone that each known name stands for. Names are formed as names,
and none of them opens a rule. -/
structure Database where
  zone? : String → Option Zone
  named : ∀ id, (zone? id).isSome = true → isName id = true
  notKeyword : ∀ id, (zone? id).isSome = true → Keyword.isRuleWord id = false

namespace Database

def isKnown (D : Database) (id : String) : Bool := (D.zone? id).isSome

/-- The zones of a list, without those whose names are not formed as names. -/
def ofRecords (records : List (String × Zone)) : Database where
  zone? id := if isName id && !Keyword.isRuleWord id then records.lookup id else none
  named id h := by
    split at h
    · rename_i hid
      exact (Bool.and_eq_true _ _ ▸ hid).1
    · cases h
  notKeyword id h := by
    split at h
    · rename_i hid
      exact Bool.not_eq_true' _ ▸ (Bool.and_eq_true _ _ ▸ hid).2
    · cases h

def empty : Database := ofRecords []

@[simp] theorem isKnown_empty (id : String) : empty.isKnown id = false := by
  show (if _ then none else none : Option Zone).isSome = false
  split <;> rfl

end Database

end Recurrence.Zone
