/-!
Days of the week and their names.
-/

namespace Recurrence

inductive Weekday
  | sunday
  | monday
  | tuesday
  | wednesday
  | thursday
  | friday
  | saturday
  deriving DecidableEq

namespace Weekday

def number : Weekday → Int
  | sunday => 1
  | monday => 2
  | tuesday => 3
  | wednesday => 4
  | thursday => 5
  | friday => 6
  | saturday => 7

def names : List (String × Weekday) :=
  [("sunday", sunday), ("sun", sunday),
   ("monday", monday), ("mon", monday),
   ("tuesday", tuesday), ("tue", tuesday), ("tues", tuesday),
   ("wednesday", wednesday), ("wed", wednesday),
   ("thursday", thursday), ("thu", thursday), ("thur", thursday), ("thurs", thursday),
   ("friday", friday), ("fri", friday),
   ("saturday", saturday), ("sat", saturday)]

def ofName? (word : String) : Option Weekday := names.lookup word.toLower

theorem number_bounds (w : Weekday) : 1 ≤ w.number ∧ w.number ≤ 7 := by cases w <;> decide

end Weekday

end Recurrence
