/-!
Names of the months.
-/

namespace Recurrence.MonthName

/-- The names and their short forms, in small letters, with the number of the month. -/
def names : List (String × Int) :=
  [("january", 1), ("jan", 1), ("february", 2), ("feb", 2), ("march", 3), ("mar", 3),
   ("april", 4), ("apr", 4), ("may", 5), ("june", 6), ("jun", 6), ("july", 7), ("jul", 7),
   ("august", 8), ("aug", 8), ("september", 9), ("sept", 9), ("sep", 9),
   ("october", 10), ("oct", 10), ("november", 11), ("nov", 11), ("december", 12), ("dec", 12)]

/-- The number of the month that a word names, in any letter case. -/
def number? (word : String) : Option Int := names.lookup word.toLower

end Recurrence.MonthName
