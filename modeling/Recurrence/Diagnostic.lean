import Recurrence.Token.Basic

/-!
What can be wrong with an expression, as causes, and the one place where each is put into words.
-/

namespace Recurrence

/-- The two formats that no unit word goes with. -/
inductive ValueFormat
  | clockTime
  | date
  deriving DecidableEq

def ValueFormat.name : ValueFormat → String
  | clockTime => "clock time"
  | date => "date"

/-- Why a clause has no reading. Texts are the words at fault. -/
inductive Malformed
  | keywordExpected
  | valueRequired
  | unitWithFormat (word : String) (format : ValueFormat)
  | blankAroundColon (value : String)
  | unexpectedInClock (word value : String)
  | nothingAfterColon (value : String)
  | tooManyColons (value : String)
  | invalidHour (hour : String)
  | hourOutOfHalf (hour : Nat)
  | blankInDate (value : String)
  | tooManyDashes (value : String)
  | nothingAroundDash (value : String)
  | tooManyDateFields (value : String)
  | invalidDateField (unit : TimeUnit) (field : String)
  | dateAndTimeExpected (value : String)
  | noClockTime (value : String)
  | noDayNumber (word : String)
  | unexpectedInDayTime (words : String)
  | duplicateField (unit : TimeUnit) (value : String)
  | noDay (value : String)
  | unexpectedUnit (word : String)
  | invalidValue (value : String)
  | onlyWithDays (value : String)
  | noValueAfterUnit (unit : Option TimeUnit)
  | unexpected (word : String)
  | notOfUnit (word : String) (unit : TimeUnit)
  | unitRequired (word : String)
  | secondAnchor (word : String)
  | noAnchorValue (word : String)
  | invalidInterval (word : String)
  | alreadyAnchored (word : String)
  | noUnitAfter (word : String)
  | intervalExpected
  | bracketNotClosed
  | unexpectedBeforeBracket (word : String)
  | unexpectedAfterBracket (word : String)
  | nestedBrackets
  | emptyItem
  | itemUnitsDiffer (item : String)
  | noConjunction (range : String)
  | secondConjunction (range : String)
  | sideUnitsDiffer (range : String)
  | rangeUnitsDiffer (range : String)
  | zoneRequired
  deriving DecidableEq

def quoted (s : String) : String := "'" ++ s ++ "'"

namespace Malformed

def message : Malformed → String
  | keywordExpected => "Expected a rule keyword such as @every, @at or @between"
  | valueRequired => "A value is required"
  | unitWithFormat w f => "Time unit " ++ quoted w ++ " cannot be combined with a " ++ f.name
  | blankAroundColon v => "Unexpected whitespace around ':' in " ++ quoted v
  | unexpectedInClock w v => "Unexpected " ++ quoted w ++ " in clock time " ++ quoted v
  | nothingAfterColon v => "Missing value after ':' in " ++ quoted v
  | tooManyColons v => "A clock time may contain at most two colons: " ++ quoted v
  | invalidHour h => "Invalid hour " ++ quoted h
  | hourOutOfHalf h =>
    "Hour " ++ quoted (toString h) ++ " must be between 1 and 12 when AM/PM is given"
  | blankInDate v => "Unexpected whitespace in date " ++ quoted v
  | tooManyDashes v => "A date may contain at most two dashes: " ++ quoted v
  | nothingAroundDash v => "Missing value around '-' in " ++ quoted v
  | tooManyDateFields v =>
    "A date without a year may only contain a month and a day: " ++ quoted v
  | invalidDateField u f => "Invalid " ++ u.name ++ " value " ++ quoted f ++ " in date"
  | dateAndTimeExpected v => "Expected a date and a time separated by a space in " ++ quoted v
  | noClockTime v => "Missing clock time in " ++ quoted v
  | noDayNumber w => "Missing day number after " ++ quoted w
  | unexpectedInDayTime ws => "Unexpected " ++ quoted ws ++ " in day and time value"
  | duplicateField u v => "Duplicate " ++ u.name ++ " in " ++ quoted v
  | noDay v => "Missing day in " ++ quoted v
  | unexpectedUnit w => "Unexpected time unit " ++ quoted w
  | invalidValue v => "Invalid value " ++ quoted v
  | onlyWithDays v => quoted v ++ " can only be used with the day unit"
  | noValueAfterUnit u => "A value is required after " ++ quoted ((u.map TimeUnit.name).getD "")
  | unexpected w => "Unexpected " ++ quoted w
  | notOfUnit w u => quoted w ++ " is not a " ++ u.name ++ " value"
  | unitRequired w => "A time unit is required for value " ++ quoted w
  | secondAnchor w => "Only one anchor clause is allowed, found " ++ quoted w
  | noAnchorValue w => "Missing anchor value after " ++ quoted w
  | invalidInterval w => "Invalid interval " ++ quoted w
  | alreadyAnchored w =>
    quoted w ++ " already anchors the week and cannot take an anchor clause"
  | noUnitAfter w => "Missing time unit after " ++ quoted w
  | intervalExpected => "Expected an interval and a time unit"
  | bracketNotClosed => "Missing closing bracket ']'"
  | unexpectedBeforeBracket w => "Unexpected " ++ quoted w ++ " before '['"
  | unexpectedAfterBracket w => "Unexpected " ++ quoted w ++ " after ']'"
  | nestedBrackets => "Nested brackets are not allowed"
  | emptyItem => "Empty value in list"
  | itemUnitsDiffer i =>
    "All values in a list must specify the same time units, " ++ quoted i ++ " does not"
  | noConjunction r => "Missing 'and' in range " ++ quoted r
  | secondConjunction r => "Only one 'and' is allowed in range " ++ quoted r
  | sideUnitsDiffer r =>
    "Start and end of range " ++ quoted r ++ " must specify the same time units"
  | rangeUnitsDiffer r =>
    "All ranges in a list must specify the same time units as the first, " ++ quoted r
      ++ " does not"
  | zoneRequired => "A time zone identifier is required"

end Malformed

/-- Why rules do not stand together. -/
inductive Conflict
  | missingPrimaryRule
  | multipleEvery
  | conflictsWithEvery (unit : TimeUnit)
  | weekConflictsWithAnchor
  | duplicateAtRule
  | betweenWithoutEvery
  | invalidBetweenValue (unit : TimeUnit) (value : String)
  | betweenStartAfterEnd (start stop : String)
  | invalidAtValue (unit : TimeUnit) (value : String)
  | unknownTimeZone (id : String)
  | multipleTimeZones
  | nonPositiveInterval
  | invalidAnchor (unit : TimeUnit) (anchor : String)
  deriving DecidableEq

namespace Conflict

def message : Conflict → String
  | missingPrimaryRule =>
    "An expression must contain at least one @every, shorthand (e.g. @daily) or @at/@on/@in rule."
  | multipleEvery => "Only one @every rule is allowed."
  | conflictsWithEvery u =>
    "At/On/In rules cannot use the same time unit as the @every rule (" ++ u.name ++ ")."
  | weekConflictsWithAnchor =>
    "At/On/In rules on the week unit are not allowed when @every is anchored on a weekday."
  | duplicateAtRule => "Duplicate At/On/In rules for the same time unit are not allowed."
  | betweenWithoutEvery => "@between rules require an @every rule."
  | invalidBetweenValue u v =>
    "Invalid " ++ u.name ++ " value " ++ quoted v ++ " in @between range."
  | betweenStartAfterEnd s e =>
    "@between range start " ++ quoted s ++ " must not be after its end " ++ quoted e ++ "."
  | invalidAtValue u v => "Invalid " ++ u.name ++ " value " ++ quoted v ++ " in At/On/In rule."
  | unknownTimeZone id => "Unknown time zone " ++ quoted id ++ "."
  | multipleTimeZones => "Only one time zone may be specified."
  | nonPositiveInterval => "Every value cannot be less than or equal to 0."
  | invalidAnchor u a =>
    "Invalid anchor value " ++ quoted a ++ " for the " ++ u.name ++ " unit."

end Conflict

/-- One problem of an expression: a token, a clause or the rules together. -/
inductive Diagnostic
  | lexical (text : String) (line column : Nat) (fault : Token.Fault)
  | malformed (clause : String) (cause : Malformed)
  | conflict (cause : Conflict)
  deriving DecidableEq

namespace Diagnostic

def message : Diagnostic → String
  | lexical text line column fault =>
    fault.message ++ " " ++ quoted text ++ " at line " ++ toString line ++ ", column "
      ++ toString column
  | malformed clause cause => clause ++ " - " ++ cause.message
  | conflict cause => cause.message

def report (ds : List Diagnostic) : String := "\n".intercalate (ds.map message)

end Diagnostic

/-- A search that did not find what was asked for. -/
inductive Shortage
  | noOccurrence
  | exhausted (requested found : Nat)
  deriving DecidableEq

namespace Shortage

def message : Shortage → String
  | noOccurrence => "No occurrence found before the lookahead bound."
  | exhausted requested found =>
    "Only " ++ toString found ++ " of " ++ toString requested
      ++ " requested occurrences found before the lookahead bound."

end Shortage

end Recurrence
