/-!
Calendar units. The order in which they are listed is the order of declaration and files rules by
unit; granularity is a rank of its own, because a week constrains a weekday and so ranks with the
day. The time zone is filed like a unit but measures nothing: it has no rank.
-/

namespace Recurrence

/-- What a rule constrains. -/
inductive TimeUnit
  | second
  | minute
  | hour
  | day
  | week
  | month
  | year
  | timeZone
  deriving DecidableEq

namespace TimeUnit

def all : List TimeUnit := [second, minute, hour, day, week, month, year, timeZone]

/-- The units of the calendar, from the most to the least significant. -/
def descending : List TimeUnit := [year, month, week, day, hour, minute, second]

def position : TimeUnit → Nat
  | second => 0
  | minute => 1
  | hour => 2
  | day => 3
  | week => 4
  | month => 5
  | year => 6
  | timeZone => 7

def rank? : TimeUnit → Option Nat
  | second => some 0
  | minute => some 1
  | hour => some 2
  | day | week => some 3
  | month => some 4
  | year => some 5
  | timeZone => none

/-- Strictly finer in rank; a unit without a rank compares with none. -/
def isFinerThan (u v : TimeUnit) : Bool :=
  match u.rank?, v.rank? with
  | some a, some b => a < b
  | _, _ => false

/-- The next coarser unit, in whose cycle this one counts. Weekdays count as days of a month. -/
def parent? : TimeUnit → Option TimeUnit
  | second => some minute
  | minute => some hour
  | hour => some day
  | day | week => some month
  | month => some year
  | year | timeZone => none

def name : TimeUnit → String
  | second => "second"
  | minute => "minute"
  | hour => "hour"
  | day => "day"
  | week => "week"
  | month => "month"
  | year => "year"
  | timeZone => "timezone"

/-- The words that name a unit in an expression, in small letters. -/
def words : List (String × TimeUnit) :=
  [("second", second), ("seconds", second), ("sec", second), ("secs", second),
   ("minute", minute), ("minutes", minute), ("min", minute), ("mins", minute),
   ("hour", hour), ("hours", hour), ("hr", hour), ("hrs", hour),
   ("day", day), ("days", day), ("week", week), ("weeks", week),
   ("month", month), ("months", month), ("year", year), ("years", year)]

def ofWord? (word : String) : Option TimeUnit := words.lookup word.toLower

theorem mem_all (u : TimeUnit) : u ∈ all := by cases u <;> decide

theorem mem_descending_iff (u : TimeUnit) : u ∈ descending ↔ u ≠ timeZone := by
  cases u <;> decide

end TimeUnit

end Recurrence
