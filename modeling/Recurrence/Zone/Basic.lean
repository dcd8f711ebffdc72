import Recurrence.Calendar.LocalTime

/-!
Time zones as lists of offset changes, and the crossing between universal and local time. A local
time may be read by no instant, when the clock was put forward over it, or by two, when it was put
back. Zones reach over all of time: that a calendar ends is left out here.
-/

namespace Recurrence

/-- A time zone: the offset in seconds east of universal time, and its changes in order of time,
each with the instant from which it holds. -/
structure Zone where
  initial : Int
  changes : List (Int × Int)
  ordered : changes.Pairwise fun a b => a.1 ≤ b.1
  deriving DecidableEq

namespace Zone

def fixed (offset : Int) : Zone := ⟨offset, [], .nil⟩

def utc : Zone := fixed 0

/-- The offset in force at a second, given the offset before the changes. -/
def offsetFrom (s offset : Int) : List (Int × Int) → Int
  | [] => offset
  | (start, next) :: rest => if start ≤ s then offsetFrom s next rest else offset

def offsetAt (z : Zone) (s : Int) : Int := offsetFrom s z.initial z.changes

def toLocal (z : Zone) (t : Instant) : LocalTime := ⟨t.seconds + z.offsetAt t.seconds, t.nanos⟩

/-- The seconds of universal time, from `start` on where one is given, at which a clock shows the
second `l`. -/
def readings (l : Int) (start : Option Int) (offset : Int) : List (Int × Int) → List Int
  | [] => if start.all (· ≤ l - offset) then [l - offset] else []
  | (change, next) :: rest =>
    (if start.all (· ≤ l - offset) && l - offset < change then [l - offset] else [])
      ++ readings l (some change) next rest

/-- The instants at which a clock in the zone shows a local time, earliest first. -/
def instantsOf (z : Zone) (l : LocalTime) : List Instant :=
  (readings l.seconds none z.initial z.changes).map fun s => ⟨s, l.nanos⟩

/-- The most minutes that a local time inside a gap is moved forward. -/
def gapMinutes : Nat := 1440

/-- The first instant, if any, at which a clock shows the local time `k` minutes later. -/
def instantLater? (z : Zone) (l : LocalTime) (k : Nat) : Option Instant :=
  (z.instantsOf (l.addSeconds (60 * k))).head?

/-- The instants that a local time stands for, earliest first. A time inside a gap stands for the
first of the minutes after it that exists. -/
def toUniversal (z : Zone) (l : LocalTime) : List Instant :=
  match z.instantsOf l with
  | [] => ((List.range' 1 gapMinutes).findSome? (z.instantLater? l)).toList
  | ts => ts

@[simp] theorem offsetAt_fixed (offset s : Int) : (fixed offset).offsetAt s = offset := rfl

/-- In a zone of one offset every local time is shown once. -/
@[simp] theorem instantsOf_fixed (offset : Int) (l : LocalTime) :
    (fixed offset).instantsOf l = [⟨l.seconds - offset, l.nanos⟩] := rfl

@[simp] theorem toUniversal_fixed (offset : Int) (l : LocalTime) :
    (fixed offset).toUniversal l = [⟨l.seconds - offset, l.nanos⟩] := rfl

/-- Where some instant shows the local time, those that show it are what it stands for. -/
theorem toUniversal_of_ne_nil {z : Zone} {l : LocalTime} (h : z.instantsOf l ≠ []) :
    z.toUniversal l = z.instantsOf l := by
  unfold toUniversal
  split
  · contradiction
  · rfl

end Zone

end Recurrence
