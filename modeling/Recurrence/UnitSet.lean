import Recurrence.TimeUnit

/-!
Sets of calendar units, one bit to a unit in the order of declaration. The time zone is outside the
seven bits, so it belongs to no set and adding it changes nothing.
-/

namespace Recurrence

/-- A set of calendar units. -/
structure UnitSet where
  bits : BitVec 7
  deriving DecidableEq

namespace UnitSet

def has (s : UnitSet) (u : TimeUnit) : Bool := s.bits.getLsbD u.position

instance : EmptyCollection UnitSet := ⟨⟨0#7⟩⟩

instance : Union UnitSet := ⟨fun s t => ⟨s.bits ||| t.bits⟩⟩

instance : Inter UnitSet := ⟨fun s t => ⟨s.bits &&& t.bits⟩⟩

instance : SDiff UnitSet := ⟨fun s t => ⟨s.bits &&& ~~~t.bits⟩⟩

/-- The set of one unit; empty for the time zone, whose bit is shifted out. -/
def single (u : TimeUnit) : UnitSet := ⟨1#7 <<< u.position⟩

def ofList (us : List TimeUnit) : UnitSet := us.foldl (fun s u => s ∪ single u) ∅

def unions (sets : List UnitSet) : UnitSet := sets.foldl (· ∪ ·) ∅

def isEmpty (s : UnitSet) : Bool := s == ∅

def intersects (s t : UnitSet) : Bool := !(s ∩ t).isEmpty

def contains (s t : UnitSet) : Bool := s ∩ t == t

def units (s : UnitSet) : List TimeUnit := TimeUnit.descending.filter s.has

/-- The finest unit; of a day and a week in one set it is the day. -/
def finest? (s : UnitSet) : Option TimeUnit := s.units.getLast?

def clock : UnitSet := ofList [.hour, .minute, .second]

@[simp] theorem has_empty (u : TimeUnit) : (∅ : UnitSet).has u = false :=
  BitVec.getLsbD_zero

@[simp] theorem has_union (s t : UnitSet) (u : TimeUnit) :
    (s ∪ t).has u = (s.has u || t.has u) :=
  BitVec.getLsbD_or

@[simp] theorem has_inter (s t : UnitSet) (u : TimeUnit) :
    (s ∩ t).has u = (s.has u && t.has u) :=
  BitVec.getLsbD_and

@[simp] theorem has_single (u v : TimeUnit) :
    (single u).has v = (decide (u = v) && decide (u ≠ .timeZone)) := by
  cases u <;> cases v <;> rfl

@[simp] theorem has_timeZone (s : UnitSet) : s.has .timeZone = false :=
  BitVec.getLsbD_of_ge _ _ (Nat.le_refl 7)

/-- A set is known by its members. -/
theorem ext_has {s t : UnitSet} (h : ∀ u, s.has u = t.has u) : s = t := by
  obtain ⟨s⟩ := s
  obtain ⟨t⟩ := t
  congr 1
  apply BitVec.eq_of_getLsbD_eq
  intro i hi
  have at_unit : ∀ u : TimeUnit, s.getLsbD u.position = t.getLsbD u.position := h
  match i with
  | 0 => exact at_unit .second
  | 1 => exact at_unit .minute
  | 2 => exact at_unit .hour
  | 3 => exact at_unit .day
  | 4 => exact at_unit .week
  | 5 => exact at_unit .month
  | 6 => exact at_unit .year

theorem has_foldl (us : List TimeUnit) (s : UnitSet) (u : TimeUnit) :
    (us.foldl (fun s u => s ∪ single u) s).has u
      = (s.has u || (us.contains u && decide (u ≠ .timeZone))) := by
  induction us generalizing s with
  | nil => simp
  | cons v us ih =>
    rw [List.foldl_cons, ih]
    by_cases hv : u = v
    · subst hv; by_cases hz : u = .timeZone <;> simp [hz]
    · simp [hv, Ne.symm hv]

/-- A set made of a list holds the calendar units of the list. -/
@[simp] theorem has_ofList (us : List TimeUnit) (u : TimeUnit) :
    (ofList us).has u = (us.contains u && decide (u ≠ .timeZone)) := by
  simp [ofList, has_foldl]

theorem has_foldl_union (sets : List UnitSet) (s : UnitSet) (u : TimeUnit) :
    (sets.foldl (· ∪ ·) s).has u = (s.has u || sets.any fun t => t.has u) := by
  induction sets generalizing s with
  | nil => simp
  | cons t sets ih => rw [List.foldl_cons, ih, has_union, List.any_cons, Bool.or_assoc]

/-- The sets together hold what one of them holds. -/
@[simp] theorem has_unions (sets : List UnitSet) (u : TimeUnit) :
    (unions sets).has u = sets.any fun t => t.has u := by
  rw [unions, has_foldl_union, has_empty, Bool.false_or]

/-- The units listed are the members. -/
theorem mem_units {s : UnitSet} {u : TimeUnit} : u ∈ s.units ↔ s.has u = true := by
  rw [units, List.mem_filter, TimeUnit.mem_descending_iff]
  constructor
  · exact And.right
  · intro h
    refine ⟨?_, h⟩
    rintro rfl
    simp at h

end UnitSet

end Recurrence
