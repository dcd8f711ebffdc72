import Recurrence.UnitSet

/-!
Values filed under units. A map is the function from units to what is filed there, so two maps are
equal exactly when they agree on every unit; listing one goes through the units in the order of
declaration.
-/

namespace Recurrence

/-- A finite map keyed by units. -/
structure UnitMap (α : Type) where
  get? : TimeUnit → Option α

namespace UnitMap

variable {α : Type}

def empty : UnitMap α := ⟨fun _ => none⟩

def insert (m : UnitMap α) (u : TimeUnit) (a : α) : UnitMap α :=
  ⟨fun v => if v = u then some a else m.get? v⟩

def ofList (pairs : List (TimeUnit × α)) : UnitMap α :=
  pairs.foldl (fun m p => m.insert p.1 p.2) empty

/-- The units with something filed, in the order of declaration. -/
def keys (m : UnitMap α) : List TimeUnit := TimeUnit.all.filter fun u => (m.get? u).isSome

def toList (m : UnitMap α) : List (TimeUnit × α) :=
  TimeUnit.all.filterMap fun u => (m.get? u).map fun a => (u, a)

def units (m : UnitMap α) : UnitSet := UnitSet.ofList m.keys

/-- Maps agree when they agree on every unit. -/
theorem ext_get? {m n : UnitMap α} (h : ∀ u, m.get? u = n.get? u) : m = n := by
  cases m; cases n; congr 1; exact funext h

instance [DecidableEq α] : DecidableEq (UnitMap α) := fun m n =>
  decidable_of_iff (∀ u ∈ TimeUnit.all, m.get? u = n.get? u)
    ⟨fun h => ext_get? fun u => h u u.mem_all, fun h _ _ => h ▸ rfl⟩

@[simp] theorem get?_empty (u : TimeUnit) : (empty : UnitMap α).get? u = none := rfl

@[simp] theorem get?_insert (m : UnitMap α) (u v : TimeUnit) (a : α) :
    (m.insert u a).get? v = if v = u then some a else m.get? v := rfl

theorem mem_keys {m : UnitMap α} {u : TimeUnit} : u ∈ m.keys ↔ (m.get? u).isSome = true := by
  simp [keys, TimeUnit.mem_all]

theorem mem_toList {m : UnitMap α} {u : TimeUnit} {a : α} :
    (u, a) ∈ m.toList ↔ m.get? u = some a := by
  simp only [toList, List.mem_filterMap, Option.map_eq_some_iff, Prod.mk.injEq]
  constructor
  · rintro ⟨v, _, b, hb, rfl, rfl⟩; exact hb
  · intro h; exact ⟨u, u.mem_all, a, h, rfl, rfl⟩

/-- A calendar unit is in the set of units exactly when something is filed under it. -/
theorem has_units (m : UnitMap α) (u : TimeUnit) :
    m.units.has u = ((m.get? u).isSome && decide (u ≠ .timeZone)) := by
  have hk : m.keys.contains u = (m.get? u).isSome := by
    rw [Bool.eq_iff_iff, List.contains_iff_mem, mem_keys]
  rw [units, UnitSet.has_ofList, hk]

end UnitMap

end Recurrence
