import CallTargets.Ident

/-!
# Abstract locations

A location is a value together with a role.  In the role `self` it is the value
itself and also slot 0 of the object that the value addresses; an offset is a
further slot of that object; the remaining roles hold what a function returns and
whom a call may reach.  Locations are ordered by base and then by role: offsets by
slot, the value itself, what it returns, whom it may reach.
-/

namespace CallTargets

/-- The role of a location at its base. -/
inductive Role where
  /-- A slot of the flattened object at the base. -/
  | offset (slot : Int64)
  /-- The base itself, which is also slot 0. -/
  | self
  /-- What the function `base` returns. -/
  | returned
  /-- The functions that the call `base` may reach. -/
  | callees
deriving DecidableEq, Repr

namespace Role

/-- The place of a role in the order of roles. -/
def rank : Role → Nat
  | offset _ => 0
  | self => 1
  | returned => 2
  | callees => 3

/-- The slot by which offsets are ordered among each other. -/
def slotKey : Role → Int64
  | offset slot => slot
  | _ => 0

instance : Ord Role := ⟨compareLex (compareOn rank) (compareOn slotKey)⟩

theorem compare_def (a b : Role) :
    compare a b = (compare a.rank b.rank).then (compare a.slotKey b.slotKey) := rfl

instance : Std.TransOrd Role :=
  inferInstanceAs (Std.TransCmp (compareLex (compareOn rank) (compareOn slotKey)))

instance : Std.LawfulEqOrd Role where
  eq_of_compare {a b} h := by
    rw [compare_def, Ordering.then_eq_eq] at h
    have hrank := Std.LawfulEqOrd.eq_of_compare h.1
    have hslot := Std.LawfulEqOrd.eq_of_compare h.2
    cases a <;> cases b <;> simp_all [rank, slotKey]

end Role

/-- An abstract location. -/
structure Loc where
  base : ValueId
  role : Role
deriving DecidableEq, Repr

namespace Loc

/-- The location of a value itself. -/
def self (base : ValueId) : Loc := ⟨base, .self⟩

/-- A slot of the object at `base`; slot 0 is the base itself. -/
def offset (base : ValueId) (slot : Int64) : Loc :=
  if slot = 0 then self base else ⟨base, .offset slot⟩

/-- The location of what a function returns. -/
def returned (func : ValueId) : Loc := ⟨func, .returned⟩

/-- The location of the functions that a call may reach. -/
def callees (call : ValueId) : Loc := ⟨call, .callees⟩

/-- The slot of a memory location within its object. -/
def slot? (l : Loc) : Option Int64 :=
  match l.role with
  | .self => some 0
  | .offset slot => some slot
  | .returned => none
  | .callees => none

/-- What a location points to while nothing is known about it: values and
memory point to their base, and the other locations to nothing. -/
def default? (l : Loc) : Option Loc :=
  match l.role with
  | .self => some (self l.base)
  | .offset _ => some (self l.base)
  | .returned => none
  | .callees => none

/-- For instance `%3`, `%3[2]`, `%3.ret` or `%3.callees`. -/
def text (l : Loc) : String :=
  match l.role with
  | .self => l.base.text
  | .offset slot => l.base.text ++ "[" ++ toString slot.toInt ++ "]"
  | .returned => l.base.text ++ ".ret"
  | .callees => l.base.text ++ ".callees"

instance : Ord Loc := ⟨compareLex (compareOn Loc.base) (compareOn Loc.role)⟩

theorem compare_def (a b : Loc) :
    compare a b = (compare a.base b.base).then (compare a.role b.role) := rfl

instance : Std.TransOrd Loc :=
  inferInstanceAs (Std.TransCmp (compareLex (compareOn Loc.base) (compareOn Loc.role)))

instance : Std.LawfulEqOrd Loc where
  eq_of_compare {a b} h := by
    rw [compare_def, Ordering.then_eq_eq] at h
    cases a
    cases b
    have hbase := Std.LawfulEqOrd.eq_of_compare h.1
    have hrole := Std.LawfulEqOrd.eq_of_compare h.2
    simp_all

/-- The number of locations: 32-bit bases, each with 64-bit slots and three
further roles. -/
def count : Nat := UInt32.size * (UInt64.size + 3)

end Loc

end CallTargets
