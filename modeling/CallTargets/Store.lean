import CallTargets.Location
import CallTargets.Program
import Std.Data.ExtTreeSet

/-!
# Stores

A store maps locations to the sets of locations that they may point to.  It is
read through `Store.values`: a location without an entry stands for its default
pointee.  An entry with an empty set differs from an absent one.
-/

namespace CallTargets

/-- A set of locations. -/
abbrev LocSet := Std.ExtTreeSet Loc

/-- What each location may point to. -/
structure Store where
  entries : Std.ExtTreeMap Loc LocSet
deriving DecidableEq

namespace Store

def empty : Store := ⟨∅⟩

instance : EmptyCollection Store := ⟨empty⟩

instance : Inhabited Store := ⟨empty⟩

/-! ## Reading -/

def size (s : Store) : Nat := s.entries.size

def isEmpty (s : Store) : Bool := s.entries.isEmpty

/-- The locations with an entry, in order. -/
def keys (s : Store) : List Loc := s.entries.keys

/-- The entries, in order of their locations. -/
def toList (s : Store) : List (Loc × LocSet) := s.entries.toList

def contains (s : Store) (l : Loc) : Bool := s.entries.contains l

/-- The entry of a location, without its default. -/
def explicit? (s : Store) (l : Loc) : Option LocSet := s.entries[l]?

/-- The default pointee of a location, as a set. -/
def defaults (l : Loc) : LocSet :=
  match l.default? with
  | some pointee => (∅ : LocSet).insert pointee
  | none => ∅

/-- What a location may point to. -/
def values (s : Store) (l : Loc) : LocSet := (s.explicit? l).getD (defaults l)

/-! ## Writing -/

/-- Replaces the entry of a location. -/
def set (s : Store) (l : Loc) (pointees : LocSet) : Store := ⟨s.entries.insert l pointees⟩

/-- Adds pointees to the entry of a location, which is made when it is absent. -/
def extend (s : Store) (l : Loc) (pointees : LocSet) : Store :=
  s.set l ((s.explicit? l).getD ∅ ∪ pointees)

/-- Adds one pointee to the entry of a location. -/
def insert (s : Store) (l pointee : Loc) : Store :=
  s.set l (((s.explicit? l).getD ∅).insert pointee)

/-- Whether `insert` would add a pointee that is not yet there. -/
def lacks (s : Store) (l pointee : Loc) : Bool := !((s.explicit? l).getD ∅).contains pointee

/-- Adds what `src` may point to in another store. -/
def copyFrom (s : Store) (dst : Loc) (other : Store) (src : Loc) : Store :=
  s.extend dst (other.values src)

/-- Adds what `src` may point to. -/
def copy (s : Store) (dst src : Loc) : Store := s.copyFrom dst s src

/-- Replaces an entry by what `src` may point to in another store. -/
def assignFrom (s : Store) (dst : Loc) (other : Store) (src : Loc) : Store :=
  s.set dst (other.values src)

/-- Replaces an entry by what `src` may point to. -/
def assign (s : Store) (dst src : Loc) : Store := s.assignFrom dst s src

/-! ## Combining -/

/-- The join of two branches of control flow.  A location missing on one side
contributes its default pointee. -/
def join (s other : Store) : Store :=
  let padded := s.keys.foldl
    (fun acc l => if other.contains l then acc else acc.extend l (defaults l)) s
  other.toList.foldl
    (fun acc (l, pointees) => acc.set l (acc.values l ∪ pointees)) padded

/-- The union of the entries, with no defaults involved. -/
def absorb (s other : Store) : Store :=
  other.toList.foldl (fun acc (l, pointees) => acc.extend l pointees) s

/-! ## Text -/

/-- The text of one pointee. -/
def pointeeText (p : Program) (pointee : Loc) : Except Fault String := do
  let name ← p.displayName pointee.base
  match pointee.role with
  | .offset slot => return if 0 < slot then name ++ "[" ++ toString slot.toInt ++ "]" else name
  | _ => return name

/-- The mark between a location and its pointees. -/
def roleText : Role → String
  | .self => " = "
  | .returned => " returns: "
  | .callees => " => "
  | .offset slot => "[" ++ toString slot.toInt ++ "]: "

/-- One line for each entry. -/
def text (s : Store) (p : Program) : Except Fault String := do
  let lines ← s.toList.mapM fun (l, pointees) => do
    let name ← p.displayName l.base
    let targets ← pointees.toList.mapM (pointeeText p)
    return name ++ roleText l.role ++ ", ".intercalate targets ++ "\n"
  return String.join lines

end Store

end CallTargets
