import CallTargets.Flow.Solver

/-!
# Recorded runs

A recording visitor keeps a history of the merges and transfers of a run, which
shows the order in which the solver visits blocks and merges predecessors.  The
`sightings` visitor gathers the instructions that are seen on some path, or on
every path, to a point of a function.
-/

namespace CallTargets

/-- One action of a solver. -/
inductive Action (D : Type) where
  /-- The second state was merged into the first. -/
  | merge (dest src : D)
  | transfer (inst : ValueId)
deriving DecidableEq

/-- The state of a visitor together with the actions so far, the latest first. -/
structure Recorded (D σ : Type) where
  actions : List (Action D)
  state : σ

namespace Recorded

variable {D σ : Type}

def add (action : Action D) (r : Recorded D σ) : Recorded D σ :=
  { r with actions := action :: r.actions }

/-- The actions in the order in which they happened. -/
def history (r : Recorded D σ) : List (Action D) := r.actions.reverse

end Recorded

namespace Visitor

variable {ε σ D : Type}

/-- The visitor that also records each action before it happens. -/
def recording (v : Visitor ε σ D) : Visitor ε (Recorded D σ) D where
  merge := v.merge
  noteMerge dest src r :=
    { Recorded.add (.merge dest src) r with state := v.noteMerge dest src r.state }
  transfer inst state := fun r =>
    let r := r.add (.transfer inst)
    match v.transfer inst state r.state with
    | .ok state s => .ok state { r with state := s }
    | .error halt s => .error halt { r with state := s }

end Visitor

/-- A set of values. -/
abbrev ValueSet := Std.ExtTreeSet ValueId

namespace ValueSet

/-- A set of values can grow or shrink at most once for each identifier. -/
def height : Nat := UInt32.size

end ValueSet

/-- Whether facts have to hold on some path or on every path. -/
inductive Paths where
  | some
  | every
deriving DecidableEq, Repr

/-- Gathers the instructions seen on some or on every path.  The transfer of the
instruction `stopAt` fails. -/
def sightings (paths : Paths) (stopAt : Option ValueId) : Visitor ValueId Unit ValueSet where
  merge dest src :=
    match paths with
    | .some => dest ∪ src
    | .every => dest ∩ src
  transfer inst seen :=
    if stopAt = some inst then throw (.failed inst) else return seen.insert inst

end CallTargets
