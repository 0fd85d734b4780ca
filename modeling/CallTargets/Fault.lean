import CallTargets.Ident

/-!
# Faults and halts

A fault is a misuse of a program table or of machine arithmetic: an identifier
without an entry, an instruction built outside every block, a sum that leaves
64 bits.  A halting computation stops with a fault, with a failure of its own
kind, or because its budget of steps is spent.
-/

namespace CallTargets

/-- The ways in which a computation over a program can break off. -/
inductive Fault where
  /-- An instruction was built while no block was selected. -/
  | unpositioned
  /-- An incoming edge was added to a value that is not a phi. -/
  | notPhi (value : ValueId)
  /-- A sum left the range of 64-bit words. -/
  | sumOverflow
  /-- Position `index` was asked of a table with `length` entries. -/
  | outOfBounds (length index : Nat)
  /-- A block outside the visiting order was queued. -/
  | unordered
deriving DecidableEq, Repr

namespace Fault

def message : Fault → String
  | unpositioned => "builder is not positioned in a block"
  | notPhi value => value.text ++ " is not a phi"
  | sumOverflow => "attempt to add with overflow"
  | outOfBounds length index =>
      "index out of bounds: the len is " ++ toString length ++
        " but the index is " ++ toString index
  | unordered => "no entry found for key"

end Fault

/-- The entry of a table at a position, or the fault of asking beyond its end. -/
def fetch {α : Type} (table : Array α) (index : Nat) : Except Fault α :=
  match table[index]? with
  | some entry => .ok entry
  | none => .error (.outOfBounds table.size index)

theorem fetch_eq_ok_iff {α : Type} {table : Array α} {index : Nat} {entry : α} :
    fetch table index = .ok entry ↔ table[index]? = some entry := by
  unfold fetch
  cases table[index]? <;> simp

/-- The ways in which a computation ends without a result: a fault, a failure
of kind `ε`, or a spent budget of steps. -/
inductive Halt (ε : Type) where
  | fault (cause : Fault)
  | failed (error : ε)
  | exhausted
deriving DecidableEq, Repr

namespace Halt

/-- Replaces the failure of a halt. -/
def map {ε ε' : Type} (f : ε → ε') : Halt ε → Halt ε'
  | fault cause => fault cause
  | failed error => failed (f error)
  | exhausted => exhausted

end Halt

/-- A computation without state that may halt with a failure of kind `ε`. -/
abbrev Failing (ε : Type) := Except (Halt ε)

namespace Failing

variable {ε α : Type}

/-- A computation that can only fault, inside one that can also halt otherwise. -/
def ofExcept (x : Except Fault α) : Failing ε α :=
  match x with
  | .ok a => .ok a
  | .error cause => .error (.fault cause)

instance : MonadLift (Except Fault) (Failing ε) := ⟨ofExcept⟩

end Failing

/-- A computation with state `σ` that may halt with a failure of kind `ε`.  The
state is kept also when it halts. -/
abbrev Halting (ε σ : Type) := EStateM (Halt ε) σ

namespace Halting

variable {ε ε' σ α : Type}

/-- A computation without state, inside one with a state. -/
def ofFailing (x : Failing ε α) : Halting ε σ α := fun s =>
  match x with
  | .ok a => .ok a s
  | .error halt => .error halt s

/-- A computation that can only fault, inside one that can also halt otherwise. -/
def ofExcept (x : Except Fault α) : Halting ε σ α := ofFailing (Failing.ofExcept x)

instance : MonadLift (Failing ε) (Halting ε σ) := ⟨ofFailing⟩

instance : MonadLift (Except Fault) (Halting ε σ) := ⟨ofExcept⟩

/-- Replaces the failure of a computation. -/
def mapFailure (f : ε → ε') (x : Halting ε σ α) : Halting ε' σ α := fun s =>
  match x s with
  | .ok a s' => .ok a s'
  | .error halt s' => .error (halt.map f) s'

end Halting

end CallTargets
