import CallTargets.Analysis.Session

/-!
# Address offsets

The distance, in slots, that a list of indices covers in the flattened layout of
a type.  The first index steps over whole values of the type and each further
index selects a field or an element inside.  All indices have to be constants
that are not negative, and the distance has to fit in a signed 64-bit word.
-/

namespace CallTargets

namespace Offset

/-- The number of an index operand. -/
def index (p : Program) (v : ValueId) : Failing Reason Nat := do
  match ← p.asInt? v with
  | none => throw (.failed .nonConstantIndex)
  | some n => if 0 ≤ n then return n.toInt.toNat else throw (.failed (.negativeIndex n))

/-- A number of slots that has to be a word. -/
def checked (n : Nat) : Failing Reason Nat :=
  match word? n with
  | some n => .ok n
  | none => .error (.failed .offsetOverflow)

/-- The part of a type that an index selects, and the slots before it. -/
def select (ty : Ty) (n : Nat) : Failing Reason (Nat × Ty) := do
  match ty with
  | .struct fields =>
    match fields[n]? with
    | none => throw (.failed (.noField n))
    | some field => return (← Ty.slotsFrom 0 (fields.take n), field)
  | .array elem _ => return (← checked (n * (← elem.slots)), elem)
  | _ => throw (.failed (.indexInto ty))

/-- Follows the indices after the first into a type, from `offset` on. -/
def descend (p : Program) (ty : Ty) (offset : Nat) : List ValueId → Failing Reason Nat
  | [] => return offset
  | v :: rest => do
    let (step, inner) ← select ty (← index p v)
    descend p inner (← checked (offset + step)) rest

/-- The distance that a list of indices covers. -/
def covered (p : Program) (ty : Ty) : List ValueId → Failing Reason Nat
  | [] => return 0
  | v :: rest => do
    let n ← index p v
    descend p ty (← checked (n * (← ty.slots))) rest

/-- The distance that a list of indices covers, as a signed word. -/
def constant (p : Program) (ty : Ty) (indices : List ValueId) : Failing Reason Int64 := do
  let n ← covered p ty indices
  if n ≤ offsetMax then return Int64.ofNat n else throw (.failed .offsetOverflow)

/-- The sum of two slots when it is a signed word. -/
def add? (a b : Int64) : Option Int64 :=
  let sum := a.toInt + b.toInt
  if Int64.minValue.toInt ≤ sum ∧ sum ≤ Int64.maxValue.toInt then some (Int64.ofInt sum) else none

end Offset

end CallTargets
