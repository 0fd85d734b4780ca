import CallTargets.Fault

/-!
# Types and their flattened size

A type is laid out as a sequence of scalar slots.  Its size is that number of
slots over the natural numbers; every type takes at least one slot.  `Ty.slots`
computes the size in 64-bit words: array sizes saturate at the largest word,
and a struct whose fields sum to more than a word is a fault.
-/

namespace CallTargets

inductive Ty where
  | void
  | int (width : UInt32)
  | float
  | ptr
  | struct (fields : List Ty)
  | array (elem : Ty) (length : UInt64)
  | label
deriving Repr, Inhabited

/-- The largest 64-bit word. -/
def wordMax : Nat := UInt64.size - 1

/-- The largest signed 64-bit word. -/
def offsetMax : Nat := UInt64.size / 2 - 1

/-- The sum of two words, a fault when it is no word. -/
def addWords (a b : Nat) : Except Fault Nat :=
  if a + b ≤ wordMax then .ok (a + b) else .error .sumOverflow

/-- The product of two words, cut down to the largest word. -/
def mulSaturating (a b : Nat) : Nat := min (a * b) wordMax

/-- The number `n` when it is a word. -/
def word? (n : Nat) : Option Nat := if n ≤ wordMax then some n else none

namespace Ty

def isPtr : Ty → Bool
  | ptr => true
  | _ => false

mutual

/-- The text of a type, for instance `Struct([Ptr, Int(8)])`. -/
def text : Ty → String
  | void => "Void"
  | int width => "Int(" ++ toString width.toNat ++ ")"
  | float => "Float"
  | ptr => "Ptr"
  | struct fields => "Struct([" ++ ", ".intercalate (texts fields) ++ "])"
  | array elem length => "Array(" ++ text elem ++ ", " ++ toString length.toNat ++ ")"
  | label => "Label"

def texts : List Ty → List String
  | [] => []
  | ty :: rest => text ty :: texts rest

end

mutual

/-- The number of scalar slots of a type. -/
def size : Ty → Nat
  | struct fields => max 1 (sizes fields)
  | array elem length => size elem * max 1 length.toNat
  | _ => 1

/-- The number of scalar slots of a sequence of fields. -/
def sizes : List Ty → Nat
  | [] => 0
  | ty :: rest => size ty + sizes rest

end

mutual

/-- The number of scalar slots of a type as a word: arrays saturate, and struct
fields that sum to more than a word are a fault. -/
def slots : Ty → Except Fault Nat
  | struct fields => return max 1 (← slotsFrom 0 fields)
  | array elem length => return mulSaturating (← slots elem) (max 1 length.toNat)
  | _ => return 1

/-- The slots of a sequence of fields, added up from the left onto `sum`. -/
def slotsFrom (sum : Nat) : List Ty → Except Fault Nat
  | [] => return sum
  | ty :: rest => do slotsFrom (← addWords sum (← slots ty)) rest

end

end Ty

end CallTargets
