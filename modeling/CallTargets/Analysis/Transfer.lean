import CallTargets.Analysis.Offset

/-!
# Transfer of single instructions

How each instruction other than a call changes a store.  Only pointers matter:
an instruction whose result, or whose stored or returned value, is not a pointer
leaves the store alone.
-/

namespace CallTargets

namespace Store

/-- What an operand may point to.  Objects are addresses of themselves, so that
their entry holds the contents of the object. -/
def operand (s : Store) (p : Program) (v : ValueId) : Except Fault LocSet := do
  if ← p.isObject v then
    return (∅ : LocSet).insert (.self v)
  else
    return s.values (.self v)

/-- The number of times that a store can grow: once for each location that gets
an entry and once for each pair of a location and a pointee. -/
def height : Nat := Loc.count + Loc.count * Loc.count

end Store

/-- An analysis that met an unsupported instruction, with the store reached when
it broke off. -/
structure Interrupted where
  cause : Unsupported
  reached : Store

namespace Transfer

/-- What is reported about an unsupported instruction. -/
def unsupported (p : Program) (inst : ValueId) (reason : Reason) : Except Fault Unsupported := do
  let func ← match ← p.owner? inst with
    | some f => pure (← p.function f).name
    | none => pure ""
  return { func, inst := ← p.displayName inst, line := ← p.line? inst, reason }

/-- Breaks off at an unsupported instruction. -/
def refuse {α : Type} (p : Program) (inst : ValueId) (reason : Reason) (reached : Store) :
    Failing Interrupted α := do
  let cause ← unsupported p inst reason
  throw (.failed { cause, reached })

/-- A phi may be any of its incoming pointers. -/
def phi (p : Program) (inst : ValueId) (incoming : List ValueId) (s : Store) :
    Except Fault Store :=
  incoming.foldlM
    (fun s v => do
      if ← p.isPtr v then return s.extend (.self inst) (← s.operand p v) else return s)
    s

/-- A load reads every location that the address may point to. -/
def load (p : Program) (inst ptr : ValueId) (s : Store) : Except Fault Store :=
  return (← s.operand p ptr).toList.foldl (fun s source => s.copy (.self inst) source) s

/-- Whether a store with these possible targets overwrites them. -/
def overwrites (update : StoreUpdate) (targets : LocSet) : Bool :=
  match update with
  | .strong => true
  | .weakOnAmbiguity => targets.size == 1

/-- A store writes to every location that the address may point to. -/
def store (p : Program) (update : StoreUpdate) (value ptr : ValueId) (s : Store) :
    Except Fault Store := do
  let targets ← s.operand p ptr
  let pointees ← s.operand p value
  let write := if overwrites update targets then Store.set else Store.extend
  return targets.toList.foldl (fun s target => write s target pointees) s

/-- The result of a cast, or of an address computation without indices, may be
whatever its operand may be. -/
def forwardOperand (p : Program) (inst value : ValueId) (s : Store) : Except Fault Store :=
  return s.extend (.self inst) (← s.operand p value)

/-- An address computation moves each pointee of its base by a constant offset. -/
def shift (p : Program) (inst base : ValueId) (offset : Int64) (s : Store) :
    Failing Interrupted Store := do
  (← s.operand p base).toList.foldlM
    (fun s pointee =>
      match pointee.slot? with
      | none => return s
      | some slot =>
        match Offset.add? slot offset with
        | some slot => return s.insert (.self inst) (.offset pointee.base slot)
        | none => refuse p inst .offsetOverflow s)
    s

/-- An address computation. -/
def gep (p : Program) (inst base : ValueId) (elem : Ty) (indices : List ValueId) (s : Store) :
    Failing Interrupted Store := do
  if indices.isEmpty then
    forwardOperand p inst base s
  else
    match Offset.constant p elem indices with
    | .ok offset => shift p inst base offset s
    | .error (.failed reason) => refuse p inst reason s
    | .error (.fault cause) => throw (.fault cause)
    | .error .exhausted => throw .exhausted

/-- A return adds to what the owning function returns. -/
def ret (p : Program) (inst value : ValueId) (s : Store) : Except Fault Store := do
  match ← p.owner? inst with
  | none => return s
  | some func =>
    let pointees ← s.operand p value
    return s.extend (.returned (← p.function func).value) pointees

/-- The store after an instruction that is not a call. -/
def plain (p : Program) (c : Config) (inst : ValueId) (op : Op) (s : Store) :
    Failing Interrupted Store := do
  match op with
  | .phi incoming => if ← p.isPtr inst then phi p inst (incoming.map Prod.fst) s else return s
  | .load ptr => if ← p.isPtr inst then load p inst ptr s else return s
  | .store value ptr => if ← p.isPtr value then store p c.storeUpdate value ptr s else return s
  | .gep base elem indices => if ← p.isPtr inst then gep p inst base elem indices s else return s
  | .cast _ value => if ← p.isPtr inst then forwardOperand p inst value s else return s
  | .ret (some value) => if ← p.isPtr value then ret p inst value s else return s
  | _ => return s

end Transfer

end CallTargets
