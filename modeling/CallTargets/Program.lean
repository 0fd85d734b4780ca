import CallTargets.Ty

/-!
# Programs

A program is three tables: values, blocks and functions.  Instructions are
values, so an instruction and its result share one identifier.  Reading an
entry through an identifier that the program does not have is a fault.
-/

namespace CallTargets

inductive CastOp where
  | bitcast
  | intToPtr
  | ptrToInt
  | addrSpaceCast
  | trunc
  | zeroExt
  | signExt
deriving DecidableEq, Repr

/-- What an instruction does. -/
inductive Op where
  | alloca (ty : Ty)
  | load (ptr : ValueId)
  | store (value ptr : ValueId)
  /-- An address computation.  The first index steps over whole values of type
  `elem`; each further index selects a field or an element inside. -/
  | gep (base : ValueId) (elem : Ty) (indices : List ValueId)
  | cast (op : CastOp) (value : ValueId)
  | phi (incoming : List (ValueId × BlockId))
  | call (callee : ValueId) (args : List ValueId)
  | ret (value : Option ValueId)
  | br (dest : BlockId)
  | condBr (cond : ValueId) (thenDest elseDest : BlockId)
  | binOp (lhs rhs : ValueId)
  | icmp (lhs rhs : ValueId)
  | unreachable
deriving Repr

namespace Op

/-- The blocks to which control can pass after a last instruction, each once. -/
def targets : Op → List BlockId
  | br dest => [dest]
  | condBr _ thenDest elseDest =>
      if thenDest = elseDest then [thenDest] else [thenDest, elseDest]
  | _ => []

end Op

/-- An instruction: the block that holds it, what it does, and its source line. -/
structure Inst where
  block : BlockId
  op : Op
  line : Option UInt32
deriving Repr

inductive ValueKind where
  | function (func : FuncId)
  | global
  | argument (func : FuncId) (position : Nat)
  | inst (inst : Inst)
  | int (n : Int64)
  | null
  | undef
deriving Repr

structure Value where
  name : Option String
  ty : Ty
  kind : ValueKind
deriving Repr

/-- A function; one without blocks is only declared. -/
structure Function where
  name : String
  value : ValueId
  params : List ValueId
  ret : Ty
  blocks : List BlockId
deriving Repr

namespace Function

def isDeclaration (f : Function) : Bool := f.blocks.isEmpty

def entryBlock? (f : Function) : Option BlockId := f.blocks.head?

end Function

structure Block where
  func : FuncId
  name : Option String
  insts : Array ValueId
deriving Repr

structure Program where
  values : Array Value
  blocks : Array Block
  functions : Array Function
deriving Repr

namespace Program

def empty : Program := ⟨#[], #[], #[]⟩

/-! ## Entries -/

def value (p : Program) (v : ValueId) : Except Fault Value := fetch p.values v.index

def block (p : Program) (b : BlockId) : Except Fault Block := fetch p.blocks b.index

def function (p : Program) (f : FuncId) : Except Fault Function := fetch p.functions f.index

/-- The identifiers of the functions, in order of declaration. -/
def functionIds (p : Program) : List FuncId :=
  (List.range p.functions.size).map Ident.ofNat

/-- The first function with a name. -/
def functionNamed? (p : Program) (name : String) : Option FuncId :=
  (p.functions.findIdx? (fun f => f.name == name)).map Ident.ofNat

/-! ## Questions about a value -/

def isPtr (p : Program) (v : ValueId) : Except Fault Bool :=
  return (← p.value v).ty.isPtr

def asFunction? (p : Program) (v : ValueId) : Except Fault (Option FuncId) := do
  match (← p.value v).kind with
  | .function f => return some f
  | _ => return none

def asInt? (p : Program) (v : ValueId) : Except Fault (Option Int64) := do
  match (← p.value v).kind with
  | .int n => return some n
  | _ => return none

def inst? (p : Program) (v : ValueId) : Except Fault (Option Inst) := do
  match (← p.value v).kind with
  | .inst i => return some i
  | _ => return none

def line? (p : Program) (v : ValueId) : Except Fault (Option UInt32) :=
  return (← p.inst? v).bind Inst.line

/-- The function to which an instruction or an argument belongs. -/
def owner? (p : Program) (v : ValueId) : Except Fault (Option FuncId) := do
  match (← p.value v).kind with
  | .argument f _ => return some f
  | .inst i => return some (← p.block i.block).func
  | _ => return none

/-- Whether a value is the address of an object, as allocas, globals and
functions are, and not a pointer that was loaded or computed. -/
def isObject (p : Program) (v : ValueId) : Except Fault Bool := do
  match (← p.value v).kind with
  | .function _ => return true
  | .global => return true
  | .inst ⟨_, .alloca _, _⟩ => return true
  | _ => return false

/-- The name of a value; a constant without one is written out, and any other
value shows its identifier. -/
def displayName (p : Program) (v : ValueId) : Except Fault String := do
  let value ← p.value v
  match value.name, value.kind with
  | some name, _ => return name
  | none, .int n => return toString n.toInt
  | none, .null => return "null"
  | none, .undef => return "undef"
  | none, _ => return v.text

/-! ## Control flow -/

/-- What the last instruction of a block does. -/
def terminator? (p : Program) (b : BlockId) : Except Fault (Option Op) := do
  match (← p.block b).insts.back? with
  | none => return none
  | some last => return (← p.inst? last).map Inst.op

def successors (p : Program) (b : BlockId) : Except Fault (List BlockId) :=
  return ((← p.terminator? b).map Op.targets).getD []

/-- Adds a predecessor to the lists of some blocks. -/
def notePredecessor (pred : BlockId) (preds : Std.ExtTreeMap BlockId (List BlockId))
    (succs : List BlockId) : Std.ExtTreeMap BlockId (List BlockId) :=
  succs.foldl (fun preds succ => preds.insert succ (preds.getD succ [] ++ [pred])) preds

/-- The predecessors of each block among the blocks of a function, in layout
order.  Every block of the function has an entry, and so has every other block
to which one of them branches. -/
def predecessors (p : Program) (f : FuncId) :
    Except Fault (Std.ExtTreeMap BlockId (List BlockId)) := do
  let blocks := (← p.function f).blocks
  let start := blocks.foldl (fun preds b => preds.insert b []) ∅
  blocks.foldlM (fun preds b => return notePredecessor b preds (← p.successors b)) start

end Program

end CallTargets
