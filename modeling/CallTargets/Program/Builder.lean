import CallTargets.Program

/-!
# Building programs

A builder holds a program under construction, the block that receives the next
instruction and the source line that it will carry.  A `Step` is one request to
a builder and `build` carries out a list of them.  Identifiers are given out
densely in order of creation and are checked only where they are used; an empty
name leaves a value anonymous.
-/

namespace CallTargets

structure Builder where
  program : Program
  /-- The block that receives the next instruction. -/
  cursor : Option BlockId
  /-- The source line of the next instruction. -/
  line : Option UInt32
deriving Repr

/-- The name of a value; the empty text stands for none. -/
def nameOf (text : String) : Option String := if text.isEmpty then none else some text

namespace Builder

def empty : Builder := ⟨.empty, none, none⟩

/-- The identifier that the next value will have. -/
def nextValue (b : Builder) : ValueId := .ofNat b.program.values.size

def addValue (b : Builder) (name : String) (ty : Ty) (kind : ValueKind) : ValueId × Builder :=
  (b.nextValue,
    { b with program.values := b.program.values.push ⟨nameOf name, ty, kind⟩ })

/-! ## Functions and blocks -/

/-- Declares a function without a body: one value for the function itself, then
one for each parameter. -/
def declare (b : Builder) (name : String) (params : List Ty) (ret : Ty) : FuncId × Builder :=
  let func : FuncId := .ofNat b.program.functions.size
  let (value, b) := b.addValue name .ptr (.function func)
  let first := b.program.values.size
  let args := params.mapIdx fun i ty => Value.mk none ty (.argument func i)
  let ids := params.mapIdx fun i _ => Ident.ofNat (first + i)
  (func,
    { b with
      program.values := b.program.values ++ args
      program.functions := b.program.functions.push ⟨name, value, ids, ret, []⟩ })

/-- Appends a block to a function; the cursor stays where it is. -/
def appendBlock (b : Builder) (func : FuncId) (name : String) :
    Except Fault (BlockId × Builder) := do
  let f ← b.program.function func
  let block : BlockId := .ofNat b.program.blocks.size
  return (block,
    { b with
      program.blocks := b.program.blocks.push ⟨func, nameOf name, #[]⟩
      program.functions := b.program.functions.setIfInBounds func.index
        { f with blocks := f.blocks ++ [block] } })

/-- Lets the next instructions go to the end of a block. -/
def positionAtEnd (b : Builder) (block : BlockId) : Builder := { b with cursor := some block }

/-- Declares a function and starts its entry block. -/
def define (b : Builder) (name : String) (params : List Ty) (ret : Ty) :
    Except Fault (FuncId × Builder) := do
  let (func, b) := b.declare name params ret
  let (entry, b) ← b.appendBlock func "entry"
  return (func, b.positionAtEnd entry)

def funcValue (b : Builder) (func : FuncId) : Except Fault ValueId :=
  return (← b.program.function func).value

def param (b : Builder) (func : FuncId) (position : Nat) : Except Fault ValueId := do
  fetch (← b.program.function func).params.toArray position

def nameParam (b : Builder) (func : FuncId) (position : Nat) (name : String) :
    Except Fault (ValueId × Builder) := do
  let v ← b.param func position
  let value ← b.program.value v
  return (v,
    { b with
      program.values := b.program.values.setIfInBounds v.index
        { value with name := nameOf name } })

/-! ## Instructions -/

/-- Appends an instruction to the block at the cursor. -/
def push (b : Builder) (name : String) (ty : Ty) (op : Op) : Except Fault (ValueId × Builder) := do
  match b.cursor with
  | none => throw .unpositioned
  | some home =>
    let (v, b) := b.addValue name ty (.inst ⟨home, op, b.line⟩)
    let block ← b.program.block home
    return (v,
      { b with
        program.blocks := b.program.blocks.setIfInBounds home.index
          { block with insts := block.insts.push v } })

/-- Adds an incoming edge to a phi. -/
def addIncoming (b : Builder) (phi value : ValueId) (block : BlockId) :
    Except Fault Builder := do
  let data ← b.program.value phi
  match data.kind with
  | .inst ⟨home, .phi incoming, line⟩ =>
    let kind := ValueKind.inst ⟨home, .phi (incoming ++ [(value, block)]), line⟩
    return { b with
      program.values := b.program.values.setIfInBounds phi.index { data with kind } }
  | _ => throw (.notPhi phi)

end Builder

/-! ## Steps -/

/-- One request to a builder. -/
inductive Step where
  | declare (name : String) (params : List Ty) (ret : Ty)
  | define (name : String) (params : List Ty) (ret : Ty)
  | funcValue (func : FuncId)
  | param (func : FuncId) (position : Nat)
  | nameParam (func : FuncId) (position : Nat) (name : String)
  | block (func : FuncId) (name : String)
  | positionAtEnd (block : BlockId)
  | setLine (line : UInt32)
  | clearLine
  | global (name : String)
  | int (n : Int64)
  | null
  | undef (ty : Ty)
  | alloca (name : String) (ty : Ty)
  | load (name : String) (ty : Ty) (ptr : ValueId)
  | store (value ptr : ValueId)
  | gep (name : String) (elem : Ty) (base : ValueId) (indices : List ValueId)
  | cast (name : String) (op : CastOp) (value : ValueId) (ty : Ty)
  | phi (name : String) (ty : Ty)
  | incoming (phi value : ValueId) (block : BlockId)
  | call (name : String) (ret : Ty) (callee : ValueId) (args : List ValueId)
  | ret (value : Option ValueId)
  | br (dest : BlockId)
  | condBr (cond : ValueId) (thenDest elseDest : BlockId)
  | binOp (name : String) (ty : Ty) (lhs rhs : ValueId)
  | icmp (name : String) (lhs rhs : ValueId)
  | unreachable
deriving Repr

namespace Step

/-- A conversion between pointers that keeps the address. -/
def bitcast (name : String) (value : ValueId) : Step := .cast name .bitcast value .ptr

end Step

/-- What a step answers: the thing that it made or looked up, if any. -/
inductive Made where
  | value (v : ValueId)
  | block (b : BlockId)
  | func (f : FuncId)
  | nothing
deriving DecidableEq, Repr

namespace Made

def text? : Made → Option String
  | value v => some v.text
  | block b => some b.text
  | func f => some f.text
  | nothing => none

end Made

namespace Step

/-- The answer of a pure addition of a value. -/
def made (r : ValueId × Builder) : Made × Builder := (.value r.1, r.2)

/-- Carries out one step. -/
def apply (b : Builder) : Step → Except Fault (Made × Builder)
  | .declare name params result =>
      let (f, b) := b.declare name params result
      return (.func f, b)
  | .define name params result => return (← b.define name params result).map .func id
  | .funcValue f => return (.value (← b.funcValue f), b)
  | .param f position => return (.value (← b.param f position), b)
  | .nameParam f position name => return made (← b.nameParam f position name)
  | .block f name => return (← b.appendBlock f name).map .block id
  | .positionAtEnd home => return (.nothing, b.positionAtEnd home)
  | .setLine line => return (.nothing, { b with line := some line })
  | .clearLine => return (.nothing, { b with line := none })
  | .global name => return made (b.addValue name .ptr .global)
  | .int n => return made (b.addValue "" (.int 64) (.int n))
  | .null => return made (b.addValue "" .ptr .null)
  | .undef ty => return made (b.addValue "" ty .undef)
  | .alloca name ty => return made (← b.push name .ptr (.alloca ty))
  | .load name ty ptr => return made (← b.push name ty (.load ptr))
  | .store value ptr => return made (← b.push "" .void (.store value ptr))
  | .gep name elem base indices => return made (← b.push name .ptr (.gep base elem indices))
  | .cast name op value ty => return made (← b.push name ty (.cast op value))
  | .phi name ty => return made (← b.push name ty (.phi []))
  | .incoming target value source => return (.nothing, ← b.addIncoming target value source)
  | .call name result callee args => return made (← b.push name result (.call callee args))
  | .ret value => return made (← b.push "" .void (.ret value))
  | .br dest => return made (← b.push "" .void (.br dest))
  | .condBr cond thenDest elseDest =>
      return made (← b.push "" .void (.condBr cond thenDest elseDest))
  | .binOp name ty lhs rhs => return made (← b.push name ty (.binOp lhs rhs))
  | .icmp name lhs rhs => return made (← b.push name (.int 1) (.icmp lhs rhs))
  | .unreachable => return made (← b.push "" .void .unreachable)

end Step

/-- A list of steps that broke off: the fault, the position of the step, and
the answers of the steps before it. -/
structure BuildFailure where
  fault : Fault
  step : Nat
  before : List Made
deriving Repr

/-- A finished list of steps: the program and the answer of each step. -/
structure Built where
  program : Program
  made : List Made
deriving Repr

/-- Carries out steps after those answered by `done`, the latest first. -/
def buildFrom (b : Builder) (done : List Made) : List Step → Except BuildFailure Built
  | [] => .ok ⟨b.program, done.reverse⟩
  | step :: rest =>
    match step.apply b with
    | .ok (m, b) => buildFrom b (m :: done) rest
    | .error fault => .error ⟨fault, done.length, done.reverse⟩

/-- Carries out a list of steps on an empty program. -/
def build (steps : List Step) : Except BuildFailure Built := buildFrom .empty [] steps

end CallTargets
