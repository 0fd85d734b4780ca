import CallTargets.Analysis.Transfer

/-!
# Transfer of calls

A call resolves its callee to candidate functions, which its `callees` location
records.  Each candidate with a body is analysed from the caller's store with
its parameters bound, unless it is already under analysis or the path is full.
What the callees return and write is then spliced into the caller's store; a
location that some entered callee left alone also keeps what it held before.

The analysis of a function body is a parameter here, so that calls come before
the recursion through them.
-/

namespace CallTargets

/-- A set of functions. -/
abbrev FuncSet := Std.ExtTreeSet FuncId

/-- The analysis of a function body from a store. -/
abbrev Entering := FuncId → Store → Analysis Unsupported (BlockStates Store)

/-- The union of the exit states of every block. -/
def summarize (states : BlockStates Store) : Store :=
  states.toList.foldl (fun summary (_, state) => summary.absorb state.exit) ∅

namespace Program

/-- Whether a function is intrinsic by its name. -/
def isIntrinsic (p : Program) (c : Config) (f : FuncId) : Except Fault Bool :=
  return c.marksIntrinsic (← p.function f).name

end Program

namespace Call

/-- Adds the function at the base of a pointee, unless there is none or it is
intrinsic. -/
def addCandidate (p : Program) (c : Config) (found : FuncSet) (pointee : Loc) :
    Except Fault FuncSet := do
  match ← p.asFunction? pointee.base with
  | none => return found
  | some f => if ← p.isIntrinsic c f then return found else return found.insert f

/-- The functions that a callee operand may be. -/
def candidates (p : Program) (c : Config) (s : Store) (callee : ValueId) : Except Fault FuncSet := do
  (← s.operand p callee).toList.foldlM (addCandidate p c) ∅

/-- Records the candidates of a call in the store. -/
def recordTargets (p : Program) (call : ValueId) (s : Store) (funcs : List FuncId) :
    Except Fault Store :=
  funcs.foldlM
    (fun s f => return s.insert (.callees call) (.self (← p.function f).value)) s

/-- The store in which a callee is analysed: each pointer argument adds to what
its parameter may point to. -/
def bindParams (p : Program) (before : Store) (params args : List ValueId) :
    Except Fault Store :=
  (params.zip args).foldlM
    (fun context (param, arg) => do
      if ← p.isPtr arg then
        return context.extend (.self param) (← before.operand p arg)
      else
        return context)
    before

/-- Why a callee cannot be entered on a path, if so. -/
def cutoff? (c : Config) (path : List FuncId) (callee : FuncId) : Option CutoffReason :=
  if callee ∈ path then some .recursive
  else if c.maxCallDepth ≤ path.length then some .depthLimit
  else none

/-- Whether a callee can be entered; if not, the edge is recorded as cut off. -/
def canEnter {ε : Type} (c : Config) (call : ValueId) (callee : FuncId) : Analysis ε Bool := do
  match cutoff? c (← get).path callee with
  | none => return true
  | some reason =>
    modify (Session.cut ⟨call, callee, reason⟩)
    return false

/-- Whether a caller can see a fact that holds when `func` returns: everything but
return values and the function's own values. -/
def escapes (p : Program) (func : FuncId) (l : Loc) : Except Fault Bool := do
  match l.role with
  | .callees => return true
  | .offset _ => return true
  | .self => return decide ((← p.owner? l.base) ≠ some func)
  | .returned => return false

/-- The entries of a summary that a caller can see. -/
def visible (p : Program) (func : FuncId) (summary : Store) : Except Fault Store :=
  summary.toList.foldlM
    (fun kept (l, pointees) => do
      if ← escapes p func l then return kept.set l pointees else return kept)
    ∅

/-- What an entered callee does to its caller. -/
structure Effect where
  /-- What the callee may return. -/
  returns : LocSet
  /-- The facts at its end that the caller can see. -/
  writes : Store

/-- Analyses one candidate of a call, or gives nothing when it is not entered. -/
def enterOne (p : Program) (c : Config) (enter : Entering) (call : ValueId)
    (args : List ValueId) (before : Store) (f : FuncId) : Analysis Interrupted (Option Effect) := do
  let callee ← p.function f
  if callee.isDeclaration then
    return none
  else if !(← canEnter c call f) then
    return none
  else
    let context ← bindParams p before callee.params args
    Analysis.note (.entering call f before context)
    let states ← (enter f context).mapFailure (fun cause => { cause, reached := before })
    let summary := summarize states
    Analysis.note (.leaving f summary)
    return some
      { returns := summary.values (.returned callee.value)
        writes := ← visible p f summary }

/-- Analyses the candidates of a call one after the other. -/
def enterAll (p : Program) (c : Config) (enter : Entering) (call : ValueId)
    (args : List ValueId) (before : Store) : List FuncId → Analysis Interrupted (List Effect)
  | [] => return []
  | f :: rest => do
    let effect? ← enterOne p c enter call args before f
    let effects ← enterAll p c enter call args before rest
    return effect?.toList ++ effects

/-- What the entered callees may return. -/
def allReturns (effects : List Effect) : LocSet :=
  effects.foldl (fun all effect => all ∪ effect.returns) ∅

/-- What the entered callees write, taken together. -/
def allWrites (effects : List Effect) : Store :=
  effects.foldl (fun all effect => all.absorb effect.writes) ∅

/-- The caller's store after the call.  Returned pointers are added to the result
of the call when it is a pointer; written entries replace those of the caller, and
one that some callee left alone keeps what the caller had as well. -/
def splice (call : ValueId) (isPtr : Bool) (before : Store) (effects : List Effect) : Store :=
  let returns := if isPtr then allReturns effects else ∅
  let start := if returns.isEmpty then before else before.extend (.self call) returns
  (allWrites effects).toList.foldl
    (fun s (l, pointees) =>
      if effects.all (fun effect => effect.writes.contains l) then
        s.set l pointees
      else
        s.set l (pointees ∪ before.values l))
    start

/-- The store after a call. -/
def transfer (p : Program) (c : Config) (enter : Entering) (call callee : ValueId)
    (args : List ValueId) (s : Store) : Analysis Interrupted Store := do
  let funcs := (← candidates p c s callee).toList
  if funcs.isEmpty then
    if (← p.asFunction? callee).isNone then
      Analysis.note (.unresolved call)
    return s
  else
    let before ← recordTargets p call s funcs
    Analysis.note (.mayCall call funcs)
    let effects ← enterAll p c enter call args before funcs
    return splice call (← p.isPtr call) before effects

end Call

/-- The store after an instruction; a value that is no instruction changes
nothing. -/
def transferInst (p : Program) (c : Config) (enter : Entering) (inst : ValueId) (s : Store) :
    Analysis Interrupted Store := do
  match ← p.inst? inst with
  | none => return s
  | some ⟨_, .call callee args, _⟩ => Call.transfer p c enter inst callee args s
  | some ⟨_, op, _⟩ => Transfer.plain p c inst op s

end CallTargets
