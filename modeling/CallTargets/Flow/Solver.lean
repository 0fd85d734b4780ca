import CallTargets.Flow.Graph

/-!
# Forward dataflow

A visitor gives a domain of states its merge and the transfer of an instruction.
The solver visits blocks, always the pending one that comes first in the visiting
order, until no exit state changes.  A block starts from the state it had, or from
the initial state when it is the entry block, and merges the exits of those
predecessors that have been visited; a block for which there is nothing to start
from is skipped.
-/

namespace CallTargets

/-- What a dataflow analysis does with its states.  `D` is the domain, `σ` the
visitor's own state and `ε` its failures.  A transfer may read and change the
visitor's own state and may fail, a merge may not: it is a function of the two
states, and the visitor only takes note of it.  Nor does a visitor say when two
exits count as the same: the solver asks whether they are equal. -/
structure Visitor (ε σ D : Type) where
  /-- Merges a second state into the first. -/
  merge : D → D → D
  /-- The state after an instruction. -/
  transfer : ValueId → D → Halting ε σ D
  /-- Takes note of a merge of a second state into the first. -/
  noteMerge : D → D → σ → σ := fun _ _ s => s

/-- The states at the start and at the end of a block. -/
structure BlockState (D : Type) where
  entry : D
  exit : D
deriving DecidableEq

/-- The states of the visited blocks. -/
abbrev BlockStates (D : Type) := Std.ExtTreeMap BlockId (BlockState D)

namespace Solver

/-- What the solver keeps between two visits. -/
structure Progress (D : Type) where
  pending : Std.ExtTreeSet BlockId
  states : BlockStates D

variable {ε σ D : Type} [DecidableEq D]

/-- Queues a block, which has to be in the visiting order. -/
def push (g : FlowGraph) (pending : Std.ExtTreeSet BlockId) (b : BlockId) :
    Except Fault (Std.ExtTreeSet BlockId) :=
  if b ∈ g.order then .ok (pending.insert b) else .error .unordered

/-- Queues blocks one after the other. -/
def pushAll (g : FlowGraph) (pending : Std.ExtTreeSet BlockId) (bs : List BlockId) :
    Except Fault (Std.ExtTreeSet BlockId) :=
  bs.foldlM (push g) pending

/-- The pending block that comes first in the visiting order. -/
def next? (g : FlowGraph) (pending : Std.ExtTreeSet BlockId) : Option BlockId :=
  g.order.find? (fun b => b ∈ pending)

/-- The state from which a visit of `b` starts, before any predecessor is merged. -/
def start? (g : FlowGraph) (init : D) (states : BlockStates D) (b : BlockId) : Option D :=
  match states[b]? with
  | some state => some state.entry
  | none => if b = g.entry then some init else none

/-- Merges the exit of one predecessor into a possibly missing entry state. -/
def mergePred (v : Visitor ε σ D) (states : BlockStates D) (known : Option D)
    (pred : BlockId) : Halting ε σ (Option D) :=
  match states[pred]?, known with
  | none, _ => return known
  | some state, none => return some state.exit
  | some state, some entry => do
    modify (v.noteMerge entry state.exit)
    return some (v.merge entry state.exit)

/-- The entry state of a visit of `b`, or nothing when there is no state to start from. -/
def entryState? (g : FlowGraph) (v : Visitor ε σ D) (init : D) (states : BlockStates D)
    (b : BlockId) : Halting ε σ (Option D) :=
  (g.preds b).foldlM (mergePred v states) (start? g init states b)

/-- The state after a sequence of instructions. -/
def transferAll (v : Visitor ε σ D) (insts : List ValueId) (state : D) : Halting ε σ D :=
  insts.foldlM (fun state inst => v.transfer inst state) state

/-- Whether `exit` differs from the recorded exit of `b`. -/
def exitChanged (states : BlockStates D) (b : BlockId) (exit : D) : Bool :=
  match states[b]? with
  | some state => decide (state.exit ≠ exit)
  | none => true

/-- Visits one block: its states are recorded, and its successors are queued when
its exit changed. -/
def visit (g : FlowGraph) (v : Visitor ε σ D) (init : D) (progress : Progress D)
    (b : BlockId) : Halting ε σ (Progress D) := do
  let pending := progress.pending.erase b
  match ← entryState? g v init progress.states b with
  | none => return { progress with pending }
  | some entry =>
    let exit ← transferAll v (g.insts b) entry
    let states := progress.states.insert b ⟨entry, exit⟩
    if exitChanged progress.states b exit then
      return ⟨← pushAll g pending (g.succs b), states⟩
    else
      return ⟨pending, states⟩

/-- Visits blocks until none is pending, at most `fuel` of them. -/
def run (g : FlowGraph) (v : Visitor ε σ D) (init : D) :
    (fuel : Nat) → Progress D → Halting ε σ (BlockStates D)
  | 0, progress =>
    match next? g progress.pending with
    | none => return progress.states
    | some _ => throw .exhausted
  | fuel + 1, progress => do
    match next? g progress.pending with
    | none => return progress.states
    | some b => run g v init fuel (← visit g v init progress b)

/-- A number of visits that suffices on `blocks` blocks when the entry state of a
block can change at most `height` times: each change queues at most two blocks. -/
def budget (height blocks : Nat) : Nat := blocks + 2 * blocks * (height + 1)

end Solver

/-- Runs a visitor forward over a function until no block exit changes.  The
states of all blocks that control can reach from the entry block are returned.
`height` bounds how often the entry state of one block can change. -/
def forward {ε σ D : Type} [DecidableEq D] (p : Program) (func : FuncId)
    (v : Visitor ε σ D) (height : Nat) (init : D) : Halting ε σ (BlockStates D) := do
  match ← FlowGraph.ofFunction p func with
  | none => return ∅
  | some g =>
    let pending ← Solver.pushAll g ∅ g.layout
    Solver.run g v init (Solver.budget height g.order.length) ⟨pending, ∅⟩

end CallTargets
