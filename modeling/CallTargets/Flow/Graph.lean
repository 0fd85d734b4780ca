import CallTargets.Program
import Std.Data.ExtTreeSet

/-!
# Flow graphs

The flow graph of a defined function: its own blocks in layout order, the
successors, predecessors and instructions of every block, and the order in
which blocks are visited.  That order is a reverse post-order of the depth-first
search from the entry block, followed by the function's unreachable blocks in
layout order.  Branches may lead into blocks of other functions; those are
visited too, but their own branches lend no predecessors.
-/

namespace CallTargets

/-- A depth-first search: the blocks that were discovered and the blocks that
were finished, the latest first. -/
structure Search where
  seen : Std.ExtTreeSet BlockId
  finished : List BlockId

namespace Search

/-- Explores the part of the graph that `b` reaches through undiscovered blocks,
to a depth of at most `depth` blocks. -/
def visit (p : Program) : (depth : Nat) → Search → BlockId → Except Fault Search
  | 0, search, _ => return search
  | depth + 1, search, b => do
    let entered : Search := { search with seen := search.seen.insert b }
    let explored ← (← p.successors b).foldlM
      (fun search succ => if succ ∈ search.seen then return search else visit p depth search succ)
      entered
    return { explored with finished := b :: explored.finished }

/-- Explores everything that is reachable from `b`.  A path of newly discovered
blocks is never longer than the table of blocks, so the depth is no limit. -/
def reach (p : Program) (b : BlockId) : Except Fault Search :=
  visit p (p.blocks.size + 1) ⟨∅, []⟩ b

end Search

/-- The blocks that matter to a function, in the order in which they are visited. -/
def Program.visitingOrder (p : Program) (f : Function) : Except Fault (List BlockId) := do
  match f.entryBlock? with
  | none => return f.blocks
  | some entry =>
    let search ← Search.reach p entry
    return search.finished ++ f.blocks.filter (fun b => b ∉ search.seen)

/-- The control flow of a defined function. -/
structure FlowGraph where
  entry : BlockId
  /-- The function's own blocks. -/
  layout : List BlockId
  /-- The order in which blocks are visited. -/
  order : List BlockId
  preds : BlockId → List BlockId
  succs : BlockId → List BlockId
  insts : BlockId → List ValueId

namespace FlowGraph

/-- The flow graph of a function, or nothing for a declaration.  Every block of
the visiting order exists, so reading its successors and instructions cannot
fail any more. -/
def ofFunction (p : Program) (func : FuncId) : Except Fault (Option FlowGraph) := do
  let f ← p.function func
  match f.entryBlock? with
  | none => return none
  | some entry =>
    let order ← p.visitingOrder f
    let preds ← p.predecessors func
    return some
      { entry
        layout := f.blocks
        order
        preds := fun b => preds.getD b []
        succs := fun b => (p.successors b).toOption.getD []
        insts := fun b => ((p.block b).toOption.map (fun block => block.insts.toList)).getD [] }

end FlowGraph

end CallTargets
