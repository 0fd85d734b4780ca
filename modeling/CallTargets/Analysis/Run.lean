import CallTargets.Analysis.Table

/-!
# Running the analysis

`analyzeBody` solves the dataflow equations of a function body over stores, and
the bodies of its callees along the way.  Along a path of nested calls no function
occurs twice, so the nesting is bounded by the number of functions.  `run` analyses
one function as a root and reads off its call edges; `analyze` does so for every
defined function that is not intrinsic and merges what was found.
-/

namespace CallTargets

/-- The visitor of the analysis: stores are joined, and instructions transferred
with callees analysed by `enter`. -/
def storeVisitor (p : Program) (c : Config) (enter : Entering) :
    Visitor Unsupported Session Store where
  merge := Store.join
  transfer inst s := (transferInst p c enter inst s).mapFailure Interrupted.cause

/-- Analyses the body of a function from a store, with calls nested at most `depth`
deep and with entry states that change at most `height` times. -/
def analyzeBody (p : Program) (c : Config) (height : Nat) : (depth : Nat) → Entering
  | 0 => fun _ _ => throw .exhausted
  | depth + 1 => fun func init =>
    Analysis.within func
      (forward p func (storeVisitor p c (analyzeBody p c height depth)) height init)

/-- Analyses the body of a function from a store.  A path holds each function at
most once and a store can only grow so often, so the analysis is never cut short. -/
def enterBody (p : Program) (c : Config) : Entering :=
  analyzeBody p c Store.height (p.functions.size + 1)

/-- The store after an instruction, with callees analysed to any depth. -/
def step (p : Program) (c : Config) (inst : ValueId) (s : Store) : Analysis Interrupted Store :=
  transferInst p c (enterBody p c) inst s

/-! ## Call edges -/

/-- The call edges found by a run, by site and by call instruction. -/
structure Edges where
  sites : SiteTable := ∅
  targets : TargetTable := ∅

namespace Edges

def merge (a b : Edges) : Edges := ⟨a.sites.merge b.sites, a.targets.merge b.targets⟩

/-- The site of a call. -/
def siteOf (p : Program) (call : ValueId) : Except Fault CallSite := do
  match ← p.line? call with
  | some line => return .line line
  | none => return .inst call

/-- The functions at the bases of some pointees. -/
def calleesOf (p : Program) (pointees : LocSet) : Except Fault FuncSet :=
  pointees.toList.foldlM
    (fun found pointee => do
      match ← p.asFunction? pointee.base with
      | none => return found
      | some f => return found.insert f)
    ∅

/-- Adds the callees that one entry of a summary records. -/
def addEntry (p : Program) (edges : Edges) (l : Loc) (pointees : LocSet) :
    Except Fault Edges := do
  if l.role = .callees then
    let callees ← calleesOf p pointees
    if callees.isEmpty then
      return edges
    else
      return ⟨edges.sites.extend (← siteOf p l.base) callees, edges.targets.extend l.base callees⟩
  else
    return edges

/-- The call edges that a summary records. -/
def ofSummary (p : Program) (summary : Store) : Except Fault Edges :=
  summary.toList.foldlM (fun edges (l, pointees) => addEntry p edges l pointees) {}

end Edges

/-! ## Roots -/

/-- What the analysis of one function as a root finds. -/
structure RootResult where
  states : BlockStates Store
  summary : Store
  edges : Edges

/-- Analyses one function as a root, with bodies analysed by `enter`. -/
def runBy (p : Program) (enter : Entering) (func : FuncId) : Analysis Unsupported RootResult := do
  let _ ← p.function func
  Analysis.note (.analyzing func)
  let states ← enter func ∅
  let summary := summarize states
  return { states, summary, edges := ← Edges.ofSummary p summary }

/-- Analyses one function as a root. -/
def run (p : Program) (c : Config) (func : FuncId) : Analysis Unsupported RootResult :=
  runBy p (enterBody p c) func

/-- Whether a function is analysed as a root: it is defined and not intrinsic. -/
def isRoot (p : Program) (c : Config) (func : FuncId) : Except Fault Bool :=
  return !(← p.function func).isDeclaration && !(← p.isIntrinsic c func)

/-- Analyses functions as roots one after the other and merges their edges. -/
def runAllBy (p : Program) (c : Config) (enter : Entering) (found : Edges) :
    List FuncId → Analysis Unsupported Edges
  | [] => return found
  | func :: rest => do
    if ← isRoot p c func then
      runAllBy p c enter (found.merge (← runBy p enter func).edges) rest
    else
      runAllBy p c enter found rest

/-- The call edges of a program, and those edges that were not followed. -/
structure Results where
  sites : SiteTable
  targets : TargetTable
  cutoffs : Std.ExtTreeSet Cutoff

/-- Analyses every defined function that is not intrinsic as a root, with bodies
analysed by `enter`. -/
def analyzeBy (p : Program) (c : Config) (enter : Entering) : Analysis Unsupported Results := do
  let edges ← runAllBy p c enter {} p.functionIds
  return ⟨edges.sites, edges.targets, (← get).cutoffs⟩

/-- Analyses every defined function that is not intrinsic as a root. -/
def analyze (p : Program) (c : Config) : Analysis Unsupported Results :=
  analyzeBy p c (enterBody p c)

namespace Results

/-- The callees of a call, if any were found. -/
def targets? (r : Results) (call : ValueId) : Option FuncSet := r.targets.get? call

def reportLines (r : Results) (p : Program) : Except Fault (List ReportLine) :=
  r.sites.reportLines p

/-- The report: one line of text for each source line with a call edge. -/
def report (r : Results) (p : Program) : Except Fault String :=
  return String.join ((← r.reportLines p).map fun l => l.text ++ "\n")

end Results

end CallTargets
