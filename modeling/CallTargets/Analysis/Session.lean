import CallTargets.Store
import CallTargets.Flow.Solver
import CallTargets.Analysis.Config

/-!
# Analysis sessions

The analysis halts at address computations that it cannot follow.  While it runs
it keeps a session: the path of functions under analysis, the call edges that it
resolved but did not follow, and a journal of what happened, which the log is
written from.
-/

namespace CallTargets

/-- Why an address computation is not supported. -/
inductive Reason where
  | negativeIndex (n : Int64)
  | nonConstantIndex
  | noField (n : Nat)
  | indexInto (ty : Ty)
  | offsetOverflow
deriving Repr

namespace Reason

def text : Reason → String
  | negativeIndex n => "negative index " ++ toString n.toInt
  | nonConstantIndex => "non-constant index"
  | noField n => "no field " ++ toString n
  | indexInto ty => "index into " ++ ty.text
  | offsetOverflow => "offset overflow"

end Reason

/-- An instruction that the analysis cannot follow, with the function that owns
it and its source line. -/
structure Unsupported where
  func : String
  inst : String
  line : Option UInt32
  reason : Reason
deriving Repr

namespace Unsupported

def message (e : Unsupported) : String :=
  "unsupported instruction `" ++ e.inst ++ "` in `" ++ e.func ++ "`: " ++ e.reason.text

end Unsupported

/-- Why a resolved call edge is not followed. -/
inductive CutoffReason where
  /-- The callee is already under analysis on the current path. -/
  | recursive
  | depthLimit
deriving DecidableEq, Repr

namespace CutoffReason

def text : CutoffReason → String
  | recursive => "Recursive"
  | depthLimit => "DepthLimit"

def rank : CutoffReason → Nat
  | recursive => 0
  | depthLimit => 1

end CutoffReason

/-- A call edge that was resolved but not followed. -/
structure Cutoff where
  call : ValueId
  callee : FuncId
  reason : CutoffReason
deriving DecidableEq, Repr

namespace Cutoff

/-- Cutoffs are ordered by call, callee and reason. -/
def order : Cutoff → Cutoff → Ordering :=
  compareLex (compareOn call)
    (compareLex (compareOn callee) (compareOn (fun c => c.reason.rank)))

instance : Ord Cutoff := ⟨order⟩

theorem compare_def (a b : Cutoff) :
    compare a b = (compare a.call b.call).then
      ((compare a.callee b.callee).then (compare a.reason.rank b.reason.rank)) := rfl

instance : Std.TransOrd Cutoff :=
  inferInstanceAs (Std.TransCmp (compareLex (compareOn call)
    (compareLex (compareOn callee) (compareOn (fun c => c.reason.rank)))))

instance : Std.LawfulEqOrd Cutoff where
  eq_of_compare {a b} h := by
    rw [compare_def, Ordering.then_eq_eq, Ordering.then_eq_eq] at h
    obtain ⟨call, callee, reason⟩ := a
    obtain ⟨call', callee', reason'⟩ := b
    have hcall := Std.LawfulEqOrd.eq_of_compare h.1
    have hcallee := Std.LawfulEqOrd.eq_of_compare h.2.1
    have hreason := Std.LawfulEqOrd.eq_of_compare h.2.2
    cases reason <;> cases reason' <;> simp_all [CutoffReason.rank]

end Cutoff

/-- Something worth telling about a run. -/
inductive Note where
  /-- A function is analysed as a root. -/
  | analyzing (func : FuncId)
  /-- A call through a pointer has no known target. -/
  | unresolved (call : ValueId)
  | mayCall (call : ValueId) (callees : List FuncId)
  | notEntering (cutoff : Cutoff)
  /-- A callee is entered from a call made with the store `before`; its
  parameters are bound in `context`. -/
  | entering (call : ValueId) (callee : FuncId) (before context : Store)
  | leaving (callee : FuncId) (summary : Store)
deriving DecidableEq

/-- A note, with the path of functions that were under analysis. -/
structure Event where
  path : List FuncId
  note : Note
deriving DecidableEq

/-- What an analysis keeps while it runs. -/
structure Session where
  /-- The functions under analysis, the innermost first. -/
  path : List FuncId := []
  cutoffs : Std.ExtTreeSet Cutoff := ∅
  /-- What happened so far, the latest first. -/
  journal : List Event := []

namespace Session

def note (n : Note) (s : Session) : Session :=
  { s with journal := ⟨s.path, n⟩ :: s.journal }

/-- Records a call edge that is not followed. -/
def cut (c : Cutoff) (s : Session) : Session :=
  { s.note (.notEntering c) with cutoffs := s.cutoffs.insert c }

def enter (func : FuncId) (s : Session) : Session := { s with path := func :: s.path }

def leave (s : Session) : Session := { s with path := s.path.tail }

end Session

/-- A computation within a session. -/
abbrev Analysis (ε : Type) := Halting ε Session

namespace Analysis

variable {ε α : Type}

def note (n : Note) : Analysis ε Unit := modify (Session.note n)

/-- Runs a computation with a function on the path, which is left again whether
or not the computation halts. -/
def within (func : FuncId) (x : Analysis ε α) : Analysis ε α := fun s =>
  match x (s.enter func) with
  | .ok a s => .ok a s.leave
  | .error halt s => .error halt s.leave

end Analysis

end CallTargets
