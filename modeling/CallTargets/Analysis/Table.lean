import CallTargets.Analysis.Call
import CallTargets.Report.Line

/-!
# Tables of callees

A callee table maps keys to non-empty sets of functions and grows by union.  The
keys are call instructions, or call sites: source lines where they are known and
the instruction itself otherwise.  Sites are ordered with all lines first.
-/

namespace CallTargets

/-- Where a call is written. -/
inductive CallSite where
  | line (number : UInt32)
  | inst (call : ValueId)
deriving DecidableEq, Repr

namespace CallSite

def text : CallSite → String
  | line number => toString number.toNat
  | inst call => call.text

def rank : CallSite → Nat
  | line _ => 0
  | inst _ => 1

/-- The number by which sites of one kind are ordered. -/
def key : CallSite → UInt32
  | line number => number
  | inst call => call.num

instance : Ord CallSite := ⟨compareLex (compareOn rank) (compareOn key)⟩

theorem compare_def (a b : CallSite) :
    compare a b = (compare a.rank b.rank).then (compare a.key b.key) := rfl

instance : Std.TransOrd CallSite :=
  inferInstanceAs (Std.TransCmp (compareLex (compareOn rank) (compareOn key)))

instance : Std.LawfulEqOrd CallSite where
  eq_of_compare {a b} h := by
    rw [compare_def, Ordering.then_eq_eq] at h
    have hrank := Std.LawfulEqOrd.eq_of_compare h.1
    have hkey := Std.LawfulEqOrd.eq_of_compare h.2
    rcases a with a | ⟨⟨a⟩⟩ <;> rcases b with b | ⟨⟨b⟩⟩ <;> simp_all [rank, key]

end CallSite

/-- Functions that may be called, for each key. -/
structure CalleeTable (κ : Type) [Ord κ] [Std.TransOrd κ] where
  entries : Std.ExtTreeMap κ FuncSet

namespace CalleeTable

variable {κ : Type} [Ord κ] [Std.TransOrd κ]

def empty : CalleeTable κ := ⟨∅⟩

instance : EmptyCollection (CalleeTable κ) := ⟨empty⟩

instance [DecidableEq κ] [Std.LawfulEqOrd κ] : DecidableEq (CalleeTable κ) := fun a b =>
  decidable_of_iff (a.entries = b.entries) (by cases a; cases b; simp)

def size (t : CalleeTable κ) : Nat := t.entries.size

def isEmpty (t : CalleeTable κ) : Bool := t.entries.isEmpty

def get? (t : CalleeTable κ) (key : κ) : Option FuncSet := t.entries[key]?

/-- The entries in order of their keys. -/
def toList (t : CalleeTable κ) : List (κ × FuncSet) := t.entries.toList

/-- Adds callees to a key; no callees leave the table alone. -/
def extend (t : CalleeTable κ) (key : κ) (callees : FuncSet) : CalleeTable κ :=
  if callees.isEmpty then t
  else ⟨t.entries.insert key ((t.get? key).getD ∅ ∪ callees)⟩

/-- Adds all entries of another table. -/
def merge (t other : CalleeTable κ) : CalleeTable κ :=
  other.toList.foldl (fun t (key, callees) => t.extend key callees) t

end CalleeTable

/-- The callees at each call site. -/
abbrev SiteTable := CalleeTable CallSite

/-- The callees of each call instruction. -/
abbrev TargetTable := CalleeTable ValueId

namespace SiteTable

/-- The report line of one site, when it is a source line.  Names follow the order
of declaration. -/
def reportLine? (p : Program) (site : CallSite) (callees : FuncSet) :
    Except Fault (Option ReportLine) := do
  match site with
  | .inst _ => return none
  | .line number =>
    let names ← callees.toList.mapM fun f => return (← p.function f).name
    return some ⟨number.toUInt64, names⟩

/-- The sites that are source lines, as report lines. -/
def reportLines (t : SiteTable) (p : Program) : Except Fault (List ReportLine) :=
  return (← t.toList.mapM fun (site, callees) => reportLine? p site callees).filterMap id

end SiteTable

end CallTargets
