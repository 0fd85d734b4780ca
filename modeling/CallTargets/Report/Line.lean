/-!
# Report lines

A report line gives a source line number and the names of the functions that
may be called there, written as `12 : plus, minus`.  Two lines tell the same when
they agree on the number and on the names put in order, that is, when their names
are a permutation of each other.
-/

namespace CallTargets

structure ReportLine where
  number : UInt64
  names : List String
deriving DecidableEq, Repr

namespace ReportLine

def text (l : ReportLine) : String :=
  toString l.number.toNat ++ " : " ++ ", ".intercalate l.names

/-- The names of a line, put in order. -/
def sortedNames (l : ReportLine) : List String := l.names.mergeSort fun a b => decide (a ≤ b)

/-- Whether two lines tell the same: the order of names does not matter. -/
def Same (a b : ReportLine) : Prop := a.number = b.number ∧ a.sortedNames = b.sortedNames

instance (a b : ReportLine) : Decidable (a.Same b) :=
  inferInstanceAs (Decidable (a.number = b.number ∧ a.sortedNames = b.sortedNames))

theorem sortedNames_perm (l : ReportLine) : l.sortedNames.Perm l.names :=
  List.mergeSort_perm l.names _

theorem pairwise_sortedNames (l : ReportLine) : l.sortedNames.Pairwise fun a b => a ≤ b := by
  have htrans : ∀ a b c : String, decide (a ≤ b) = true → decide (b ≤ c) = true →
      decide (a ≤ c) = true := by
    intro a b c
    simpa only [decide_eq_true_eq] using String.le_trans
  have htotal : ∀ a b : String, (decide (a ≤ b) || decide (b ≤ a)) = true := by
    intro a b
    simpa only [Bool.or_eq_true, decide_eq_true_eq] using String.le_total a b
  exact (List.pairwise_mergeSort htrans htotal l.names).imp of_decide_eq_true

/-- Names in the same order after sorting are the same names, each as often. -/
theorem sortedNames_eq_iff {a b : ReportLine} :
    a.sortedNames = b.sortedNames ↔ a.names.Perm b.names := by
  constructor
  · intro h
    exact a.sortedNames_perm.symm.trans (h ▸ b.sortedNames_perm)
  · intro h
    apply List.Perm.eq_of_pairwise (fun _ _ _ _ => String.le_antisymm)
    · exact a.pairwise_sortedNames
    · exact b.pairwise_sortedNames
    · exact a.sortedNames_perm.trans (h.trans b.sortedNames_perm.symm)

end ReportLine

end CallTargets
