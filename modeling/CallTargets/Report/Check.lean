import CallTargets.Report.Line

/-!
# Comparing reports

A report is compared with an expected answer line by line, and the first line at
which they disagree is told: a line that differs, a line too much or a line too
few.  Each outcome has an exit code.
-/

namespace CallTargets

/-- The first disagreement of a report with an answer, at a line number counted
from one. -/
inductive Mismatch where
  | wrongLine (number : Nat) (yours answer : ReportLine)
  | moreThanAnswer (number : Nat) (yours : ReportLine)
  | lessThanAnswer (number : Nat) (answer : ReportLine)
deriving DecidableEq, Repr

/-- The outcomes of a check. -/
inductive ExitCode where
  | correct
  | wrongLine
  | moreThanAnswer
  | lessThanAnswer
  | reportFormat
  | answerFormat
  | usage
deriving DecidableEq, Repr

namespace ExitCode

def code : ExitCode → Nat
  | correct => 0
  | wrongLine => 1
  | moreThanAnswer => 2
  | lessThanAnswer => 3
  | reportFormat => 4
  | answerFormat => 5
  | usage => 255

end ExitCode

namespace Mismatch

def message : Mismatch → String
  | wrongLine number yours answer =>
      "At line " ++ toString number ++ " get '" ++ yours.text ++ "' but expect '" ++
        answer.text ++ "'"
  | moreThanAnswer number yours =>
      "At line " ++ toString number ++ " output is more than answer\nGet: '" ++ yours.text ++ "'"
  | lessThanAnswer number answer =>
      "At line " ++ toString number ++ " output is less than answer\nExpect: '" ++
        answer.text ++ "'"

def number : Mismatch → Nat
  | wrongLine number _ _ => number
  | moreThanAnswer number _ => number
  | lessThanAnswer number _ => number

def exitCode : Mismatch → ExitCode
  | wrongLine _ _ _ => .wrongLine
  | moreThanAnswer _ _ => .moreThanAnswer
  | lessThanAnswer _ _ => .lessThanAnswer

end Mismatch

namespace Report

/-- Compares lines, of which the first have the number `number`. -/
def checkFrom (number : Nat) : List ReportLine → List ReportLine → Except Mismatch Unit
  | [], [] => .ok ()
  | yours :: _, [] => .error (.moreThanAnswer number yours)
  | [], answer :: _ => .error (.lessThanAnswer number answer)
  | yours :: restYours, answer :: restAnswer =>
    if yours.Same answer then checkFrom (number + 1) restYours restAnswer
    else .error (.wrongLine number yours answer)

/-- Compares a report with an answer and gives the first disagreement. -/
def check (yours answer : List ReportLine) : Except Mismatch Unit := checkFrom 1 yours answer

end Report

end CallTargets
