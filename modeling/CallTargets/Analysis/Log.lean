import CallTargets.Analysis.Run
import CallTargets.Text.Quoted

/-!
# The log

The journal of a session is written out at a level of detail: a message for each
event of that level or a more severe one.  A store in a message can name a value
that the program does not have; writing it is then a fault, which strikes at the
moment of the event.
-/

namespace CallTargets

/-- Levels of detail, from the most severe on. -/
inductive Level where
  | info
  | debug
  | trace
deriving DecidableEq, Repr

namespace Level

def text : Level → String
  | info => "INFO"
  | debug => "DEBUG"
  | trace => "TRACE"

def rank : Level → Nat
  | info => 0
  | debug => 1
  | trace => 2

/-- Whether messages of level `m` are shown at level `l`. -/
def shows (l m : Level) : Bool := m.rank ≤ l.rank

end Level

namespace Note

def level : Note → Level
  | analyzing _ => .info
  | unresolved _ => .debug
  | mayCall _ _ => .debug
  | notEntering _ => .debug
  | entering _ _ _ _ => .trace
  | leaving _ _ => .trace

def text (p : Program) : Note → Except Fault String
  | analyzing func => return "analyzing " ++ (← p.function func).name
  | unresolved call => return "no resolved target for " ++ call.text
  | mayCall call callees => do
      let names ← callees.mapM fun f => return (← p.function f).name
      return call.text ++ " may call " ++ Text.quotedList names
  | notEntering cutoff =>
      return "not entering " ++ (← p.function cutoff.callee).name ++ " from " ++
        cutoff.call.text ++ ": " ++ cutoff.reason.text
  | entering _ callee _ context =>
      return "entering " ++ (← p.function callee).name ++ ":\n" ++ (← context.text p)
  | leaving callee summary =>
      return "leaving " ++ (← p.function callee).name ++ ":\n" ++ (← summary.text p)

end Note

/-- A message of the log. -/
structure LogLine where
  level : Level
  message : String
deriving DecidableEq, Repr

namespace Log

/-- The messages of some notes up to the first that cannot be written, and the
fault of that one. -/
def write (p : Program) (level : Level) : List Note → List LogLine × Option Fault
  | [] => ([], none)
  | note :: rest =>
    if level.shows note.level then
      match note.text p with
      | .error fault => ([], some fault)
      | .ok message =>
        let (messages, fault?) := write p level rest
        (⟨note.level, message⟩ :: messages, fault?)
    else write p level rest

/-- The notes of a journal in the order in which they were taken. -/
def notes (journal : List Event) : List Note := (journal.map Event.note).reverse

end Log

/-- How a watched computation ended, what it wrote to the log, and its session. -/
structure Watched (ε α : Type) where
  outcome : Except (Halt ε) α
  log : List LogLine
  session : Session

/-- Runs a computation while its log is written at a level, if one is given.  An
event that cannot be written ends the computation there with a fault. -/
def watch {ε α : Type} (p : Program) (level : Option Level) (x : Analysis ε α)
    (session : Session) : Watched ε α :=
  let (outcome, session) : Except (Halt ε) α × Session :=
    match x { session with journal := [] } with
    | .ok a s => (.ok a, s)
    | .error halt s => (.error halt, s)
  match level with
  | none => ⟨outcome, [], session⟩
  | some level =>
    match Log.write p level (Log.notes session.journal) with
    | (log, none) => ⟨outcome, log, session⟩
    | (log, some fault) => ⟨.error (.fault fault), log, session⟩

end CallTargets
