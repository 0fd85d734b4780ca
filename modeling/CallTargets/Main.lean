import CallTargets.Command.Check

/-!
# The command line

Reads the files that a command names, runs it and prints what it leaves behind.
-/

namespace CallTargets

namespace Command

/-- The error of a file that could not be opened or read. -/
def fileError : IO.Error → FileError
  | .inappropriateType _ code _ => if code = 21 then .isDirectory else .notDirectory
  | .permissionDenied _ _ _ => .denied
  | _ => .notFound

/-- The text of a file. -/
def readFileText (path : String) : IO (Except FileError String) := do
  match ← (IO.FS.readBinFile path).toBaseIO with
  | .error error => return .error (fileError error)
  | .ok bytes =>
    match String.fromUTF8? bytes with
    | some text => return .ok text
    | none => return .error .notUtf8

/-- Prints what a command leaves behind and gives its exit code. -/
def finish (outcome : CommandOutcome) : IO UInt32 := do
  (← IO.getStderr).putStr outcome.stderr
  (← IO.getStdout).putStr outcome.stdout
  return UInt32.ofNat outcome.exitCode.code

/-- Starts an empty log file. -/
def startLog (path : String) : IO (Except FileError Unit) := do
  match ← (IO.FS.writeFile path "").toBaseIO with
  | .error error => return .error (fileError error)
  | .ok () => return .ok ()

/-- Reads the files of a check and carries it out. -/
def runCheck (request : CheckRequest) : IO CommandOutcome := do
  let report ← readFileText request.file
  let answer ← match request.standard with
    | some path => readFileText path
    | none => pure (.error .notFound)
  return request.outcome fun path => if path == request.file then report else answer

end Command

end CallTargets

open CallTargets in
/-- Runs the command line and gives its exit code. -/
def main (args : List String) : IO UInt32 := do
  match Command.ofArgs args with
  | none =>
    (← IO.getStderr).putStrLn "usage: [-l FILE] [-v] check FILE [--std FILE] [-s] [-f]"
    return 2
  | some command =>
    match command.log with
    | none => Command.finish (← Command.runCheck command.check)
    | some log =>
      match ← Command.startLog log with
      | .error error => Command.finish (Command.logRefused log error)
      | .ok () =>
        let outcome ← Command.runCheck command.check
        IO.FS.writeFile log (Command.logText outcome.log)
        Command.finish outcome
