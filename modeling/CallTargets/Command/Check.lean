import CallTargets.Command.Arguments
import CallTargets.Command.Files
import CallTargets.Report.Check
import CallTargets.Report.Parser

/-!
# The check command

Checks a report against an expected answer, or only its format.  What the command
prints, its exit code and its log are functions of its settings and of the texts
of the two files, or of the errors in place of them.
-/

namespace CallTargets

/-- What a command leaves behind. -/
structure CommandOutcome where
  exitCode : ExitCode
  stdout : String := ""
  stderr : String := ""
  log : List String := []
deriving DecidableEq, Repr

/-- Why a file does not give report lines. -/
inductive SourceError where
  | file (error : FileError)
  | report (error : ReportError)
deriving DecidableEq, Repr

namespace SourceError

def message : SourceError → String
  | file error => error.message
  | report error => error.message

end SourceError

namespace Report

/-- The lines of a report file. -/
def ofFile (strict : Bool) (text : Except FileError String) :
    Except SourceError (List ReportLine) :=
  match text with
  | .error error => .error (.file error)
  | .ok text =>
    match parse strict text with
    | .error error => .error (.report error)
    | .ok lines => .ok lines

end Report

namespace CheckRequest

/-- What is logged about a report that could be read. -/
def logLine (r : CheckRequest) (lines : List ReportLine) : String :=
  "INFO fnptr: " ++ toString lines.length ++ " lines in " ++ r.file

/-- Compares the lines of a report with an answer. -/
def compare (strict : Bool) (yours : List ReportLine) (answer : Except FileError String) :
    CommandOutcome :=
  match Report.ofFile strict answer with
  | .error error =>
      { exitCode := .answerFormat
        stdout := "Answer file format error\n" ++ error.message ++ "\n" }
  | .ok answer =>
    match Report.check yours answer with
    | .error mismatch =>
        { exitCode := mismatch.exitCode, stdout := mismatch.message ++ "\n\n" }
    | .ok () => { exitCode := .correct, stdout := "Correct\n" }

/-- The outcome of a check, given how the text of a file reads. -/
def outcome (r : CheckRequest) (read : String → Except FileError String) : CommandOutcome :=
  if !r.formatOnly && r.standard.isNone then
    { exitCode := .usage
      stderr := "Neither format-only flag nor standard file is given!\n" }
  else
    let stderr :=
      if r.formatOnly && r.standard.isSome then
        "Warning: standard file is ignored due to format-only flag.\n"
      else ""
    match Report.ofFile r.strict (read r.file) with
    | .error error =>
        { exitCode := .reportFormat
          stdout := "Input file format error\n" ++ error.message ++ "\n"
          stderr }
    | .ok yours =>
      let log := [r.logLine yours]
      match r.formatOnly, r.standard with
      | false, some standard => { compare r.strict yours (read standard) with stderr, log }
      | _, _ => { exitCode := .correct, stderr, log }

end CheckRequest

namespace Command

/-- A command whose log cannot be started. -/
def logRefused (log : String) (error : FileError) : CommandOutcome :=
  { exitCode := .usage, stderr := "Cannot create " ++ log ++ ": " ++ error.message ++ "\n" }

/-- The text of a log. -/
def logText (lines : List String) : String := String.join (lines.map (· ++ "\n"))

/-- Runs a command on a file tree.  A log replaces the file at its path before the
reports are read. -/
def run (c : Command) (fs : Files) : CommandOutcome × Files :=
  match c.log with
  | none => (c.check.outcome fs.readText, fs)
  | some log =>
    match fs.create log with
    | .error error => (logRefused log error, fs)
    | .ok fs =>
      let outcome := c.check.outcome fs.readText
      (outcome, fs.put log (.file (logText outcome.log).toUTF8))

end Command

end CallTargets
