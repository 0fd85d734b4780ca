import CallTargets.Report.Line
import CallTargets.Text.Alphanumeric
import CallTargets.Text.Lines

/-!
# Reading report lines

A report line is a number, a colon and names divided by commas.  The lenient
reader skips all spaces.  The strict reader wants exactly one space before the
colon, one after it and one after each comma, and no other space.  Both stop at
the first thing that is wrong.
-/

namespace CallTargets

/-- What is wrong with a report line. -/
inductive LineError where
  | numberChar (c : Char)
  | spacesBeforeColon (count : Nat)
  | noSpaceAfterColon
  | noNumber
  | numberTooLarge
  | commaWithoutName
  | noSpaceAfterComma
  | spaceInNames
  | nameChar (c : Char)
  | endWithoutName
deriving DecidableEq, Repr

namespace LineError

def message : LineError → String
  | numberChar c => "Unexpected char '" ++ c.toString ++ "' in line-number"
  | spacesBeforeColon count =>
      "Got " ++ toString count ++ " spaces before colon but expected 1"
  | noSpaceAfterColon => "Expect one space after colon"
  | noNumber => "cannot parse integer from empty string"
  | numberTooLarge => "number too large to fit in target type"
  | commaWithoutName => "Got comma but expect a function name"
  | noSpaceAfterComma => "Expect space after comma"
  | spaceInNames => "Too much spaces in function names"
  | nameChar c => "Unexpected char '" ++ c.toString ++ "' in function names"
  | endWithoutName => "Unexpected End-Of-Line before a function name"

end LineError

namespace ReportLine

/-- The characters of function names. -/
def isNameChar (c : Char) : Bool := Text.isAlphanumeric c || c == '_'

/-! ## The number -/

/-- The part of a line up to its colon: the digits and the number of spaces among
them, and what follows the colon. -/
structure Head where
  digits : List Char
  spaces : Nat
  rest : List Char

/-- Reads digits and spaces up to the colon, or to the end of the line. -/
def readHead : List Char → Except LineError Head
  | [] => .ok ⟨[], 0, []⟩
  | c :: rest =>
    if c.isDigit then
      (readHead rest).map fun head => { head with digits := c :: head.digits }
    else if c = ':' then
      .ok ⟨[], 0, rest⟩
    else if c = ' ' then
      (readHead rest).map fun head => { head with spaces := head.spaces + 1 }
    else
      .error (.numberChar c)

/-- The value of decimal digits. -/
def decimal (digits : List Char) : Nat :=
  digits.foldl (fun n c => 10 * n + (c.toNat - '0'.toNat)) 0

/-- The number that decimal digits denote, which has to be a 64-bit word. -/
def readNumber (digits : List Char) : Except LineError UInt64 :=
  if digits.isEmpty then .error .noNumber
  else if decimal digits < UInt64.size then .ok (UInt64.ofNat (decimal digits))
  else .error .numberTooLarge

/-- The names part of a line after its head.  The strict reader checks the spaces
around the colon. -/
def afterColon (strict : Bool) (head : Head) : Except LineError (List Char) :=
  if strict then
    if head.spaces ≠ 1 then .error (.spacesBeforeColon head.spaces)
    else
      match head.rest with
      | ' ' :: rest => .ok rest
      | _ => .error .noSpaceAfterColon
  else .ok head.rest

/-! ## The names -/

/-- Reads names divided by commas, after the characters of the current name in
reverse.  A comma takes the space after it along. -/
def readNames (strict : Bool) (reversed : List Char) : List Char → Except LineError (List String)
  | [] =>
    if reversed.isEmpty then .error .endWithoutName
    else .ok [String.ofList reversed.reverse]
  | ',' :: ' ' :: rest =>
    if reversed.isEmpty then .error .commaWithoutName
    else (readNames strict [] rest).map (String.ofList reversed.reverse :: ·)
  | c :: rest =>
    if isNameChar c then readNames strict (c :: reversed) rest
    else if c = ',' then
      if reversed.isEmpty then .error .commaWithoutName
      else if strict then .error .noSpaceAfterComma
      else (readNames strict [] rest).map (String.ofList reversed.reverse :: ·)
    else if c = ' ' then
      if strict then .error .spaceInNames else readNames strict reversed rest
    else .error (.nameChar c)

/-- Reads a report line. -/
def parse (strict : Bool) (s : String) : Except LineError ReportLine := do
  let head ← readHead s.toList
  let rest ← afterColon strict head
  let number ← readNumber head.digits
  return ⟨number, ← readNames strict [] rest⟩

/-- Reads a report line without being told how, as the lenient reader does. -/
def ofString (s : String) : Except LineError ReportLine := parse false s

end ReportLine

/-! ## Whole reports -/

/-- A line of a report that cannot be read, with its number counted from one. -/
structure ReportError where
  index : Nat
  line : String
  error : LineError
deriving DecidableEq, Repr

namespace ReportError

def message (e : ReportError) : String :=
  "Line " ++ toString e.index ++ ": '" ++ e.line ++ "'\n" ++ e.error.message

end ReportError

namespace Report

/-- Reads lines, of which the first has the number `index`. -/
def parseFrom (strict : Bool) (index : Nat) : List String → Except ReportError (List ReportLine)
  | [] => .ok []
  | line :: rest =>
    match ReportLine.parse strict line with
    | .ok parsed => (parseFrom strict (index + 1) rest).map (parsed :: ·)
    | .error error => .error ⟨index, line, error⟩

/-- Reads every line of a text, up to the first that cannot be read. -/
def parse (strict : Bool) (text : String) : Except ReportError (List ReportLine) :=
  parseFrom strict 1 (Text.lines text)

end Report

end CallTargets
