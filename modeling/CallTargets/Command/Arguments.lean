/-!
# Command-line arguments

The command line is `[-l|--log FILE] [-v|--verbose] check FILE [--std FILE]
[-s|--strict] [-f|--format-only]`.  Options and operands mix freely on either side
of `check`; a value follows its option, or is attached to it; short flags can be
bundled; after `--` everything is an operand.  An option may be given once, and no
file name is empty.
-/

namespace CallTargets

namespace Command

/-- An option that a command accepts. -/
structure OptionSpec where
  long : String
  short : Option Char
  takesValue : Bool
deriving DecidableEq, Repr

/-- A part of a command line, once it is understood. -/
inductive Item where
  | flag (long : String)
  | value (long : String) (text : String)
  | operand (text : String)
deriving DecidableEq, Repr

/-- How an argument reads on its own. -/
inductive Shape where
  /-- The argument `--`. -/
  | divider
  /-- An option with two dashes, with the value attached by an equals sign if any. -/
  | long (name : List Char) (attached : Option (List Char))
  /-- Short options after one dash. -/
  | short (letters : List Char)
  | operand
deriving DecidableEq, Repr

/-- Divides characters at the first equals sign. -/
def splitEquals : List Char → List Char × Option (List Char)
  | [] => ([], none)
  | '=' :: rest => ([], some rest)
  | c :: rest => ((splitEquals rest).map (c :: ·) id)

/-- A single dash is an operand. -/
def shape (arg : String) : Shape :=
  match arg.toList with
  | ['-', '-'] => .divider
  | '-' :: '-' :: rest => .long (splitEquals rest).1 (splitEquals rest).2
  | ['-'] => .operand
  | '-' :: letters => .short letters
  | _ => .operand

/-- Short options: flags up to a letter that takes a value.  The value is the rest
of the argument, after an equals sign if there is one.  The second part is the
option that still wants a value. -/
def bundle (specs : List OptionSpec) : List Char → Option (List Item × Option String)
  | [] => some ([], none)
  | letter :: rest => do
    let spec ← specs.find? (fun spec => spec.short == some letter)
    if spec.takesValue then
      match rest with
      | [] => return ([], some spec.long)
      | '=' :: text => return ([.value spec.long (String.ofList text)], none)
      | text => return ([.value spec.long (String.ofList text)], none)
    else
      let (items, wanting) ← bundle specs rest
      return (.flag spec.long :: items, wanting)

/-- The items of one argument, and the option that wants the next argument as its
value. -/
def readArg (specs : List OptionSpec) (arg : String) : Option (List Item × Option String) := do
  match shape arg with
  | .divider => none
  | .operand => return ([.operand arg], none)
  | .short letters => bundle specs letters
  | .long name attached =>
    let spec ← specs.find? (fun spec => spec.long == String.ofList name)
    match attached, spec.takesValue with
    | none, false => return ([.flag spec.long], none)
    | none, true => return ([], some spec.long)
    | some text, true => return ([.value spec.long (String.ofList text)], none)
    | some _, false => none

/-- Reads arguments up to the first operand for which `stop` holds, and gives the
items before it and the arguments after it.  `wanting` is an option that wants a
value. -/
def scan (specs : List OptionSpec) (stop : Bool) :
    (wanting : Option String) → List String → Option (List Item × List String)
  | none, [] => some ([], [])
  | some _, [] => none
  | some long, arg :: rest =>
    if shape arg = .operand then
      (scan specs stop none rest).map fun (items, after) => (.value long arg :: items, after)
    else none
  | none, arg :: rest =>
    match shape arg with
    | .divider => if stop then none else some (rest.map Item.operand, [])
    | .operand =>
      if stop then some ([.operand arg], rest)
      else (scan specs stop none rest).map fun (items, after) => (.operand arg :: items, after)
    | _ => do
      let (items, wanting) ← readArg specs arg
      let (more, after) ← scan specs stop wanting rest
      return (items ++ more, after)

/-- The name of the option of an item. -/
def Item.long? : Item → Option String
  | .flag long => some long
  | .value long _ => some long
  | .operand _ => none

/-- The file name of an item. -/
def Item.file? : Item → Option String
  | .flag _ => none
  | .value _ text => some text
  | .operand text => some text

/-- Whether each option is given at most once and no file name is empty. -/
def wellGiven (items : List Item) : Bool :=
  decide (items.filterMap Item.long?).Nodup && (items.filterMap Item.file?).all (!·.isEmpty)

/-- The value of an option. -/
def valueOf (long : String) (items : List Item) : Option String :=
  items.findSome? fun
    | .value l text => if l == long then some text else none
    | _ => none

/-- The operands in order. -/
def operands (items : List Item) : List String :=
  items.filterMap fun
    | .operand text => some text
    | _ => none

end Command

/-- A request to check a report. -/
structure CheckRequest where
  file : String
  standard : Option String
  strict : Bool
  formatOnly : Bool
deriving DecidableEq, Repr

/-- A whole command line. -/
structure Command where
  log : Option String
  verbose : Bool
  check : CheckRequest
deriving DecidableEq, Repr

namespace Command

/-- The options before `check`. -/
def outerSpecs : List OptionSpec := [⟨"log", some 'l', true⟩, ⟨"verbose", some 'v', false⟩]

/-- The options after `check`. -/
def checkSpecs : List OptionSpec :=
  [⟨"std", none, true⟩, ⟨"strict", some 's', false⟩, ⟨"format-only", some 'f', false⟩]

/-- Reads the arguments after `check`. -/
def readCheck (args : List String) : Option CheckRequest := do
  let (items, _) ← scan checkSpecs false none args
  if !wellGiven items then none
  else
    match operands items with
    | [file] =>
      return { file
               standard := valueOf "std" items
               strict := items.contains (.flag "strict")
               formatOnly := items.contains (.flag "format-only") }
    | _ => none

/-- Reads a command line, or refuses it. -/
def ofArgs (args : List String) : Option Command := do
  let (items, rest) ← scan outerSpecs true none args
  if !wellGiven items then none
  else
    match operands items with
    | ["check"] =>
      return { log := valueOf "log" items
               verbose := items.contains (.flag "verbose")
               check := ← readCheck rest }
    | _ => none

end Command

end CallTargets
