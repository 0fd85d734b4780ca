/-!
# Files

A small file tree under one working directory: what the command needs to read
reports and to start a log.  Paths are sequences of names divided by slashes;
empty names and single dots are skipped.
-/

namespace CallTargets

/-- Why a file cannot be used. -/
inductive FileError where
  | notFound
  | notDirectory
  | isDirectory
  | denied
  | notUtf8
deriving DecidableEq, Repr

namespace FileError

def message : FileError → String
  | notFound => "No such file or directory (os error 2)"
  | notDirectory => "Not a directory (os error 20)"
  | isDirectory => "Is a directory (os error 21)"
  | denied => "Permission denied (os error 13)"
  | notUtf8 => "stream did not contain valid UTF-8"

end FileError

/-- What stands at a path. -/
inductive FileNode where
  | file (bytes : ByteArray)
  | dir

/-- The files and directories below the working directory, by path. -/
structure Files where
  entries : List (List String × FileNode)

namespace Files

def empty : Files := ⟨[]⟩

/-- The names on a path, with those before it in reverse. -/
def namesFrom (reversed : List Char) : List Char → List String
  | [] => [String.ofList reversed.reverse]
  | c :: rest =>
    if c = '/' then String.ofList reversed.reverse :: namesFrom [] rest
    else namesFrom (c :: reversed) rest

/-- The names on a path. -/
def names (path : String) : List String :=
  (namesFrom [] path.toList).filter (fun name => name ≠ "" && name ≠ ".")

/-- Whether a path can only name a directory. -/
def namesDirectory (path : String) : Bool :=
  match path.toList.reverse with
  | '/' :: _ => true
  | _ => names path == []

/-- What stands at a sequence of names.  The working directory is always there, and
so is a directory below which something stands. -/
def node? (fs : Files) (names : List String) : Option FileNode :=
  match fs.entries.find? (fun entry => entry.1 == names) with
  | some (_, node) => some node
  | none =>
    if names.isEmpty || fs.entries.any (fun entry => names.isPrefixOf entry.1) then some .dir
    else none

/-- Whether every name but the last leads to a directory, walking on from `before`. -/
def walk (fs : Files) (before : List String) : List String → Except FileError Unit
  | [] => .ok ()
  | [_] => .ok ()
  | name :: rest =>
    match fs.node? (before ++ [name]) with
    | none => .error .notFound
    | some (.file _) => .error .notDirectory
    | some .dir => walk fs (before ++ [name]) rest

/-- Puts a node at a path. -/
def put (fs : Files) (path : String) (node : FileNode) : Files :=
  ⟨(names path, node) :: fs.entries.filter (fun entry => entry.1 ≠ names path)⟩

/-- The bytes of a file. -/
def read (fs : Files) (path : String) : Except FileError ByteArray := do
  fs.walk [] (names path)
  match fs.node? (names path) with
  | none => throw .notFound
  | some .dir => throw .isDirectory
  | some (.file bytes) => if namesDirectory path then throw .notDirectory else return bytes

/-- The text of a file. -/
def readText (fs : Files) (path : String) : Except FileError String := do
  match String.fromUTF8? (← fs.read path) with
  | some text => return text
  | none => throw .notUtf8

/-- Starts an empty file, in place of one that is there. -/
def create (fs : Files) (path : String) : Except FileError Files := do
  fs.walk [] (names path)
  match fs.node? (names path), namesDirectory path with
  | some .dir, _ => throw .isDirectory
  | some (.file _), true => throw .notDirectory
  | none, true => throw .isDirectory
  | _, false => return fs.put path (.file ByteArray.empty)

end Files

end CallTargets
