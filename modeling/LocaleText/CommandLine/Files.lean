/-!
# Where sources come from

A source is given inline, comes from the standard input, or is the content of a file. The commands
are written over whatever loads sources; a `Surroundings` is a value that does, with a directory of
files that does not change.

* `Origin` is where a source comes from
* `ReadError` is why a source cannot be had
* `Directory.read` finds the content of a file from its path
* `Surroundings.load` loads a source; the standard input is empty once it has been read
-/

namespace LocaleText.CommandLine

/-- Where a source comes from. -/
inductive Origin
  | inline (text : String)
  | stdin
  | file (path : String)
  deriving DecidableEq, Repr

/-- The name under which a source is reported. -/
def Origin.name : Origin → String
  | inline _ => "<text>"
  | stdin => "<stdin>"
  | file path => path

/-- The origin that an operand names: a lone dash is the standard input. -/
def Origin.ofOperand (operand : String) : Origin :=
  if operand = "-" then .stdin else .file operand

/-- Why a source cannot be had. -/
inductive ReadError
  | missing
  | notADirectory
  | isADirectory
  | notText
  /-- Any other reason, in words. -/
  | other (reason : String)
  deriving DecidableEq, Repr, Inhabited

def ReadError.text : ReadError → String
  | missing => "No such file or directory (os error 2)"
  | notADirectory => "Not a directory (os error 20)"
  | isADirectory => "Is a directory (os error 21)"
  | notText => "stream did not contain valid UTF-8"
  | other reason => reason

/-- What loading a source comes to. -/
abbrev Loaded := Except ReadError String

/-- The text that some bytes encode. -/
def decodeText (bytes : ByteArray) : Loaded :=
  match String.fromUTF8? bytes with
  | some text => .ok text
  | none => .error .notText

/-! ### Directories -/

/-- The files below a directory, each under the names that lead to it. -/
abbrev Directory := List (List String × Loaded)

namespace Directory

/-- The parts of a path, without those that are empty or stay where they are. -/
def partsOf (path : String) : List String :=
  ((path.toList.splitOn '/').map String.ofList).filter fun part => part ≠ "" && part ≠ "."

/-- Whether a path can only name a directory. -/
def namesDirectory (path : String) : Bool :=
  match (path.toList.splitOn '/').getLast? with
  | some last => last = [] || last = ['.'] || last = ['.', '.']
  | none => false

/-- What stands at some place below a directory. -/
inductive Place
  | file (content : Loaded)
  | directory
  | nothing

/-- What the names in `names` lead to. -/
def placeAt (directory : Directory) (names : List String) : Place :=
  match directory.find? fun (other, _) => other = names with
  | some (_, content) => .file content
  | none =>
    if names = [] || directory.any fun (other, _) => names.isPrefixOf other then .directory
    else .nothing

/-- Follows the parts of a path from the place that `names` lead to. -/
def follow (directory : Directory) (names : List String) : List String → Except ReadError Place
  | [] => .ok (directory.placeAt names)
  | part :: parts =>
    match directory.placeAt names with
    | .file _ => .error .notADirectory
    | .nothing => .error .missing
    | .directory =>
      if part = ".." then follow directory names.dropLast parts
      else follow directory (names ++ [part]) parts

def read (directory : Directory) (path : String) : Loaded :=
  if path.toList.head? = some '/' then .error .missing
  else match directory.follow [] (partsOf path) with
    | .error reason => .error reason
    | .ok .nothing => .error .missing
    | .ok .directory => .error .isADirectory
    | .ok (.file content) => if namesDirectory path then .error .notADirectory else content

end Directory

/-! ### Surroundings -/

/-- All that a command can read. -/
structure Surroundings where
  files : String → Loaded
  /-- What is left of the standard input. -/
  stdin : Loaded

def Surroundings.load (origin : Origin) : StateM Surroundings Loaded := fun surroundings =>
  match origin with
  | .inline text => (.ok text, surroundings)
  | .stdin => (surroundings.stdin, { surroundings with stdin := .ok "" })
  | .file path => (surroundings.files path, surroundings)

end LocaleText.CommandLine
