import LocaleText.CommandLine.Arguments
import LocaleText.CommandLine.Files
import LocaleText.Document
import LocaleText.Outline
import LocaleText.Reading.Entry
import LocaleText.Report

/-!
# Running commands

What the program writes and how it ends. The commands are written over any way to load sources, and
what they do does not depend on how they are loaded.

* `runAst` shows the tree of one source, `runCheck` reads sources until one of them is at fault
* `run` runs a call of the program
* `runIn` runs it in given surroundings

Standard output and error are texts that are complete when a command ends: that a stream may be
closed or a disk full is left out, and the standard error is taken not to be a screen. No log is
written. Memory and the depth of the stack are not bounded either, so a source that is nested without
a limit is read as if there were room for it.
-/

namespace LocaleText.CommandLine

/-- What the program writes, and the code with which it ends. -/
structure Outcome where
  stdout : String
  stderr : String
  code : Nat
  deriving DecidableEq, Repr, Inhabited

namespace Outcome

def success (stdout : String) : Outcome := ⟨stdout, "", 0⟩

/-- A source is at fault. -/
def failure (stderr : String) : Outcome := ⟨"", stderr, 1⟩

/-- The arguments are at fault. -/
def misuse (stderr : String) : Outcome := ⟨"", stderr, 2⟩

end Outcome

/-! ### Options -/

/-- How sources are read and errors reported. -/
structure Settings where
  limit : Option Nat
  coloured : Bool
  deriving DecidableEq, Repr, Inhabited

/-- The nesting limit that is asked for: the usual one if none is, and none at all for zero. -/
def limitOf (depth : Option Nat) : Option Nat :=
  match depth with
  | none => some Resource.defaultLimit
  | some 0 => none
  | some n => some n

def Given.settings (given : Given) : Settings :=
  let depth := (given.value? depthOption.name).bind fun text =>
    (readNumber UInt32.size text).toOption
  ⟨limitOf depth, given.value? colourOption.name = some "always"⟩

/-- How a tree is shown. -/
inductive View
  | outline (spans blanks : Bool)
  | json
  deriving DecidableEq, Repr, Inhabited

def Given.view (given : Given) : View :=
  if given.has "json" then .json else .outline (given.has "spans") (given.has "trivia")

/-- The source that is asked for; inline text wins. -/
def Given.origin? (given : Given) : Option Origin :=
  match given.value? "text" with
  | some text => some (.inline text)
  | none => (given.value? "FILE").map Origin.ofOperand

/-! ### Commands -/

def View.show (view : View) (resource : Resource) : String :=
  match view with
  | .outline spans blanks => resource.outline spans blanks
  | .json => resource.toJson.pretty ++ "\n"

/-- Why there is no source, in words. -/
def loadFailure (origin : Origin) (reason : ReadError) : String :=
  match origin with
  | .stdin => "error: failed to read stdin: " ++ reason.text ++ "\n"
  | _ => "error: failed to read " ++ inQuotes origin.name ++ ": " ++ reason.text ++ "\n"

/-- Reads what was loaded: the tree, or what is to be said of the first thing that went wrong. -/
def readLoaded (settings : Settings) (origin : Origin) (loaded : Loaded) :
    Except String Resource :=
  match loaded with
  | .error reason => .error (loadFailure origin reason)
  | .ok source =>
    (Resource.read settings.limit source).mapError fun e =>
      e.render source (some origin.name) settings.coloured

/-- What `ast` says without a source. -/
def noSource : String :=
  "error: resource is required: use a positional FILE, `-` for stdin, or -t/--text\n"

section

variable {m : Type → Type} [Monad m] (load : Origin → m Loaded)

/-- Shows the tree of a source. -/
def runAst (settings : Settings) (view : View) (origin : Origin) : m Outcome := do
  match readLoaded settings origin (← load origin) with
  | .ok resource => pure (.success (view.show resource))
  | .error message => pure (.failure message)

/-- Reads sources in order up to the first that is at fault, and says nothing if none is. -/
def runCheck (settings : Settings) : List Origin → m Outcome
  | [] => pure (.success "")
  | origin :: rest => do
    match readLoaded settings origin (← load origin) with
    | .ok _ => runCheck settings rest
    | .error message => pure (.failure message)

def runCommand (c : Command) (given : Given) : m Outcome :=
  if c = check then
    runCheck load given.settings ((given.values "FILE").map Origin.ofOperand)
  else
    match given.origin? with
    | none => pure (.failure noSource)
    | some origin => runAst load given.settings given.view origin

/-- Runs a call of the program. -/
def run (arguments : List String) : m Outcome :=
  match callOf arguments with
  | .run c given => runCommand load c given
  | .help text => pure (.success text)
  | .nothing => pure (.misuse programHelpText)
  | .mistake c mistake => pure (.misuse (mistake.text c))

end

/-- Runs a call of the program in given surroundings. -/
def runIn (surroundings : Surroundings) (arguments : List String) : Outcome :=
  (run Surroundings.load arguments surroundings).1

end LocaleText.CommandLine
