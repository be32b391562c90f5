/-!
# Parameters of commands

What may be given to a command: an operand, options with a value, and switches.

* `Parameter` describes one of them, `Domain` the values it takes
* `Command` describes a command with all its parameters
* `ast`, `check` and `program` are the commands of the program and the program itself
-/

namespace LocaleText.CommandLine

/-- The values that a parameter takes. -/
inductive Domain
  /-- No value: the parameter is given or not. -/
  | switch
  /-- Asks for the help text instead of running the command. -/
  | help
  | text
  /-- The path of a file, which cannot be empty. -/
  | path
  /-- A number from 0 up to, not including, the bound. -/
  | number (bound : Nat)
  | choice (words : List String)
  deriving DecidableEq, Repr

/-- One thing that may be given to a command. -/
structure Parameter where
  /-- The long name of an option; what identifies the operand. -/
  name : String
  short : Option Char
  /-- What stands for the value in help texts. -/
  placeholder : String
  domain : Domain
  /-- Whether it is the operand of the command and not an option. -/
  operand : Bool
  /-- Whether it has to be given. -/
  required : Bool
  /-- Whether it may be given more than once. -/
  many : Bool
  help : String
  /-- The names of the parameters that cannot be given together with this one. -/
  excludes : List String
  deriving DecidableEq, Repr

namespace Parameter

/-- Whether the parameter has a value. -/
def takesValue (p : Parameter) : Bool :=
  match p.domain with
  | .switch | .help => false
  | _ => true

/-- How messages call the parameter. -/
def text (p : Parameter) : String :=
  if p.operand then
    (if p.required then "<" ++ p.placeholder ++ ">" else "[" ++ p.placeholder ++ "]")
      ++ if p.many then "..." else ""
  else if p.takesValue then "--" ++ p.name ++ " <" ++ p.placeholder ++ ">"
  else "--" ++ p.name

def choices (p : Parameter) : List String :=
  match p.domain with
  | .choice words => words
  | _ => []

end Parameter

/-- A command of the program, or the program itself. -/
structure Command where
  name : String
  about : String
  /-- How to call it. -/
  usage : String
  parameters : List Parameter
  /-- What follows the parameters in the help text. -/
  examples : Option String
  deriving DecidableEq, Repr

namespace Command

def operand? (c : Command) : Option Parameter := c.parameters.find? Parameter.operand

def options (c : Command) : List Parameter := c.parameters.filter fun p => !p.operand

def optionNames (c : Command) : List String := c.options.map Parameter.name

end Command

/-! ### The commands of the program -/

/-- The switch that asks for help. -/
def helpSwitch : Parameter :=
  ⟨"help", some 'h', "", .help, false, false, false, "Print help", []⟩

def depthOption : Parameter :=
  ⟨"max-depth", none, "N", .number UInt32.size, false, false, false,
    "Maximum nesting of values and expressions (0 = unlimited)", []⟩

/-- Whether reports are coloured. -/
def colourOption : Parameter :=
  ⟨"color", none, "WHEN", .choice ["auto", "always", "never"], false, false, false,
    "Colorize output [default: auto] [possible values: auto, always, never]", []⟩

def switch (name help : String) (excludes : List String) : Parameter :=
  ⟨name, none, "", .switch, false, false, false, help, excludes⟩

/-- The command that shows the tree of a resource. -/
def ast : Command :=
  { name := "ast"
    about := "Show the syntax tree of a resource"
    usage := "l20n ast <FILE>\n  l20n ast -t <TEXT>"
    parameters :=
      [⟨"FILE", none, "FILE", .path, true, false, false, "Resource file (`-` reads stdin)", []⟩,
       ⟨"text", some 't', "TEXT", .text, false, false, false, "Inline resource text", ["FILE"]⟩,
       switch "spans" "Show source positions" [],
       switch "trivia" "Include whitespace between entries" [],
       switch "json" "Print the tree as JSON" ["spans", "trivia"],
       depthOption, colourOption, helpSwitch]
    examples := some
      "EXAMPLES:
  l20n ast app.l20n                  # tree dump
  l20n ast app.l20n --spans          # with byte ranges
  l20n ast app.l20n --json           # machine-readable tree
  l20n ast -t '<hello \"Hello\">'      # inline resource
  cat app.l20n | l20n ast -          # stdin" }

/-- The command that checks whether resources can be read. -/
def check : Command :=
  { name := "check"
    about := "Validate resources"
    usage := "  l20n check <FILE>..."
    parameters :=
      [⟨"FILE", none, "FILE", .path, true, true, true, "Resource files (`-` reads stdin)", []⟩,
       depthOption, colourOption, helpSwitch]
    examples := some
      "EXAMPLES:
  l20n check app.l20n                # validate one file
  l20n check locales/*.l20n          # validate many
  l20n check - < app.l20n            # stdin" }

/-- The command that shows help texts. -/
def help : Command :=
  { name := "help"
    about := "Print this message or the help of the given subcommand(s)"
    usage := "l20n help [COMMAND]..."
    parameters :=
      [⟨"COMMAND", none, "COMMAND", .text, true, false, true, "Print help for the subcommand(s)",
        []⟩]
    examples := none }

/-- The program itself, whose operand is a command. -/
def program : Command :=
  { name := "l20n"
    about := "Inspect and validate L20n resources"
    usage := "l20n <COMMAND>"
    parameters := [helpSwitch]
    examples := none }

/-- The commands of the program. -/
def commands : List Command := [ast, check, help]

def command? (name : String) : Option Command := commands.find? fun c => c.name = name

end LocaleText.CommandLine
