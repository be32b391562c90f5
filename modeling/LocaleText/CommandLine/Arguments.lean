import LocaleText.CommandLine.Mistake

/-!
# Reading arguments

Arguments are read from left to right. An option takes its value from behind an equals sign, from the
rest of the argument behind its short name, or from the next argument; behind `--` all arguments are
operands. A value is looked at when the argument after it is taken up, so an unknown option is found
before a bad value that stands just before it.

* `Given` are the parameters that were given with their values
* `readArguments` reads the arguments of a command
* `callOf` reads the arguments of the program
-/

namespace LocaleText.CommandLine

/-! ### Values -/

/-- The number that digits write, up to the largest one, or what is wrong with the first character at
which they do not. -/
def readDigits (largest : Nat) (excess : String) (digits : List Char) : Except String Nat :=
  if digits.isEmpty then .error "invalid digit found in string"
  else digits.foldlM (fun n c =>
    if !c.isDigit then .error "invalid digit found in string"
    else
      let next := 10 * n + (c.toNat - '0'.toNat)
      if largest < next then .error excess else .ok next) 0

/-- The number that a text writes in decimal, with or without a sign, or what is wrong with it. The
numbers are those of 64 bits with a sign. -/
def readSigned (text : String) : Except String Int :=
  let positive := readDigits (UInt64.size / 2 - 1) "number too large to fit in target type"
  let negative := readDigits (UInt64.size / 2) "number too small to fit in target type"
  match text.toList with
  | [] => .error "cannot parse integer from empty string"
  | '-' :: digits => (negative digits).map fun n => -(n : Int)
  | '+' :: digits => (positive digits).map Int.ofNat
  | digits => (positive digits).map Int.ofNat

/-- The number that a text writes, or what is wrong with it, where numbers are below a bound. -/
def readNumber (bound : Nat) (text : String) : Except String Nat := do
  let n ← readSigned text
  if 0 ≤ n && n < bound then pure n.toNat
  else throw (toString n ++ " is not in 0..=" ++ toString (bound - 1))

/-- What is wrong with a value for a parameter. -/
def Parameter.checkValue (p : Parameter) (value : String) : Except Mistake Unit :=
  match p.domain with
  | .path => if value.isEmpty then throw (.missingValue p) else pure ()
  | .number bound =>
    match readNumber bound value with
    | .ok _ => pure ()
    | .error reason => throw (.invalidValue value p reason)
  | .choice words =>
    if words.contains value then pure ()
    else if value.isEmpty then throw (.missingValue p)
    else throw (.notAChoice value p)
  | _ => pure ()

/-! ### What is given -/

/-- The parameters that were given, in order, with their values. -/
abbrev Given := List (Parameter × List String)

namespace Given

def has (given : Given) (name : String) : Bool := given.any fun (p, _) => p.name = name

def values (given : Given) (name : String) : List String :=
  (given.filter fun (p, _) => p.name = name).flatMap Prod.snd

def value? (given : Given) (name : String) : Option String := (given.values name).head?

/-- Adds values of a parameter, to those that are there if the parameter may be repeated. -/
def add (given : Given) (p : Parameter) (values : List String) : Given :=
  if given.has p.name then
    given.map fun (q, old) => if q.name = p.name then (q, old ++ values) else (q, old)
  else given ++ [(p, values)]

end Given

/-- How far the arguments have been read. -/
structure Progress where
  given : Given
  /-- The parameter whose values are being collected. -/
  pending : Option (Parameter × List String)
  /-- Whether the pending parameter is an option that still lacks its value. -/
  waiting : Bool
  /-- Whether `--` has been read. -/
  operandsOnly : Bool
  deriving Inhabited

/-- Why reading arguments ends before their end. -/
inductive Stop
  | help
  | mistake (mistake : Mistake)

namespace Progress

def start : Progress := ⟨[], none, false, false⟩

/-- Accepts values for a parameter. -/
def accept (progress : Progress) (p : Parameter) (values : List String) :
    Except Stop Progress := do
  if p.takesValue && values.isEmpty then throw (.mistake (.missingValue p))
  if !p.many && progress.given.has p.name then throw (.mistake (.repeated p))
  match values.forM p.checkValue with
  | .ok _ => pure { progress with given := progress.given.add p values }
  | .error mistake => throw (.mistake mistake)

def settle (progress : Progress) : Except Stop Progress :=
  match progress.pending with
  | none => pure { progress with waiting := false }
  | some (p, values) => { progress with pending := none, waiting := false }.accept p values

/-- Takes up an option, with the value that is attached to it, if any. -/
def takeOption (progress : Progress) (p : Parameter) (value : Option String) :
    Except Stop Progress := do
  let progress ← progress.settle
  match value with
  | some value => progress.accept p [value]
  | none => pure { progress with pending := some (p, []), waiting := true }

def takeSwitch (progress : Progress) (p : Parameter) : Except Stop Progress := do
  let progress ← progress.settle
  if p.domain = .help then throw .help else progress.accept p []

end Progress

/-! ### Arguments of a command -/

/-- An argument that looks like an option but is none. -/
def unknownOption (c : Command) (argument : String) : Mistake :=
  .unexpected argument (if c.operand?.isSome then [operandTip argument] else [])

/-- An argument that looks like a long option but is none. -/
def unknownLong (c : Command) (name : String) : Mistake :=
  match (mostSimilar? name c.optionNames).bind fun best =>
      c.options.find? fun p => p.name = best with
  | some meant => .mistyped ("--" ++ name) meant
  | none => unknownOption c ("--" ++ name)

/-- A text cut at its first equals sign. -/
def cutAtEquals (text : List Char) : String × Option String :=
  match text.dropWhile (· ≠ '=') with
  | [] => (String.ofList text, none)
  | _ :: value => (String.ofList (text.takeWhile (· ≠ '=')), some (String.ofList value))

/-- Reads a long option, without its dashes. -/
def readLong (c : Command) (progress : Progress) (text : List Char) : Except Stop Progress :=
  let (name, value) := cutAtEquals text
  match c.options.find? fun p => p.name = name with
  | none => throw (.mistake (unknownLong c name))
  | some p =>
    if p.takesValue then progress.takeOption p value
    else match value with
      | some value => throw (.mistake (.unneededValue value p))
      | none => progress.takeSwitch p

/-- Reads short options, without their dash. -/
def readShorts (c : Command) (progress : Progress) : List Char → Except Stop Progress
  | [] => pure progress
  | name :: rest =>
    match c.options.find? fun p => p.short = some name with
    | none => throw (.mistake (unknownOption c ("-" ++ name.toString)))
    | some p =>
      if p.takesValue then
        progress.takeOption p <| match rest with
          | [] => none
          | '=' :: value => some (String.ofList value)
          | value => some (String.ofList value)
      else do readShorts c (← progress.takeSwitch p) rest

def readOperand (c : Command) (progress : Progress) (argument : String) : Except Stop Progress := do
  match c.operand? with
  | none => throw (.mistake (.unexpected argument []))
  | some p =>
    match progress.pending with
    | some (q, values) =>
      if p.many && q.name = p.name then
        return { progress with pending := some (p, values ++ [argument]) }
    | none => pure ()
    if !p.many && (progress.given.has p.name || progress.pending.any fun (q, _) => q.name = p.name)
    then throw (.mistake (.unexpected argument []))
    let progress ← progress.settle
    pure { progress with pending := some (p, [argument]) }

def readArgument (c : Command) (progress : Progress) (argument : String) : Except Stop Progress :=
  if progress.operandsOnly then readOperand c progress argument
  else match argument.toList with
    | ['-', '-'] => pure { progress with operandsOnly := true }
    | '-' :: '-' :: text => readLong c progress text
    | '-' :: name :: rest => readShorts c progress (name :: rest)
    | _ =>
      match progress.waiting, progress.pending with
      | true, some (p, values) =>
        pure { progress with pending := some (p, values ++ [argument]), waiting := false }
      | _, _ => readOperand c progress argument

/-! ### What fits together -/

/-- The parameters among those given that cannot be given together with `p`. -/
def rivals (given : Given) (p : Parameter) : List Parameter :=
  (given.map Prod.fst).filter fun q =>
    q.name ≠ p.name && (p.excludes.contains q.name || q.excludes.contains p.name)

/-- Checks that what is given fits together and that nothing is missing. -/
def checkGiven (c : Command) (given : Given) : Except Stop Unit := do
  let clashes := given.filterMap fun (p, _) =>
    match rivals given p with
    | [] => none
    | others => some (Mistake.conflict p others)
  if let some mistake := clashes.head? then throw (.mistake mistake)
  if let some p := c.parameters.find? fun p => p.required && !given.has p.name then
    throw (.mistake (.missingOperand p))

def readArguments (c : Command) (arguments : List String) : Except Stop Given := do
  let progress ← arguments.foldlM (readArgument c) .start
  let progress ← progress.settle
  checkGiven c progress.given
  pure progress.given

/-! ### Arguments of the program -/

/-- What a call of the program asks for. -/
inductive Call
  /-- To run a command. -/
  | run (command : Command) (given : Given)
  /-- To show a help text. -/
  | help (text : String)
  /-- To be told how to call the program, since nothing was asked for. -/
  | nothing
  /-- Something impossible, in the call of a command. -/
  | mistake (command : Command) (mistake : Mistake)

/-- A call of a command. -/
def callCommand (c : Command) (arguments : List String) : Call :=
  match readArguments c arguments with
  | .ok given => .run c given
  | .error .help => .help c.helpText
  | .error (.mistake mistake) => .mistake c mistake

/-- A call for the help text of the commands that are named. -/
def callHelp : List String → Call
  | [] => .help programHelpText
  | name :: rest =>
    match command? name with
    | none => .mistake program (.unknownCommand name [])
    | some c =>
      match rest with
      | [] => .help c.helpText
      | next :: _ => .mistake c (.unknownCommand next [])

/-- A long option where a command was expected. If a command that is named further on has an option
like it, that is what was meant. -/
def unknownProgramLong (name : String) (rest : List String) : Mistake :=
  match unknownLong program name with
  | .mistyped argument meant => .mistyped argument meant
  | other =>
    let elsewhere := (commands.filterMap fun c => do
      let best ← mostSimilar? name c.optionNames
      let position ← rest.findIdx? (· = c.name)
      pure (position, inQuotes (c.name ++ " --" ++ best) ++ " exists")).mergeSort
        fun p q => p.1 ≤ q.1
    match elsewhere.head? with
    | some (_, tip) => .unexpected ("--" ++ name) [tip]
    | none => other

def callOf : List String → Call
  | [] => .nothing
  | argument :: rest =>
    match argument.toList with
    | ['-', '-'] =>
      match rest with
      | [] => .nothing
      | name :: _ =>
        if (command? name).isSome then
          .mistake program (.unexpected name
            ["subcommand " ++ inQuotes name
              ++ " exists; to use it, remove the '--' before it"])
        else .mistake program (.unknownCommand name (similarWords name (commands.map Command.name)))
    | '-' :: '-' :: text =>
      let (name, value) := cutAtEquals text
      if name = helpSwitch.name then
        match value with
        | none => .help programHelpText
        | some value => .mistake program (.unneededValue value helpSwitch)
      else .mistake program (unknownProgramLong name rest)
    | '-' :: name :: _ =>
      if helpSwitch.short = some name then .help programHelpText
      else .mistake program (unknownOption program ("-" ++ name.toString))
    | _ =>
      match command? argument with
      | some c => if c = help then callHelp rest else callCommand c rest
      | none =>
        .mistake program
          (.unknownCommand argument (similarWords argument (commands.map Command.name)))

end LocaleText.CommandLine
