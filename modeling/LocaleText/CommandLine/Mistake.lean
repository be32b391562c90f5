import LocaleText.CommandLine.HelpText
import LocaleText.CommandLine.Similarity
import LocaleText.CommandLine.Visible

/-!
# Mistakes in arguments

What can be wrong with the arguments that the program is called with. The program then says so, with
advice where it has some, and does nothing.

* `Mistake` is a cause
* `Mistake.text` is the message of a mistake in the call of a command
-/

namespace LocaleText.CommandLine

/-- A reason why arguments cannot be followed. -/
inductive Mistake
  /-- An argument that no parameter takes; `tips` are pieces of advice. -/
  | unexpected (argument : String) (tips : List String)
  /-- A mistyped option, with the one that was meant. -/
  | mistyped (argument : String) (meant : Parameter)
  | unknownCommand (name : String) (similar : List String)
  /-- A value for a switch. -/
  | unneededValue (value : String) (parameter : Parameter)
  | repeated (parameter : Parameter)
  /-- Parameters that cannot be given together. -/
  | conflict (parameter : Parameter) (others : List Parameter)
  | missingValue (parameter : Parameter)
  /-- A word that is none of the choices. -/
  | notAChoice (word : String) (parameter : Parameter)
  /-- A value of the wrong form. -/
  | invalidValue (value : String) (parameter : Parameter) (reason : String)
  | missingOperand (parameter : Parameter)
  deriving DecidableEq, Repr

def inQuotes (text : String) : String := "'" ++ text ++ "'"

/-- What can be shown of an argument, between single quotes. -/
def quoteArgument (argument : String) : String := inQuotes (visibleText argument)

/-- Advice on how to give something that looks like an option as an operand. -/
def operandTip (argument : String) : String :=
  "to pass " ++ quoteArgument argument ++ " as a value, use "
    ++ inQuotes ("-- " ++ visibleText argument)

/-- Advice that names what was probably meant. -/
def similarTip (what : String) : List String → List String
  | [] => []
  | [word] => ["a similar " ++ what ++ " exists: " ++ inQuotes word]
  | words =>
    ["some similar " ++ what ++ "s exist: " ++ ", ".intercalate (words.map inQuotes)]

def choicesNote (p : Parameter) : String :=
  if p.choices.isEmpty then ""
  else "\n  [possible values: " ++ ", ".intercalate p.choices ++ "]"

namespace Mistake

def statement : Mistake → String
  | unexpected argument _ => "unexpected argument " ++ quoteArgument argument ++ " found"
  | mistyped argument _ => "unexpected argument " ++ quoteArgument argument ++ " found"
  | unknownCommand name _ => "unrecognized subcommand " ++ quoteArgument name
  | unneededValue value p =>
    "unexpected value " ++ quoteArgument value ++ " for " ++ inQuotes p.text
      ++ " found; no more were expected"
  | repeated p => "the argument " ++ inQuotes p.text ++ " cannot be used multiple times"
  | conflict p [other] =>
    "the argument " ++ inQuotes p.text ++ " cannot be used with " ++ inQuotes other.text
  | conflict p others =>
    "the argument " ++ inQuotes p.text ++ " cannot be used with:"
      ++ String.join (others.map fun other => "\n  " ++ other.text)
  | missingValue p =>
    "a value is required for " ++ inQuotes p.text ++ " but none was supplied" ++ choicesNote p
  | notAChoice word p =>
    "invalid value " ++ quoteArgument word ++ " for " ++ inQuotes p.text ++ choicesNote p
  | invalidValue value p reason =>
    "invalid value " ++ quoteArgument value ++ " for " ++ inQuotes p.text ++ ": " ++ reason
  | missingOperand p => "the following required arguments were not provided:\n  " ++ p.text

/-- Advice on how to mend the mistake. -/
def tips : Mistake → List String
  | unexpected _ tips => tips
  | mistyped _ meant => similarTip "argument" ["--" ++ meant.name]
  | unknownCommand _ similar => similarTip "subcommand" similar
  | notAChoice word p => similarTip "value" (mostSimilar? word p.choices).toList
  | _ => []

def showsUsage : Mistake → Bool
  | missingValue _ => false
  | notAChoice _ _ => false
  | invalidValue _ _ _ => false
  | _ => true

/-- Whether the message says how to get help, which it does if the command has a switch for it. -/
def showsHelp (c : Command) : Bool := c.options.any fun p => p.domain = .help

/-- How to call the program when one of its own switches is spelled out. -/
def switchUsage (p : Parameter) : String := "l20n --" ++ p.name ++ " <COMMAND>"

/-- How to call the command in which the mistake was made. -/
def usage (c : Command) (mistake : Mistake) : String :=
  match mistake with
  | mistyped _ p | unneededValue _ p => if c = program then switchUsage p else c.usage
  | _ => c.usage

def text (c : Command) (mistake : Mistake) : String :=
  "error: " ++ mistake.statement
    ++ (if mistake.tips.isEmpty then "" else "\n")
    ++ String.join (mistake.tips.map fun tip => "\n  tip: " ++ tip)
    ++ (if mistake.showsUsage then "\n\nUsage: " ++ mistake.usage c else "")
    ++ (if showsHelp c then "\n\nFor more information, try '--help'.\n" else "\n")

end Mistake

end LocaleText.CommandLine
