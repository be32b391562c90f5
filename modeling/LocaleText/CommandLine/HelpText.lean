import LocaleText.CommandLine.Parameter

/-!
# Help texts

The help text of a command says what it does, how to call it, and what may be given to it.

* `Command.helpText` is the help text of a command
* `programHelpText` is that of the program, which lists the commands
-/

namespace LocaleText.CommandLine

/-- Two columns of text, the second of them aligned two spaces behind the widest first one. -/
def alignedRows (rows : List (String × String)) : String :=
  let width := (rows.map fun (left, _) => left.length).foldl max 0
  String.join <| rows.map fun (left, right) =>
    "  " ++ left ++ String.ofList (List.replicate (width - left.length + 2) ' ') ++ right ++ "\n"

/-- A part of a help text under a heading; nothing if it has no rows. -/
def helpSection (heading : String) (rows : List (String × String)) : String :=
  if rows.isEmpty then "" else "\n" ++ heading ++ ":\n" ++ alignedRows rows

/-- How a parameter is shown in its row. Room is left for a short name if others have one. -/
def Parameter.rowLabel (p : Parameter) (others : List Parameter) : String :=
  if p.operand then p.text
  else match p.short with
    | some c => "-" ++ c.toString ++ ", " ++ p.text
    | none => if others.any fun other => other.short.isSome then "    " ++ p.text else p.text

def parameterRows (parameters : List Parameter) : List (String × String) :=
  parameters.map fun p => (p.rowLabel parameters, p.help)

/-- How to call a command. -/
def Command.usageLine (c : Command) : String := "Usage: " ++ c.usage

/-- The help text of a command, with the commands under it if there are any. -/
def Command.helpTextWith (c : Command) (commands : List Command) : String :=
  c.about ++ "\n\n" ++ c.usageLine ++ "\n"
    ++ helpSection "Commands" (commands.map fun command => (command.name, command.about))
    ++ helpSection "Arguments" (parameterRows c.operand?.toList)
    ++ helpSection "Options" (parameterRows c.options)
    ++ c.examples.elim "" fun examples => "\n" ++ examples ++ "\n"

def Command.helpText (c : Command) : String := c.helpTextWith []

def programHelpText : String := program.helpTextWith commands

end LocaleText.CommandLine
