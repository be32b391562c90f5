/-!
# Arguments in messages

A message repeats arguments as they were given. What would steer a terminal is left out of them:
control characters other than blanks, and the sequences that an escape character begins.

* `TerminalMode` is what a terminal takes the next character for
* `visibleText` is the part of a text that is left
-/

namespace LocaleText.CommandLine

/-- What a terminal takes the next character for. -/
inductive TerminalMode
  /-- Text to be shown. -/
  | text
  /-- What follows an escape character. -/
  | escape
  | escapeMore
  /-- A control sequence, which a letter or a sign ends. -/
  | control
  /-- The head of a string for a device: nothing of it, parameters, or what follows them. -/
  | device
  | deviceParameters
  | deviceMore
  /-- A string that only a string terminator ends. -/
  | string
  /-- A command for the system, which a bell ends. -/
  | command
  deriving DecidableEq, Repr, Inhabited

/-- Whether a number is from `first` up to and including `last`. -/
def isWithin (n first last : Nat) : Bool := first ≤ n && n ≤ last

namespace TerminalMode

/-- Whether a character contains the byte that terminates strings. -/
def endsString (c : Char) : Bool := (String.utf8EncodeChar c).contains 0x9C

/-- The mode behind a character that is not shown. An escape character starts anew in every mode, and
the two characters that cancel sequences do so in every mode. -/
def next (mode : TerminalMode) (c : Char) : TerminalMode :=
  let n := c.toNat
  if n = 0x1B then escape
  else if n = 0x18 || n = 0x1A then text
  else match mode with
    | text => text
    | escape =>
      if isWithin n 0x20 0x2F then escapeMore
      else if c = '[' then control
      else if c = ']' then command
      else if c = 'P' then device
      else if c = 'X' || c = '^' || c = '_' then string
      else if isWithin n 0x30 0x7E then text
      else escape
    | escapeMore => if isWithin n 0x30 0x7E then text else escapeMore
    | control => if isWithin n 0x40 0x7E then text else control
    | device =>
      if isWithin n 0x20 0x2F then deviceMore
      else if isWithin n 0x30 0x3F then deviceParameters
      else if isWithin n 0x40 0x7E then string
      else device
    | deviceParameters =>
      if isWithin n 0x20 0x2F then deviceMore
      else if isWithin n 0x3C 0x7E then string
      else deviceParameters
    | deviceMore => if isWithin n 0x30 0x7E then string else deviceMore
    | string => if endsString c then text else string
    | command => if n = 0x07 then text else command

def shows (mode : TerminalMode) (c : Char) : Bool :=
  let blank := c = '\t' || c = '\n' || c = '\r' || c.toNat = 0x0C
  match mode with
  | text => blank || 0x20 ≤ c.toNat && c.toNat ≠ 0x7F
  | escape | escapeMore | control => blank
  | _ => false

/-- The characters that are shown. Behind a character that is shown, and as long as there are others,
all is taken for text; after that the mode before them holds again. -/
def shown (mode : TerminalMode) (showing : Bool) : List Char → List Char
  | [] => []
  | c :: cs =>
    if (if showing then text else mode).shows c then
      c :: shown (if c.toNat < 0x80 then mode else text) true cs
    else shown (mode.next c) false cs

end TerminalMode

def visibleText (text : String) : String := String.ofList (TerminalMode.shown .text false text.toList)

end LocaleText.CommandLine
