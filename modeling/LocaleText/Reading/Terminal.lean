import LocaleText.Reading.Basic
import LocaleText.Text.Word

/-!
# Reading names, strings and integers

The parts of a resource that have no parts of their own.

* `Reader.ident` reads a name, with or without quotes
* `Reader.quoted` reads a string up to the quote that ends it
* `Reader.integer` reads a decimal integer below `integerBound`
-/

namespace LocaleText

/-- The two characters that open and close strings, and that may stand around a name. -/
def isQuote (c : Char) : Bool := c == '"' || c == '\''

/-- Cuts a text at the first `quote` with an even number of backslashes just before it. The flag
says whether the number of backslashes before the text is odd. -/
def splitAtQuote (quote : Char) : Bool → List Char → Option (List Char × List Char)
  | _, [] => none
  | odd, c :: cs =>
    if c = quote && !odd then some ([], cs)
    else (splitAtQuote quote (c == '\\' && !odd) cs).map fun (content, rest) => (c :: content, rest)

def digitValue (c : Char) : Nat := c.toNat - '0'.toNat

/-- The value of a run of decimal digits. -/
def decimalValue (digits : List Char) : Nat :=
  digits.foldl (fun value c => 10 * value + digitValue c) 0

def integerBound : Nat := UInt64.size

namespace Reader

/-- Reads a name. A quote may open it; the same quote behind the name then belongs to it. -/
def ident : Reader Ident := do
  let start ← offset
  let quote := (← peek?).filter isQuote
  if quote.isSome then skip
  let name ← takeWhile isWordChar
  if name.isEmpty then
    unexpected .malformedIdentifier
  else
    match quote with
    | none => pure ()
    | some q => discard (eat q)
    pure ⟨String.ofList name, ← spanFrom start⟩

/-- Reads a string that begins with the quote `quote`, which comes next. -/
def quoted (quote : Char) : Reader Value := do
  let start ← offset
  skip
  fun input =>
    match splitAtQuote quote false input.rest with
    | none =>
      .error ⟨.unterminatedString, ⟨start, input.finish⟩, some (.missingQuote quote), none⟩ input
    | some (content, rest) =>
      let left := input.after (content ++ [quote]) rest
      .ok (.string (String.ofList content) quote ⟨start, left.offset⟩) left

/-- Reads an integer, the first digit of which comes next. -/
def integer : Reader Expr := do
  let start ← offset
  let digits ← takeWhile Char.isDigit
  let span ← spanFrom start
  if decimalValue digits < integerBound then
    pure (.integer (decimalValue digits) span)
  else
    fail .malformedExpression span (some .integerRange) none

end Reader

end LocaleText
