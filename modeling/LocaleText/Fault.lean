import LocaleText.Text.Place

/-!
# Faults

Reading a resource stops at the first fault. A fault is a cause; its wording is decided here alone.

* `FaultKind` is the kind of a fault, with its message and its hint
* `Detail` says what was found or expected, `Note` why a second span is shown
* `Fault` puts them together with the span that is to blame
* `SyntaxError` is a fault in words, with its place in the source
-/

namespace LocaleText

/-! ### Kinds -/

/-- The ways in which reading can fail. -/
inductive FaultKind
  | unexpectedEntryStart
  | unsupportedConstruct
  | malformedIdentifier
  | unterminatedString
  | unexpectedValueStart
  | unterminatedComposite
  | expectedKeyValueSeparator
  | expectedAttributeSeparator
  | duplicateDefault
  | malformedExpression
  | endOfInput
  | recursionLimitExceeded
  deriving DecidableEq, Repr, Inhabited

namespace FaultKind

def all : List FaultKind :=
  [unexpectedEntryStart, unsupportedConstruct, malformedIdentifier, unterminatedString,
   unexpectedValueStart, unterminatedComposite, expectedKeyValueSeparator,
   expectedAttributeSeparator, duplicateDefault, malformedExpression, endOfInput,
   recursionLimitExceeded]

/-- The name under which machines know the kind. -/
def name : FaultKind → String
  | unexpectedEntryStart => "UnexpectedEntryStart"
  | unsupportedConstruct => "UnsupportedConstruct"
  | malformedIdentifier => "MalformedIdentifier"
  | unterminatedString => "UnterminatedString"
  | unexpectedValueStart => "UnexpectedValueStart"
  | unterminatedComposite => "UnterminatedComposite"
  | expectedKeyValueSeparator => "ExpectedKeyValueSeparator"
  | expectedAttributeSeparator => "ExpectedAttributeSeparator"
  | duplicateDefault => "DuplicateDefault"
  | malformedExpression => "MalformedExpression"
  | endOfInput => "EndOfInput"
  | recursionLimitExceeded => "RecursionLimitExceeded"

/-- The kind with a given name. -/
def ofName? (text : String) : Option FaultKind := all.find? fun kind => kind.name = text

/-- The message of the kind, before any detail. -/
def summary : FaultKind → String
  | unexpectedEntryStart => "expected an entry starting with `<`"
  | unsupportedConstruct => "unsupported construct"
  | malformedIdentifier => "expected an identifier"
  | unterminatedString => "unterminated string"
  | unexpectedValueStart => "expected a value"
  | unterminatedComposite => "unterminated composite"
  | expectedKeyValueSeparator => "expected `:` after key"
  | expectedAttributeSeparator => "expected `,` between attributes"
  | duplicateDefault => "object has more than one default member"
  | malformedExpression => "malformed expression"
  | endOfInput => "unexpected end of input"
  | recursionLimitExceeded => "nesting too deep"

/-- Advice on how to mend a fault of the kind. -/
def hint? : FaultKind → Option String
  | unexpectedValueStart => some "values are quoted strings, `[...]` or `\x7b...\x7d`"
  | expectedAttributeSeparator => some "e.g., `<id \"v\" a: \"x\", b: \"y\">`"
  | unsupportedConstruct => some "comments are not supported yet"
  | malformedIdentifier => some "identifiers use letters, digits and `_`"
  | duplicateDefault => some "mark a single key with `*`"
  | _ => none

/-- The message of the kind with a detail. -/
def message (kind : FaultKind) : Option String → String
  | none => kind.summary
  | some detail => kind.summary ++ ": " ++ detail

end FaultKind

/-! ### Details and notes -/

/-- The constructs that hold any number of parts between an opener and a closer. -/
inductive Composite
  | array
  | index
  | object
  deriving DecidableEq, Repr, Inhabited

namespace Composite

def noun : Composite → String
  | array => "array"
  | index => "index"
  | object => "object"

def opener : Composite → Char
  | object => '\x7b'
  | _ => '['

def closer : Composite → Char
  | object => '\x7d'
  | _ => ']'

end Composite

/-- What is known of a fault beyond its kind. -/
inductive Detail
  | comment
  | found (c : Char)
  | expected (c : Char)
  | expectedFound (expected found : Char)
  | missingQuote (quote : Char)
  | integerRange
  | levels (limit : Nat)
  deriving DecidableEq, Repr, Inhabited

/-- A character between grave accents. -/
def quoteChar (c : Char) : String := String.ofList ['`', c, '`']

/-- A detail in words. -/
def Detail.text : Detail → String
  | .comment => "comment"
  | .found c => "found " ++ quoteChar c
  | .expected c => "expected " ++ quoteChar c
  | .expectedFound e f => "expected " ++ quoteChar e ++ ", found " ++ quoteChar f
  | .missingQuote q => "missing closing " ++ q.toString
  | .integerRange => "integer literal out of range"
  | .levels n => "more than " ++ toString n ++ " levels"

/-- Why a second span is shown. -/
inductive Note
  | opened (composite : Composite)
  | firstDefault
  deriving DecidableEq, Repr, Inhabited

/-- A note in words. -/
def Note.text : Note → String
  | .opened composite => composite.noun ++ " started here"
  | .firstDefault => "first default here"

/-! ### Faults and their report -/

/-- The first thing that is wrong with a source. -/
structure Fault where
  kind : FaultKind
  /-- What is to blame. -/
  span : Span
  detail : Option Detail
  /-- A second span, with the reason for showing it. -/
  note : Option (Note × Span)
  deriving DecidableEq, Repr, Inhabited

/-- A span with a message about it. -/
structure Related where
  span : Span
  message : String
  deriving DecidableEq, Repr, Inhabited

/-- A fault in words, with its place in the source. -/
structure SyntaxError where
  kind : FaultKind
  span : Span
  place : Place
  message : String
  related : Option Related
  deriving DecidableEq, Repr, Inhabited

namespace SyntaxError

/-- The error of a kind at a span of a source. Its place is that of the span's start. -/
def report (source : String) (kind : FaultKind) (span : Span) (detail : Option String)
    (related : Option Related) : SyntaxError :=
  ⟨kind, span, Place.of source.toList span.start, kind.message detail, related⟩

def text (e : SyntaxError) : String := e.message ++ " at " ++ e.place.text

end SyntaxError

/-- A fault of a source in words. -/
def Fault.toError (source : String) (fault : Fault) : SyntaxError :=
  .report source fault.kind fault.span (fault.detail.map Detail.text)
    (fault.note.map fun (note, span) => ⟨span, note.text⟩)

end LocaleText
