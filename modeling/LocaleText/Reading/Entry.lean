import LocaleText.Reading.Expr

/-!
# Reading entries and resources

A resource is read entry by entry, with the blanks between entries kept. The first fault ends the
reading, and no part of a tree comes with it.

* `Reader.entry` reads an entity or a macro: both begin with `<` and a name, and the character
  behind the name tells which it is
* `Reader.resource` reads entries and the blanks between them up to the end of the source
* `Resource.ofChars` reads a list of characters and tells the cause of a fault
* `Resource.read` reads a source and reports its first fault, in words and with its place

Only the whole of a source is read. There is no way to go on behind a fault, to read a part, or to
have the readers of the parts called from elsewhere.
-/

namespace LocaleText

namespace Reader

variable (bound : Nat) (nesting : Nesting)

def entryValue : Reader Value := value (expression bound) bound nesting

def attributeRound (entries : Attributes) : Reader (Round Attributes Attributes) := do
  let (key, item) ← keyed (entryValue bound nesting)
  let entries := entries.insert key.name item
  blanks
  match ← peek? with
  | some '>' => pure (.done entries)
  | some ',' =>
    skip
    blanks
    pure (.again entries)
  | _ => unexpected .expectedAttributeSeparator

/-- Reads `key: value` pairs with commas between them, up to the `>` that ends the entry. -/
def attributes : Reader Attributes := repeatUpTo bound [] (attributeRound bound nesting)

/-- Reads the end of an entry: its attributes, if it has any, and `>`. -/
def entryEnd : Reader (Option Attributes) := do
  blanks
  let attrs ← if (← peek?) = some '>' then pure none else some <$> attributes bound nesting
  expect '>' .endOfInput
  pure attrs

def entity (start : Nat) (id : Ident) (index : Option (List Expr)) : Reader Entity := do
  let before ← gap
  let value ← entryValue bound nesting
  let behind ← gap
  let attrs ← entryEnd bound nesting
  pure ⟨id, index, before, value, behind, attrs, ← spanFrom start⟩

def parameterRound (params : Array Ident) : Reader (Round (Array Ident) (List Ident)) := do
  if ← eat ')' then
    pure (.done params.toList)
  else
    expect Scope.variable.sigil .malformedExpression
    let param ← ident
    blanks
    match ← peek? with
    | some ',' =>
      skip
      blanks
      pure (.again (params.push param))
    | some ')' => pure (.again (params.push param))
    | _ => unexpected .malformedExpression

/-- Reads the parameters of a macro, whose opener comes next. -/
def parameters : Reader (List Ident) := do
  skip
  blanks
  repeatUpTo bound #[] parameterRound

def macroDef (start : Nat) (id : Ident) : Reader Macro := do
  let params ← parameters bound
  blanks
  expect '\x7b' .malformedExpression
  let body ← enclosed (expression bound) nesting '\x7d'
  let attrs ← entryEnd bound nesting
  pure ⟨id, params, body, attrs, ← spanFrom start⟩

def entry : Reader Entry := do
  let start ← offset
  if ← looksAt ['/', '*'] then
    fail .unsupportedConstruct ⟨start, start + 2⟩ (some .comment) none
  else if ← eat '<' then
    let id ← ident
    match ← peek? with
    | some '(' => .macroDef <$> macroDef bound nesting start id
    | some '[' =>
      let index ← expressions (expression bound) bound nesting .index
      .entity <$> entity bound nesting start id (some index)
    | _ => .entity <$> entity bound nesting start id none
  else
    unexpected .unexpectedEntryStart

/-- Reads blanks and one more entry, or the end of the source. -/
def itemRound (body : Array Item) : Reader (Round (Array Item) (List Item)) := do
  let blank ← gap
  let body := if blank.text.isEmpty then body else body.push (.gap blank)
  if (← peek?).isNone then
    pure (.done body.toList)
  else
    return .again (body.push (.entry (← entry bound nesting)))

/-- Reads everything up to the end of the source. -/
def items : Reader (List Item) := repeatUpTo bound #[] (itemRound bound nesting)

/-- Reads a whole source. -/
def resource (limit : Option Nat) : Reader Resource := do
  let start ← offset
  let body ← items ((← left) + 1) (.outermost limit)
  pure ⟨body, ← spanFrom start⟩

end Reader

namespace Resource

/-- The nesting limit of readers who do not choose one. -/
def defaultLimit : Nat := 64

/-- The resource that a text is, or the first fault in it. -/
def ofChars (limit : Option Nat) (source : List Char) : Except Fault Resource :=
  match Reader.resource limit (.ofText source) with
  | .ok resource _ => .ok resource
  | .error fault _ => .error fault

/-- Reads a source. Values and expressions may be nested as deep as `limit` says, without end if it
is `none`. -/
def read (limit : Option Nat) (source : String) : Except SyntaxError Resource :=
  (ofChars limit source.toList).mapError (Fault.toError source)

end Resource

end LocaleText
