import LocaleText.Reading.Terminal

/-!
# Reading values and expressions

Expressions nest through arrays, objects, brackets and parentheses. Each reader of this module is
given the reader of the expressions one level further in, and `Reader.expression` ties the knot: its
bound falls by one with every expression that surrounds the current one, and it never runs out when
it exceeds the number of characters left, since each surrounding expression has taken a character.

* `Reader.value` reads a string, an array or an object
* `Reader.operations` reads operands joined by the operators of some levels
* `Reader.expression` reads an expression, `test ? consequent : alternate` the loosest
-/

namespace LocaleText

namespace Reader

variable {α : Type} (inner : Nesting → Reader Expr) (bound : Nat) (nesting : Nesting)

/-! ### Composites -/

/-- Takes a comma and the blanks behind it, if one comes next. -/
def optionalComma : Reader Unit := do
  if ← eat ',' then blanks

/-- Reads `key : value`. -/
def keyed (value : Reader α) : Reader (Ident × α) := do
  let key ← ident
  blanks
  if ← eat ':' then
    blanks
    pure (key, ← value)
  else
    unexpected .expectedKeyValueSeparator

/-- Reads one more expression of an array or an index, or its closer. -/
def expressionRound (composite : Composite) (opener : Span) (items : Array Expr) :
    Reader (Round (Array Expr) (List Expr)) := do
  match ← peek? with
  | none => unterminated composite opener
  | some c =>
    if c = composite.closer then
      skip
      pure (.done items.toList)
    else
      let item ← within composite opener (inner nesting)
      blanks
      optionalComma
      pure (.again (items.push item))

/-- Reads the expressions of an array or an index, whose opener comes next. Commas between them may
be left out. -/
def expressions (composite : Composite) : Reader (List Expr) := do
  let opener ← here
  skip
  blanks
  repeatUpTo bound #[] (expressionRound inner nesting composite opener)

/-- The members of an object read so far, and the key and the span of the marked one. -/
abbrev Members := Keyed Expr × Option (String × Span)

/-- Reads one more member of an object, or its closer. A member replaces an earlier one of the same
key. -/
def memberRound (opener : Span) : Members → Reader (Round Members (Keyed Expr × Option String))
  | (entries, default) => do
    match ← peek? with
    | none => unterminated .object opener
    | some c =>
      if c = Composite.object.closer then
        skip
        pure (.done (entries, default.map Prod.fst))
      else
        let marker ← here
        let marked ← eat '*'
        let (key, item) ← within .object opener (keyed (inner nesting))
        match marked, default with
        | true, some (_, first) => fail .duplicateDefault marker none (some (.firstDefault, first))
        | _, _ =>
          let default := if marked then some (key.name, marker) else default
          blanks
          optionalComma
          pure (.again (entries.insert key.name item, default))

/-- Reads the members of an object, whose opener comes next, and the key of the marked one. -/
def members : Reader (Keyed Expr × Option String) := do
  let opener ← here
  skip
  blanks
  repeatUpTo bound ([], none) (memberRound inner nesting opener)

def value : Reader Value :=
  nested nesting fun nesting => do
    let start ← offset
    match ← peek? with
    | some '[' =>
      let items ← expressions inner bound nesting .array
      pure (.array items (← spanFrom start))
    | some '\x7b' =>
      let (entries, default) ← members inner bound nesting
      pure (.object entries default (← spanFrom start))
    | some c => if isQuote c then quoted c else unexpected .unexpectedValueStart
    | none => unexpected .unexpectedValueStart

/-! ### Operands -/

def reference (scope : Scope) : Reader Expr := do
  let start ← offset
  skip
  let id ← ident
  pure (.reference scope id (← spanFrom start))

def enclosed (closer : Char) : Reader Expr := do
  blanks
  let e ← inner nesting
  blanks
  expect closer .malformedExpression
  pure e

/-- Reads one more argument of a call, and the closer if it comes next. -/
def argumentRound (args : Array Expr) : Reader (Round (Array Expr) (List Expr)) := do
  let arg ← inner nesting
  blanks
  if ← eat ')' then
    pure (.done (args.push arg).toList)
  else
    expect ',' .malformedExpression
    blanks
    pure (.again (args.push arg))

/-- Reads the arguments of a call, whose opener comes next. -/
def arguments : Reader (List Expr) := do
  skip
  blanks
  if ← eat ')' then pure []
  else repeatUpTo bound #[] (argumentRound inner nesting)

/-- Reads a name and what is attached to it: `id[.key]`, `id[index]` or `id(arguments)`. -/
def named : Reader Expr := do
  let start ← offset
  let id ← ident
  if ← looksAt ['[', '.'] then
    take 2
    let key ← enclosed inner nesting ']'
    pure (.select .attribute id key (← spanFrom start))
  else if ← looksAt ['['] then
    skip
    let key ← enclosed inner nesting ']'
    pure (.select .member id key (← spanFrom start))
  else if ← looksAt ['('] then
    let args ← arguments inner bound nesting
    pure (.call id args (← spanFrom start))
  else
    pure (.ident id)

def primary : Reader Expr := do
  let start ← offset
  match ← peek? with
  | none => unexpected .malformedExpression
  | some c =>
    if c = '(' then
      skip
      let e ← enclosed inner nesting ')'
      pure (.parenthesis e (← spanFrom start))
    else if c.isDigit then integer
    else if isQuote c || c = '[' || c = '\x7b' then
      return .value (← value inner bound nesting)
    else if isWordChar c then named inner bound nesting
    else if c = Scope.variable.sigil then reference .variable
    else if c = Scope.global.sigil then reference .global
    else if c = '~' then
      skip
      pure (.this (← spanFrom start))
    else unexpected .malformedExpression

/-- Reads an operand with the operators that stand before it, each of which is a level of its own.
The first bound limits their number. -/
def unary : Nat → Nesting → Reader Expr
  | 0, _ => unexpected .malformedExpression
  | signs + 1, nesting => do
    let start ← offset
    match (← peek?).bind UnaryOp.ofChar? with
    | none => primary inner bound nesting
    | some op =>
      skip
      blanks
      let arg ← nested nesting (unary signs)
      pure (.unary op arg ⟨start, arg.span.stop⟩)

/-! ### Operations -/

/-- The first of some operators that comes next. -/
def operator? : List BinaryOp → Reader (Option BinaryOp)
  | [] => pure none
  | op :: ops => do
    if ← looksAt op.token then pure (some op) else operator? ops

/-- Reads one more operator of a level with the operand behind it, if one comes next. -/
def operationRound (level : List BinaryOp) (operand : Reader Expr) (left : Expr) :
    Reader (Round Expr Expr) := do
  blanks
  match ← operator? level with
  | none => pure (.done left)
  | some op =>
    take op.token.length
    blanks
    let right ← operand
    pure (.again (.join op left right))

/-- Reads operands joined by the operators of some levels, the loosest level first. Operators of one
level group to the left. -/
def operations : List (List BinaryOp) → Reader Expr
  | [] => unary inner bound bound nesting
  | level :: tighter => do
    let first ← operations tighter
    repeatUpTo bound first (operationRound level (operations tighter))

/-- Reads an operation, and the two branches behind it if a question mark follows. -/
def conditional : Reader Expr := do
  let test ← operations inner bound nesting BinaryOp.levels
  blanks
  if ← eat '?' then
    blanks
    let consequent ← inner nesting
    blanks
    expect ':' .malformedExpression
    blanks
    let alternate ← inner nesting
    pure (.choice test consequent alternate)
  else
    pure test

/-- Reads an expression. The bound is to exceed the number of characters left. -/
def expression : Nat → Nesting → Reader Expr
  | 0, _ => unexpected .malformedExpression
  | bound + 1, nesting => nested nesting fun nesting =>
    conditional (expression bound) (bound + 1) nesting

end Reader

end LocaleText
