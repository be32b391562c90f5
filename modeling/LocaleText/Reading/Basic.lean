import LocaleText.Fault
import LocaleText.Resource
import LocaleText.Text.Blank

/-!
# Readers

A reader takes characters from the front of what is left of a source. It yields a result or a fault,
and in both cases what is left then. Readers only move forward, and nothing is read twice.

* `Input` is what is left to read, with the number of bytes before it
* `Reader` is the type of readers
* `peek?`, `skip`, `eat`, `takeWhile` and `blanks` look at characters and take them
* `unexpected`, `expect` and `unterminated` raise faults at the next character
* `Nesting` and `nested` keep account of how deep values and expressions are nested
* `repeatUpTo` repeats a reader; the bound on its rounds is never reached when it exceeds the number
  of characters left, since every round takes at least one

The offset of an input is a natural number, like all offsets, and so are a nesting limit and the depth
that is held against it. Readers are total because of the bounds on rounds and on nesting, and reading
a source sets these so high that they decide nothing.
-/

namespace LocaleText

/-- What is left of a source. -/
structure Input where
  /-- The number of bytes already taken. -/
  offset : Nat
  rest : List Char
  deriving DecidableEq, Repr, Inhabited

namespace Input

def ofText (source : List Char) : Input := ⟨0, source⟩

def here (input : Input) : Span :=
  match input.rest with
  | [] => .empty input.offset
  | c :: _ => ⟨input.offset, input.offset + c.utf8Size⟩

/-- The byte offset of the end of the source. -/
def finish (input : Input) : Nat := input.offset + byteLength input.rest

/-- What is left after `taken` when `rest` follows it. -/
def after (input : Input) (taken rest : List Char) : Input :=
  ⟨input.offset + byteLength taken, rest⟩

end Input

abbrev Reader := EStateM Fault Input

namespace Reader

variable {α : Type}

/-! ### Looking and taking -/

def peek? : Reader (Option Char) := fun input => .ok input.rest.head? input

def offset : Reader Nat := fun input => .ok input.offset input

def left : Reader Nat := fun input => .ok input.rest.length input

/-- The span of the next character, empty at the end. -/
def here : Reader Span := fun input => .ok input.here input

/-- The span from `start` up to what is left. -/
def spanFrom (start : Nat) : Reader Span := fun input => .ok ⟨start, input.offset⟩ input

/-- Whether what is left begins with `token`. -/
def looksAt (token : List Char) : Reader Bool := fun input => .ok (token.isPrefixOf input.rest) input

/-- Takes `n` characters, or all when fewer are left. -/
def take (n : Nat) : Reader Unit := fun input =>
  .ok () (input.after (input.rest.take n) (input.rest.drop n))

def skip : Reader Unit := take 1

/-- Takes the next character if it is `c`, and says whether it was. -/
def eat (c : Char) : Reader Bool := do
  if (← peek?) = some c then
    skip
    pure true
  else
    pure false

/-- Takes the longest run of characters of a class. -/
def takeWhile (p : Char → Bool) : Reader (List Char) := fun input =>
  let taken := input.rest.takeWhile p
  .ok taken (input.after taken (input.rest.dropWhile p))

/-- Takes the blanks that come next, and keeps them. -/
def gap : Reader Gap := do
  let start ← offset
  let text ← takeWhile isBlank
  pure ⟨String.ofList text, ← spanFrom start⟩

/-- Takes the blanks that come next. -/
def blanks : Reader Unit := do
  let _ ← takeWhile isBlank
  pure ()

/-! ### Faults -/

def fail (kind : FaultKind) (span : Span) (detail : Option Detail)
    (note : Option (Note × Span)) : Reader α :=
  fun input => .error ⟨kind, span, detail, note⟩ input

/-- Stops at the next character with a fault of the given kind, at the end of the source with
`endOfInput`. -/
def unexpected (kind : FaultKind) : Reader α := fun input =>
  match input.rest with
  | [] => .error ⟨.endOfInput, input.here, none, none⟩ input
  | c :: _ => .error ⟨kind, input.here, some (.found c), none⟩ input

/-- Takes the character `c` or stops with a fault of the given kind, at the end of the source with
`endOfInput`. -/
def expect (c : Char) (kind : FaultKind) : Reader Unit := do
  if ← eat c then
    pure ()
  else
    match ← peek? with
    | none => fail .endOfInput (← here) (some (.expected c)) none
    | some d => fail kind (← here) (some (.expectedFound c d)) none

/-- Stops because a composite that was opened at `opener` is not closed. -/
def unterminated (composite : Composite) (opener : Span) : Reader α := do
  fail .unterminatedComposite (← here) (some (.expected composite.closer))
    (some (.opened composite, opener))

/-- Reads a part of a composite. When the source ends within the part, the composite is to blame,
unless a composite inside it is. -/
def within (composite : Composite) (opener : Span) (part : Reader α) : Reader α := fun input =>
  match part input with
  | .ok result left => .ok result left
  | .error fault left =>
    if fault.kind = .endOfInput then unterminated composite opener left else .error fault left

end Reader

/-! ### Nesting -/

/-- How many values and expressions surround the current one, and how many may. -/
structure Nesting where
  limit : Option Nat
  depth : Nat
  deriving DecidableEq, Repr, Inhabited

namespace Nesting

def outermost (limit : Option Nat) : Nesting := ⟨limit, 0⟩

def deeper (nesting : Nesting) : Nesting := ⟨nesting.limit, nesting.depth + 1⟩

/-- The limit, if no further level is allowed. -/
def exhausted? (nesting : Nesting) : Option Nat :=
  nesting.limit.filter fun limit => limit ≤ nesting.depth

end Nesting

namespace Reader

variable {α σ : Type}

/-- Reads something one level further in, or stops when the limit is reached. -/
def nested (nesting : Nesting) (inner : Nesting → Reader α) : Reader α :=
  match nesting.exhausted? with
  | some limit => do fail .recursionLimitExceeded (← here) (some (.levels limit)) none
  | none => inner nesting.deeper

/-! ### Repetition -/

/-- What a round of a repetition comes to: another round, or a result. -/
inductive Round (σ α : Type)
  | again (state : σ)
  | done (result : α)

/-- Repeats a round, from a first state, until it yields a result. -/
def repeatUpTo : Nat → σ → (σ → Reader (Round σ α)) → Reader α
  | 0, _, _ => unexpected .malformedExpression
  | bound + 1, state, round => do
    match ← round state with
    | .again next => repeatUpTo bound next round
    | .done result => pure result

end Reader

end LocaleText
