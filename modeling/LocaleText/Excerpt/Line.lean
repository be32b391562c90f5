import LocaleText.Text.Bytes
import LocaleText.Text.Width

/-!
# The lines of a source

An excerpt shows some lines of a source. A line feed ends a line, and a carriage return just before
it belongs to the line end.

* `SourceLine` is a line with its number and its bytes
* `sourceLines` are the lines of a source; even an empty source has one
* `Point` is where an offset is within its line, in characters and in columns of the screen
* `locate` finds the two ends of a span
-/

namespace LocaleText

/-! ### Lines -/

structure SourceLine where
  /-- Counted from 1. -/
  number : Nat
  /-- The characters before the line end. -/
  text : List Char
  /-- The offset of the first byte. -/
  start : Nat
  /-- The offset behind the line end. -/
  stop : Nat
  /-- The number of bytes of the line end. -/
  ending : Nat
  deriving Inhabited

/-- The texts between line feeds, each with whether a line feed ends it. -/
def splitLines : List Char → List (List Char × Bool)
  | [] => []
  | c :: cs =>
    if c = '\n' then ([], true) :: splitLines cs
    else match splitLines cs with
      | [] => [([c], false)]
      | (text, ended) :: rest => (c :: text, ended) :: rest

/-- A text without the carriage return of its line end, and the number of bytes of the line end. -/
def cutLineEnd (text : List Char) (ended : Bool) : List Char × Nat :=
  if !ended then (text, 0)
  else if text.getLast? = some '\r' then (text.dropLast, 2)
  else (text, 1)

/-- Numbers the lines from `number` on, the first of them starting at `start`. -/
def numberLines (number start : Nat) : List (List Char × Bool) → List SourceLine
  | [] => []
  | (raw, ended) :: rest =>
    let (text, ending) := cutLineEnd raw ended
    let stop := start + byteLength text + ending
    ⟨number, text, start, stop, ending⟩ :: numberLines (number + 1) stop rest

/-- The lines of a source. The one line of an empty source extends over the byte behind it. -/
def sourceLines (source : List Char) : List SourceLine :=
  if source.isEmpty then [⟨1, [], 0, 1, 0⟩] else numberLines 1 0 (splitLines source)

/-! ### Points -/

/-- Where an offset is: its line, the characters and columns before it there, and the offset. -/
structure Point where
  line : Nat
  char : Nat
  column : Nat
  byte : Nat
  deriving DecidableEq, Repr, Inhabited

/-- The order of points within a line. -/
def Point.le (p q : Point) : Bool :=
  p.line < q.line || p.line = q.line &&
    (p.char < q.char || p.char = q.char &&
      (p.column < q.column || p.column = q.column && p.byte ≤ q.byte))

/-- The line that an offset is in; the last one for an offset behind them all. -/
def lineAt (lines : List SourceLine) (offset : Nat) : SourceLine :=
  (lines.find? fun l => l.start ≤ offset && offset < l.stop).getD (lines.getLastD default)

/-- The point of an offset. An offset within the line end counts as the end of the text. -/
def pointAt (lines : List SourceLine) (offset : Nat) : Point :=
  let line := lineAt lines offset
  let before := takeBytes (offset - line.start) line.text
  ⟨line.number, before.length, displayWidth before, offset⟩

/-- The point where a span starts. Behind the text of its line it is one character further on. -/
def startPoint (lines : List SourceLine) (span : Span) : Point :=
  let line := lineAt lines span.start
  let point := pointAt lines span.start
  if byteLength line.text < span.start - line.start then { point with char := point.char + 1 }
  else point

/-- The ends of a span. A span that goes on into another line, and there reaches into the line end,
ends one character further on. -/
def locate (lines : List SourceLine) (span : Span) : Point × Point :=
  let first := startPoint lines span
  if span.start = span.stop then (first, first)
  else
    let line := lineAt lines span.stop
    let last := pointAt lines span.stop
    if first.line ≠ last.line && line.stop - line.ending < span.stop then
      (first, { last with char := last.char + 1, column := last.column + 1 })
    else (first, last)

end LocaleText
