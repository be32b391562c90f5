import LocaleText.Excerpt.Drawing
import LocaleText.Fault

/-!
# Reports of errors

A report shows an error to a person: the message, where it is, the lines of the source with the span
that is to blame and the related one, and a hint.

* `SyntaxError.callouts` are the spans to show
* `SyntaxError.location?` is the line and the column that the report names
* `SyntaxError.render` is the text of the report
* `SyntaxError.render?` is the report, for whoever has put the error together by hand
-/

namespace LocaleText

/-- A span with room for a caret: an empty one is widened by a byte unless it ends the source. -/
def Span.widen (s : Span) (limit : Nat) : Span :=
  if s.start = s.stop then ⟨s.start, min (s.start + 1) limit⟩ else s

/-- Whether a span starts and stops between characters of a text. What is behind the end counts as the
end. -/
def Span.isWhole (s : Span) (source : List Char) : Bool :=
  [s.start, s.stop].all fun offset =>
    byteLength (takeBytes offset source) = min offset (byteLength source)

namespace SyntaxError

def callouts (e : SyntaxError) (source : List Char) : List Callout :=
  let limit := byteLength source
  ⟨e.span.widen limit, e.message, true⟩ ::
    (e.related.map fun related => ⟨related.span.widen limit, related.message, false⟩).toList

/-- The line and the column where the report says that the error is: those of the leftmost primary
mark in the first line that has one. -/
def location? (lines : List MarkedLine) : Option Place := do
  let line ← lines.find? fun l => l.marks.any Mark.primary
  let mark ← (line.marks.filter Mark.primary).mergeSort (fun m m' => m.start.char ≤ m'.start.char)
    |>.head?
  pure ⟨line.line.number, mark.start.char + 1⟩

/-- The greatest line number that may have to be shown. A line that begins where the last callout
stops is not needed. -/
def lastLine (source : List Char) (callouts : List Callout) : Nat :=
  let stop := Extent.greatest (callouts.map fun a => a.span.stop)
  (sourceLines (takeBytes stop source)).length

/-- Writes the message; what follows a line feed in it is indented to its start. -/
def drawTitle (message : String) (canvas : Canvas) : Canvas :=
  let word := ['e', 'r', 'r', 'o', 'r']
  let separator := [':', ' ']
  let indent := List.replicate (word.length + separator.length) ' '
  let y := canvas.height
  let lines := (showText message.toList).splitOn '\n'
  let canvas := (canvas.append y word .alarm).append y separator .emphasis
  lines.zipIdx.foldl (fun canvas (line, i) =>
    let canvas := if i = 0 then canvas else canvas.append (y + i) indent .plain
    canvas.append (y + i) line .emphasis) canvas

/-- Writes where the error is, when the source has a path. -/
def drawLocation (frame : Frame) (path : Option String) (place : Option Place) (canvas : Canvas) :
    Canvas :=
  path.elim canvas fun path =>
    let y := canvas.height
    let text := path ++ place.elim "" fun place => ":" ++ place.text
    let canvas := canvas.push y ['-', '-', '>', ' '] .guide
    let canvas := canvas.append y text.toList .plain
    canvas.push y (List.replicate frame.digits ' ') .plain

/-- Draws all of a report but the hint. -/
def draw (e : SyntaxError) (source : List Char) (path : Option String) : Canvas :=
  let callouts := e.callouts source
  let lines := sourceLines source
  let marked := markLines lines callouts
  let digits := (Nat.toDigits 10 (lastLine source callouts)).length
  let depth := stretchDepth (stretchesOf lines callouts)
  let room := screenWidth - Frame.textColumn digits depth
  let frame : Frame := ⟨digits, depth, .around (.of marked) room⟩
  let canvas := drawTitle e.message .empty
  let canvas := drawLocation frame path (location? marked) canvas
  let canvas := canvas.bar frame canvas.height
  let canvas := drawLines frame lines [] marked canvas
  if e.kind.hint?.isSome then canvas.bar frame canvas.height else canvas

def drawHint (hint : String) : Canvas :=
  ((Canvas.empty.append 0 ['h', 'e', 'l', 'p'] .advice).append 0 [':', ' '] .plain).append 0
    hint.toList .plain

/-- The report of an error in a source, with the path of the source if it has one. -/
def render (e : SyntaxError) (source : String) (path : Option String) (coloured : Bool) : String :=
  let report := (e.draw source.toList path).text coloured
  e.kind.hint?.elim report fun hint => report ++ "\n" ++ (drawHint hint).text coloured

/-- The report of any error. There is none when a callout starts or stops inside of a character, where
the source cannot be cut. -/
def render? (e : SyntaxError) (source : String) (path : Option String) (coloured : Bool) :
    Option String :=
  if (e.callouts source.toList).all fun callout => callout.span.isWhole source.toList then
    some (e.render source path coloured)
  else none

end SyntaxError

end LocaleText
