import LocaleText.Excerpt.Canvas
import LocaleText.Excerpt.Mark

/-!
# Windows

Lines that are too wide for the screen are shown through a window. It leaves out wide indentation,
and it is placed so that the marks and their labels are seen if they fit.

* `Window` is a range of columns
* `Window.around` places it
* `Window.cut` is the part of a line that is seen through it
-/

namespace LocaleText

def screenWidth : Nat := 140

/-- A range of columns that is shown of wide lines. -/
structure Window where
  left : Nat
  right : Nat
  /-- The number of columns there is room for. -/
  room : Nat
  deriving DecidableEq, Repr, Inhabited

/-- What a window has to take into account. -/
structure Extent where
  /-- The columns by which all lines are indented, as far as no mark reaches into them. -/
  indent : Nat
  /-- The first column of a mark. -/
  first : Nat
  /-- The column behind the last mark. -/
  last : Nat
  /-- The column behind the last label. -/
  labelled : Nat
  /-- The number of columns of the longest line. -/
  longest : Nat
  deriving DecidableEq, Repr, Inhabited

namespace Extent

/-- The indentation of a line; a tab counts as four columns, and any other blank as one. -/
def indentOf (text : List Char) : Nat :=
  (text.takeWhile isBlank).foldl (fun width c => width + if c = '\t' then 4 else 1) 0

def least (numbers : List Nat) : Nat := numbers.min?.getD 0

def greatest (numbers : List Nat) : Nat := numbers.foldl max 0

/-- The column behind the label of a mark, one column away from the mark. -/
def labelStop (m : Mark) : Nat :=
  m.stop.column + m.label.elim 0 fun label => displayWidth label.toList + 1

def of (lines : List MarkedLine) : Extent :=
  let texts := lines.map fun l => l.line.text
  let marks := (lines.flatMap MarkedLine.marks).filter fun m => m.role ≠ .passing
  let columns := marks.flatMap fun m => [m.start.column, m.stop.column]
  let indent := least ((texts.filter fun text => text.any fun c => !isBlank c).map indentOf)
  ⟨min indent (least columns), least columns, greatest columns, greatest (marks.map labelStop),
    greatest (texts.map displayWidth)⟩

end Extent

namespace Window

/-- Columns that are kept free for the dots at either side. -/
def padding : Nat := 6

/-- Places a window with room for `room` columns. All is shown if it fits, but for wide indentation;
else the window begins behind the indentation, or is placed around the marks and their labels, or
around the marks alone. -/
def around (extent : Extent) (room : Nat) : Window :=
  let indent := extent.indent - padding
  let first := extent.first - padding
  let last := extent.last + padding
  let labelled := extent.labelled + padding
  let left := if 20 < indent then indent - 16 else 0
  let right := max extent.longest left
  if right - left ≤ room then ⟨left, right, room⟩
  else if labelled - indent ≤ room then ⟨indent, indent + room, room⟩
  else if labelled - first ≤ room then
    let left := first - (room - (labelled - first)) / 2
    ⟨left, left + room, room⟩
  else if last - first ≤ room then
    let left := first - (room - (last - first)) / 5 * 2
    ⟨left, left + room, room⟩
  else ⟨first, last, room⟩

/-- The column at which a line of some width is cut off. -/
def rightOf (window : Window) (width : Nat) : Nat :=
  if width - window.left ≤ window.room then width else min width window.right

/-- Leaves out characters until `left` columns are skipped, and counts the columns. -/
def skipColumns (left skipped : Nat) : List Char → Nat × List Char
  | [] => (skipped, [])
  | c :: cs => if skipped < left then skipColumns left (skipped + charWidth c) cs
    else (skipped, c :: cs)

/-- The characters that fit into `room` columns, of which some are taken. -/
def takeColumns (room taken : Nat) : List Char → List Char
  | [] => []
  | c :: cs => if taken + charWidth c ≤ room then c :: takeColumns room (taken + charWidth c) cs
    else []

/-- How many characters it takes to fill `room` columns, and how many columns they fill. -/
def fillColumns (room count filled : Nat) : List Char → Nat × Nat
  | [] => (count, filled)
  | c :: cs =>
    if room ≤ filled + charWidth c then (count + 1, filled + charWidth c)
    else fillColumns room (count + 1) (filled + charWidth c) cs

/-- A line as it is seen through a window. -/
structure Cut where
  /-- The columns of the line that are left out before the text. -/
  skipped : Nat
  /-- Whether dots stand before the text. -/
  dotted : Bool
  /-- How far behind the dots the text begins. -/
  offset : Nat
  text : List Char
  /-- Where dots stand at the end, if they do. -/
  dots? : Option Nat
  deriving Inhabited

/-- What is seen of a line. Dots replace the characters next to a place where the line is cut. -/
def cut (window : Window) (text : List Char) : Cut :=
  let width := displayWidth text
  let left := min window.left width
  let right := window.rightOf width
  let (skipped, rest) := skipColumns left 0 text
  let shown := takeColumns (right - left) 0 rest
  let dotted := 0 < window.left
  let (count, filled) := if dotted then fillColumns ellipsis.length 0 0 shown else (0, 0)
  let seen := shown.drop count
  let skipped := max left skipped
  let (tail, _) := fillColumns ellipsis.length 0 0 shown.reverse
  let dots? := if right < width then some (filled + seen.length - tail) else none
  ⟨skipped, dotted, filled, seen, dots?⟩

end Window

end LocaleText
