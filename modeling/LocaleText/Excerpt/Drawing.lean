import LocaleText.Excerpt.Window

/-!
# Drawing an excerpt

The lines of an excerpt stand behind their numbers. Below a line are its marks: carets or dashes under
what is marked, and the labels, the rightmost one beside its mark if nothing is in its way and the
others further down at the end of vertical lines. The ends of a stretch are joined by a line to the
left of the text.

* `Frame` holds the measures that all lines of an excerpt share
* `placeMarks` decides how far below its mark each label stands
* `drawLine` draws a line with its marks, `drawLines` all lines
-/

namespace LocaleText

/-! ### Text -/

/-- What is shown for a character: a tab as four spaces, a control character as its picture, a
reordering control as a replacement character, a joiner not at all. -/
def showChar (c : Char) : List Char :=
  if c = '\n' then [c]
  else if c = '\t' then [' ', ' ', ' ', ' ']
  else if c.toNat < 0x20 then [Char.ofNat (0x2400 + c.toNat)]
  else if c.toNat = 0x7F then [Char.ofNat 0x2421]
  else if c.toNat = 0x200D then []
  else if isBidiControl c then [Char.ofNat 0xFFFD]
  else [c]

def showText (text : List Char) : List Char := text.flatMap showChar

/-! ### Frames -/

/-- The measures that all lines of an excerpt share. -/
structure Frame where
  /-- The width of the line numbers. -/
  digits : Nat
  /-- How many stretches are drawn beside each other at most. -/
  depth : Nat
  window : Window
  deriving Inhabited

namespace Frame

/-- The column of the bar behind the line numbers. -/
def bar (frame : Frame) : Nat := frame.digits + 1

/-- The column of the lines that join the ends of stretches. -/
def margin (frame : Frame) : Nat := frame.digits + 3

/-- The column of the text where `depth` stretches are drawn before it. -/
def textColumn (digits depth : Nat) : Nat :=
  if depth = 0 then digits + 3 else digits + 3 + depth + 1

def code (frame : Frame) : Nat := textColumn frame.digits frame.depth

end Frame

def Mark.ink (m : Mark) : Ink := if m.primary then .alarm else .guide

def Mark.stroke (m : Mark) : Char := if m.primary then '^' else '-'

namespace Canvas

variable (frame : Frame)

def bar (y : Nat) (canvas : Canvas) : Canvas := canvas.put y frame.bar '|' .guide

/-- Draws the line of a stretch in a row. -/
def stretchBar (y depth : Nat) (ink : Ink) (canvas : Canvas) : Canvas :=
  canvas.put y (frame.margin + depth - 1) '|' ink

/-- Draws the number and the text of a line, and says how many columns of the text are left out. -/
def codeLine (y number : Nat) (text : List Char) (canvas : Canvas) : Canvas × Nat :=
  let cut := frame.window.cut text
  let canvas := if cut.dotted then canvas.write y frame.code ellipsis .guide else canvas
  let canvas := canvas.write y (frame.code + cut.offset) cut.text .plain
  let canvas := cut.dots?.elim canvas fun x => canvas.write y (frame.code + x) ellipsis .guide
  let digits := Nat.toDigits 10 number
  let indent := List.replicate (frame.digits - digits.length) ' '
  let canvas := canvas.write y 0 (indent ++ digits) .guide
  (canvas.bar frame y, cut.skipped)

end Canvas

/-! ### Where labels stand -/

/-- Whether the label of a mark has to go down a row because of a mark further left. -/
def hangs (m : Mark) (rest : List Mark) : Bool :=
  m.hasLabel && rest.any fun next =>
    next.meets m 0 && !(next.start.column = m.start.column && next.start.char = m.start.char &&
      next.stop.column = m.stop.column && next.stop.char = m.stop.char && !next.hasLabel)

/-- Whether the next mark to the left has to go a row further down than a mark at `row`. -/
def crowds (m : Mark) (row : Nat) (next : Mark) : Bool :=
  let wide := next.label.elim 0 fun label => label.utf8ByteSize + 2
  (next.meets m wide && m.hasLabel && next.hasLabel)
    || (m.isJoined && next.hasLabel)
    || (m.hasLabel && next.isJoined)
    || (m.isJoined && next.isJoined)
    || (next.meets m wide
        && (next.stop.column < m.stop.column
          || next.stop.column = m.stop.column && next.stop.char ≤ m.stop.char)
        && next.hasLabel && row = 0)

/-- The rows of the labels of some marks, from right to left, and the last row that is reached. -/
def placeMarks (row : Nat) : List Mark → List (Nat × Mark) × Nat
  | [] => ([], 0)
  | m :: rest =>
    let row := if row = 0 && hangs m rest then 1 else row
    let next := if rest.any (crowds m row) then row + 1 else row
    let (placed, last) := placeMarks next rest
    ((row, m) :: placed, max next last)

def fromRight (marks : List Mark) : List Mark :=
  marks.mergeSort fun m m' => m'.start.column < m.start.column
    || m'.start.column = m.start.column && m'.start.char ≤ m.start.char

/-- The marks with the widest first, so that narrower ones are drawn over them. -/
def fromWidest (placed : List (Nat × Mark)) : List (Nat × Mark) :=
  placed.mergeSort fun (_, m) (_, m') =>
    m'.width < m.width || m'.width = m.width && (!m.primary || m'.primary)

/-! ### Marks -/

/-- The place of a line in a drawing: its row and the number of columns left out before its text. -/
structure Spot where
  row : Nat
  skipped : Nat

namespace Canvas

variable (frame : Frame) (spot : Spot)

/-- The column of the screen for a column of the line. -/
def columnOf (column : Nat) : Nat := frame.code + column - spot.skipped

/-- Draws the line from the margin to an end of a stretch. -/
def arm (canvas : Canvas) (placed : Nat × Mark) : Canvas :=
  let (row, m) := placed
  match m.role with
  | .opening depth | .closing depth =>
    canvas.line (spot.row + row + 1) (frame.margin + depth) (columnOf frame spot m.start.column) '_'
      m.ink
  | _ => canvas

/-- Draws the line from a mark down to its label, and what joins the ends of a stretch at the
margin; `last` is the last row below the line. -/
def stem (last : Nat) (canvas : Canvas) (placed : Nat × Mark) : Canvas :=
  let (row, m) := placed
  let y := spot.row + row + 1
  let canvas :=
    if 0 < row && (m.hasLabel || m.isJoined) then
      canvas.column (columnOf frame spot m.start.column) (spot.row + 1) (y + 1) '|' m.ink
    else canvas
  match m.role with
  | .opening depth =>
    let x := frame.margin + depth - 1
    (canvas.put y x ' ' m.ink).column x (y + 1) (spot.row + last + 2) '|' m.ink
  | .closing depth => canvas.column (frame.margin + depth - 1) spot.row (y + 1) '|' m.ink
  | _ => canvas

def label (canvas : Canvas) (placed : Nat × Mark) : Canvas :=
  let (row, m) := placed
  m.label.elim canvas fun label =>
    let column := if row = 0 then m.stop.column + (if m.stop.column = 0 then 2 else 1)
      else m.start.column
    let below := if row = 0 then 1 else row + 2
    canvas.write (spot.row + below) (frame.code + (column - spot.skipped)) label.toList m.ink

def underline (canvas : Canvas) (placed : Nat × Mark) : Canvas :=
  let (row, m) := placed
  let y := spot.row + 1
  let canvas := (numbersFrom m.start.column m.stop.column).foldl
    (fun canvas column => canvas.put y (columnOf frame spot column) m.stroke m.ink) canvas
  if m.isJoined || 0 < row && m.hasLabel then
    canvas.put y (columnOf frame spot m.start.column) m.stroke m.ink
  else canvas

/-- Leaves out the middle of a mark that is much wider than the screen, and of the text above it. -/
def shorten (canvas : Canvas) (placed : Nat × Mark) : Canvas :=
  let m := placed.2
  let room := frame.window.room
  let width := m.stop.column - m.start.column
  if m.role = .single && room * 2 < width && 10 < width then
    let kept := max (room / 3) 5
    let first := columnOf frame spot (m.start.column + kept)
    let last := columnOf frame spot (m.stop.column - kept)
    (canvas.elide spot.row first last).elide (spot.row + 1) first last
  else canvas

def marks (marks : List Mark) (canvas : Canvas) : Canvas :=
  let (placed, deepest) := placeMarks 0 (fromRight marks)
  let last := if deepest = 0 then 0 else deepest + 1
  let opening := placed.all fun (_, m) => m.role matches .opening _
  let highest := (placed.map Prod.fst).foldl max 0
  let placed := if opening then placed.map fun (row, m) => (highest - row, m) else placed
  let last := if opening then last - 1 else last
  let canvas := (numbersFrom 0 (last + 1)).foldl
    (fun canvas row => canvas.bar frame (spot.row + row + 1)) canvas
  let canvas := placed.foldl (arm frame spot) canvas
  let canvas := placed.foldl (stem frame spot last) canvas
  let canvas := placed.foldl (label frame spot) canvas
  let placed := fromWidest placed
  let canvas := placed.foldl (underline frame spot) canvas
  placed.foldl (shorten frame spot) canvas

end Canvas

/-! ### Lines -/

/-- The stretches that a line opens or closes, with the ink of their lines. -/
def turns (marks : List Mark) : List (Nat × Ink) :=
  marks.filterMap fun m =>
    match m.role with
    | .opening depth | .closing depth => some (depth, m.ink)
    | _ => none

/-- Whether the marks of a line open stretches at the beginning of its text and do nothing else.
They are drawn beside the line then. -/
def opensAtStart (text : List Char) (marks : List Mark) : Bool :=
  marks.all fun m =>
    match m.role with
    | .opening _ => (text.take m.start.column).all isBlank
    | .passing => true
    | _ => false

/-- Draws a line with its marks, and says which stretches it opens or closes. -/
def drawLine (frame : Frame) (l : MarkedLine) (canvas : Canvas) : Canvas × List (Nat × Ink) :=
  let text := showText l.line.text
  let y := canvas.height
  let (canvas, skipped) := canvas.codeLine frame y l.line.number text
  if opensAtStart text l.marks then
    let turned := turns l.marks
    (turned.foldl (fun canvas (depth, ink) =>
      canvas.put y (frame.margin + depth - 1) '/' ink) canvas, turned)
  else
    (canvas.marks frame ⟨y, skipped⟩ l.marks, turns l.marks)

/-- Draws the lines of the open stretches in the rows from `first` on. -/
def drawOpen (frame : Frame) (open? : List (Nat × Ink)) (first : Nat) (canvas : Canvas) : Canvas :=
  (numbersFrom first canvas.height).foldl (fun canvas y =>
    open?.foldl (fun canvas (depth, ink) => canvas.stretchBar frame y depth ink) canvas) canvas

/-- Draws what stands between two lines: nothing if the second follows the first, the line if only
one is in between, or else dots. -/
def drawBetween (frame : Frame) (lines : List SourceLine) (l next : MarkedLine)
    (open? : List (Nat × Ink)) (canvas : Canvas) : Canvas :=
  let y := canvas.height
  let distance := next.line.number - l.line.number
  if distance < 2 then canvas
  else
    let canvas :=
      if distance = 2 then
        let number := l.line.number + 1
        let text := ((lines.find? fun line => line.number = number).map SourceLine.text).getD []
        (canvas.codeLine frame y number (showText text)).1
      else canvas.write y 0 ellipsis .guide
    let opened := l.marks.filterMap fun m =>
      match m.role with
      | .opening depth => some (depth, m.ink)
      | _ => none
    (open? ++ opened).foldl (fun canvas (depth, ink) => canvas.stretchBar frame y depth ink) canvas

/-- Draws some lines; `open?` are the stretches that lines before them have opened. -/
def drawLines (frame : Frame) (lines : List SourceLine) :
    List (Nat × Ink) → List MarkedLine → Canvas → Canvas
  | _, [], canvas => canvas
  | open?, l :: rest, canvas =>
    let y := canvas.height
    let (canvas, turned) := drawLine frame l canvas
    let depths := open?.map Prod.fst
    let opened := turned.filter fun (depth, _) => !depths.contains depth
    let open? := open?.filter fun (depth, _) => !(turned.map Prod.fst).contains depth
    let canvas := drawOpen frame open? y canvas
    let canvas := match rest with
      | [] => canvas
      | next :: _ => drawBetween frame lines l next open? canvas
    drawLines frame lines (open? ++ opened) rest canvas

end LocaleText
