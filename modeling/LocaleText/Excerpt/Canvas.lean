/-!
# Canvases

A canvas is a page of character cells that grows as it is written on. Each cell has an ink, which a
terminal shows as a colour.

* `Canvas.put` and `Canvas.write` write at a row and a column
* `Canvas.append` writes behind what a row holds, `Canvas.push` before it
* `Canvas.elide` shortens a row
* `Canvas.text` is the page as text, with or without its colours
-/

namespace LocaleText

/-- What a piece of text is for, and so how it is coloured. -/
inductive Ink
  /-- Text without a colour. -/
  | plain
  /-- The message. -/
  | emphasis
  /-- The word for an error, and what it is about. -/
  | alarm
  /-- Line numbers, lines between parts, and what else is pointed at. -/
  | guide
  /-- The word for advice. -/
  | advice
  deriving DecidableEq, Repr, Inhabited

namespace Ink

def on : Ink → String
  | plain => ""
  | emphasis => "\x1b[1m"
  | alarm => "\x1b[1m\x1b[91m"
  | guide => "\x1b[1m\x1b[94m"
  | advice => "\x1b[1m\x1b[96m"

def off : Ink → String
  | plain => ""
  | _ => "\x1b[0m"

end Ink

structure Cell where
  char : Char
  ink : Ink
  deriving DecidableEq, Repr, Inhabited

def Cell.blank : Cell := ⟨' ', .plain⟩

/-- A page of cells, row by row. -/
structure Canvas where
  rows : Array (Array Cell)
  deriving Inhabited

def ellipsis : List Char := ['.', '.', '.']

namespace Canvas

def empty : Canvas := ⟨#[]⟩

def height (canvas : Canvas) : Nat := canvas.rows.size

def row (canvas : Canvas) (y : Nat) : Array Cell := canvas.rows.getD y #[]

/-- Replaces the cells of a row, adding empty rows before it where they are missing. -/
def setRow (canvas : Canvas) (y : Nat) (cells : Array Cell) : Canvas :=
  let missing := y + 1 - canvas.height
  ⟨(canvas.rows ++ Array.replicate missing #[]).setIfInBounds y cells⟩

/-- Writes a character into a cell. -/
def put (canvas : Canvas) (y x : Nat) (c : Char) (ink : Ink) : Canvas :=
  let cells := canvas.row y
  let missing := x + 1 - cells.size
  canvas.setRow y ((cells ++ Array.replicate missing Cell.blank).setIfInBounds x ⟨c, ink⟩)

/-- Writes a text from a cell on. -/
def write (canvas : Canvas) (y x : Nat) (text : List Char) (ink : Ink) : Canvas :=
  match text with
  | [] => canvas
  | c :: cs => (canvas.put y x c ink).write y (x + 1) cs ink

/-- Writes a text behind what a row holds. -/
def append (canvas : Canvas) (y : Nat) (text : List Char) (ink : Ink) : Canvas :=
  canvas.write y (canvas.row y).size text ink

/-- Writes a text before what a row holds. -/
def push (canvas : Canvas) (y : Nat) (text : List Char) (ink : Ink) : Canvas :=
  canvas.setRow y ((text.map fun c => ⟨c, ink⟩).toArray ++ canvas.row y)

/-- Writes the same character into the cells from `first` up to, not including, `last`. -/
def line (canvas : Canvas) (y first last : Nat) (c : Char) (ink : Ink) : Canvas :=
  canvas.write y first (List.replicate (last - first) c) ink

/-- Writes the same character into a column from row `first` up to, not including, `last`. -/
def column (canvas : Canvas) (x first last : Nat) (c : Char) (ink : Ink) : Canvas :=
  (List.range' first (last - first)).foldl (fun canvas y => canvas.put y x c ink) canvas

/-- Replaces the cells of a row from `first` up to, not including, `last` by dots; a range beyond the
row is left alone. -/
def elide (canvas : Canvas) (y first last : Nat) : Canvas :=
  let cells := canvas.row y
  if first = last || cells.size < first || cells.size < last then canvas
  else
    let dots := (ellipsis.map fun c => (⟨c, .guide⟩ : Cell)).toArray
    canvas.setRow y (cells.extract 0 first ++ dots ++ cells.extract last cells.size)

/-- A row in colours; `current` is the ink in use before it. -/
def colouredRow (current : Ink) : List Cell → String
  | [] => current.off
  | cell :: cells =>
    (if cell.ink = current then "" else current.off ++ cell.ink.on)
      ++ cell.char.toString ++ colouredRow cell.ink cells

def rowText (coloured : Bool) (cells : List Cell) : String :=
  if coloured then colouredRow .plain cells else String.ofList (cells.map Cell.char)

/-- The page as text, with line feeds between the rows. -/
def text (canvas : Canvas) (coloured : Bool) : String :=
  "\n".intercalate (canvas.rows.toList.map fun cells => rowText coloured cells.toList)

end Canvas

end LocaleText
