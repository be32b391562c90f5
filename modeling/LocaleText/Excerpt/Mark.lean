import LocaleText.Excerpt.Line
import LocaleText.Text.Blank

/-!
# Marks

What is drawn under and beside the lines of an excerpt. A span within one line is one mark there. A
span over several lines is a stretch: a mark where it opens, one where it closes, and marks for the
lines that are shown in between. Stretches that overlap are drawn beside each other.

* `Callout` is a span with a label
* `Mark` is what it comes to in one line
* `markLines` finds the lines to show and the marks in each of them
-/

namespace LocaleText

/-- A span with a label. The primary one is what the excerpt is about. -/
structure Callout where
  span : Span
  label : String
  primary : Bool
  deriving Inhabited

/-- What a mark is of: all of a span, or a line of a stretch, drawn at some depth. -/
inductive Role
  | single
  | opening (depth : Nat)
  | closing (depth : Nat)
  | passing
  deriving DecidableEq, Repr, Inhabited

structure Mark where
  start : Point
  stop : Point
  primary : Bool
  label : Option String
  role : Role
  deriving DecidableEq, Repr, Inhabited

namespace Mark

def hasLabel (m : Mark) : Bool := m.label.any fun label => !label.isEmpty

def isJoined (m : Mark) : Bool :=
  match m.role with
  | .opening _ => true
  | .closing _ => true
  | _ => false

def width (m : Mark) : Nat :=
  max (m.stop.column - m.start.column) (m.start.column - m.stop.column)

end Mark

/-- Whether two ranges have a number in common; with `closed`, the stops belong to the ranges. -/
def rangesMeet (start stop start' stop' : Nat) (closed : Bool) : Bool :=
  let extra := if closed then 1 else 0
  start' ≤ start && start < stop' + extra || start ≤ start' && start' < stop + extra

/-- Whether two marks overlap when the first is wider by `padding`. -/
def Mark.meets (m m' : Mark) (padding : Nat) : Bool :=
  rangesMeet m.start.column (m.stop.column + padding) m'.start.column m'.stop.column false

/-! ### Stretches -/

/-- A span over several lines. -/
structure Stretch where
  depth : Nat
  start : Point
  stop : Point
  primary : Bool
  label : String
  /-- Whether a later stretch covers the same span, so that only this one's end is drawn. -/
  covered : Bool
  deriving DecidableEq, Inhabited

namespace Stretch

/-- Whether two stretches cover the same span. -/
def same (s s' : Stretch) : Bool := s.start = s'.start && s.stop = s'.stop

/-- Moves the stretches before `s` that overlap it one depth further, and notes which of them cover
the same span. `primaries` are the primary stretches so far. -/
def push (s : Stretch) (primaries : List Stretch) : List Stretch → List Stretch
  | [] => []
  | other :: rest =>
    if !s.same other &&
        rangesMeet s.start.line s.stop.line other.start.line other.stop.line true then
      { other with depth := other.depth + 1 } :: push s primaries rest
    else if s.same other && s ≠ other then
      { other with covered := true } :: push s primaries rest
    else if primaries.any other.same then { other with primary := true } :: rest
    else other :: rest

/-- Gives every stretch its depth: of two that overlap the later one is drawn closer to the text. -/
def layer (stretches : List Stretch) : List Stretch :=
  let sorted := stretches.mergeSort fun s s' =>
    s.start.line < s'.start.line || s.start.line = s'.start.line && s'.stop.line ≤ s.stop.line
  let step := fun ((primaries, layered) : List Stretch × List Stretch) (s : Stretch) =>
    let primaries := if s.primary then s :: primaries else primaries
    (primaries, s.push primaries layered)
  let layered := (sorted.foldl step ([], sorted)).2
  let deepest := (layered.map depth).foldl max 0
  layered.map fun s => { s with depth := deepest - s.depth + 1 }

def opening (s : Stretch) : Mark :=
  ⟨s.start, ⟨s.start.line, s.start.char + 1, s.start.column + 1, s.start.byte + 1⟩, s.primary, none,
    .opening s.depth⟩

def closing (s : Stretch) : Mark :=
  ⟨⟨s.stop.line, s.stop.char - 1, s.stop.column - 1, s.stop.byte - 1⟩, s.stop, s.primary,
    some s.label, if s.covered then .single else .closing s.depth⟩

/-- The mark of a line in between. -/
def passing (s : Stretch) : Mark := ⟨default, default, s.primary, none, .passing⟩

end Stretch

def trimBlanks (text : List Char) : List Char :=
  ((text.dropWhile isBlank).reverse.dropWhile isBlank).reverse

/-- Whether a line has more to show than blanks, one bracket or a comment between slashes and the
line end. -/
def isTelling (text : List Char) : Bool :=
  let text := trimBlanks text
  let remark := ['/', '/'].isPrefixOf text &&
    !(['/', '/', '/'].isPrefixOf text || ['/', '/', '!'].isPrefixOf text)
  !remark && !([[], ['\x7b'], ['\x7d'], ['('], [')'], ['['], [']']].contains text)

/-- The numbers from `first` up to, not including, `last`. -/
def numbersFrom (first last : Nat) : List Nat := List.range' first (last - first)

/-- The marks of a stretch with the numbers of their lines. Of the lines in between, the first few
are shown, without those at their end that tell nothing, and the one before the last. -/
def Stretch.marks (lines : List SourceLine) (s : Stretch) : List (Nat × Mark) :=
  if s.covered then [(s.stop.line, s.closing)]
  else
    let textOf? := fun number => (lines.find? fun l => l.number = number).map SourceLine.text
    let middle := min (s.start.line + 4) s.stop.line
    let telling := (numbersFrom s.start.line middle).reverse.find? fun number =>
      (textOf? number).any isTelling
    let shown := telling.elim s.start.line (· + 1)
    let last := s.stop.line - 1
    let lastIsEmpty := (textOf? last).any fun text => !isTelling text
    [(s.start.line, s.opening)]
      ++ (numbersFrom (s.start.line + 1) shown).map (fun number => (number, s.passing))
      ++ (if middle < last && !lastIsEmpty then [(last, s.passing)] else [])
      ++ [(s.stop.line, s.closing)]

/-! ### Marked lines -/

/-- A line that is shown, with its marks from left to right. -/
structure MarkedLine where
  line : SourceLine
  marks : List Mark
  deriving Inhabited

/-- A callout with the ends of its span; a span without width is drawn one column wide. -/
def Callout.ends (lines : List SourceLine) (a : Callout) : Point × Point :=
  let (first, last) := locate lines a.span
  if first.column = last.column && first.line = last.line then
    (first, { last with column := last.column + 1 })
  else (first, last)

/-- The mark of a callout within one line. -/
def Callout.mark? (lines : List SourceLine) (a : Callout) : Option Mark :=
  let (first, last) := a.ends lines
  if first.line = last.line then some ⟨first, last, a.primary, some a.label, .single⟩ else none

/-- The stretch of a callout over several lines. -/
def Callout.stretch? (lines : List SourceLine) (a : Callout) : Option Stretch :=
  let (first, last) := a.ends lines
  if first.line = last.line then none else some ⟨1, first, last, a.primary, a.label, false⟩

def stretchesOf (lines : List SourceLine) (callouts : List Callout) : List Stretch :=
  Stretch.layer (callouts.filterMap (Callout.stretch? lines))

/-- How many stretches are drawn beside each other at most. -/
def stretchDepth (stretches : List Stretch) : Nat := (stretches.map Stretch.depth).foldl max 0

/-- The lines to show for some callouts. -/
def markLines (lines : List SourceLine) (callouts : List Callout) : List MarkedLine :=
  let singles := (callouts.filterMap (Callout.mark? lines)).map fun m => (m.start.line, m)
  let stretched := (stretchesOf lines callouts).flatMap (Stretch.marks lines)
  let marked := lines.map fun line =>
    let marks := ((singles ++ stretched).filter fun entry => entry.1 = line.number).map Prod.snd
    ⟨line, marks.mergeSort fun m m' => m.start.le m'.start⟩
  marked.filter fun l => !l.marks.isEmpty

end LocaleText
