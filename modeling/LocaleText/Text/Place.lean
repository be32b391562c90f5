import LocaleText.Text.Bytes

/-!
# Places: lines and columns

A place is where a reader of a text would look for a byte offset: a line and a column, both counted
from 1, the column in characters. Only the line feed ends a line.

* `Place.after` is the place just behind a text
* `Place.of` is the place of a byte offset, an offset past the end standing for the end

Lines and columns are natural numbers, as the offsets are.
-/

namespace LocaleText

/-- A line and a column, both counted from 1. -/
structure Place where
  line : Nat
  column : Nat
  deriving DecidableEq, Repr, Inhabited

namespace Place

def first : Place := ⟨1, 1⟩

/-- The place behind a character that stands at `p`. -/
def next (p : Place) (c : Char) : Place :=
  if c = '\n' then ⟨p.line + 1, 1⟩ else ⟨p.line, p.column + 1⟩

def after (text : List Char) : Place := text.foldl next first

/-- The place of a byte offset in a text. -/
def of (source : List Char) (offset : Nat) : Place := after (takeBytes offset source)

def text (p : Place) : String := s!"{p.line}:{p.column}"

theorem after_append_singleton (s : List Char) (c : Char) : after (s ++ [c]) = (after s).next c := by
  simp [after]

end Place

end LocaleText
