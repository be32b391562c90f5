/-!
# Byte lengths and byte spans of text

Texts are lists of characters, and positions in them are counted in bytes of UTF-8, as everything
that a tree or an error tells about places does. A position that is not at a boundary between two
characters is one that no cut comes to: a text is cut in front of the character it lies in.

Positions are natural numbers here, without the bound of 32 bits that a program may keep them under.
What is proved holds of such a program on texts of fewer than `2 ^ 32` bytes, where no position that
occurs exceeds the bound; longer texts are outside of what is described.

* `byteLength` is the number of bytes a text takes
* `takeBytes` and `dropBytes` cut a text at a byte offset, never inside a character;
  `takeBytes_append_dropBytes` puts the two parts together again
* `Span` is a half-open range of bytes, and `Span.slice` the part of a text it covers
-/

namespace LocaleText

/-- The number of bytes the characters of a text occupy in UTF-8. -/
def byteLength : List Char → Nat
  | [] => 0
  | c :: cs => c.utf8Size + byteLength cs

@[simp] theorem byteLength_nil : byteLength [] = 0 := rfl

@[simp] theorem byteLength_cons (c : Char) (cs : List Char) :
    byteLength (c :: cs) = c.utf8Size + byteLength cs := rfl

@[simp] theorem byteLength_append (s t : List Char) :
    byteLength (s ++ t) = byteLength s + byteLength t := by
  induction s with
  | nil => simp
  | cons c cs ih => simp [ih, Nat.add_assoc]

/-- The longest beginning of a text that fits in `n` bytes. -/
def takeBytes : Nat → List Char → List Char
  | _, [] => []
  | n, c :: cs => if c.utf8Size ≤ n then c :: takeBytes (n - c.utf8Size) cs else []

/-- What follows `takeBytes n` in a text. -/
def dropBytes : Nat → List Char → List Char
  | _, [] => []
  | n, c :: cs => if c.utf8Size ≤ n then dropBytes (n - c.utf8Size) cs else c :: cs

/-- A cut loses nothing. -/
theorem takeBytes_append_dropBytes (n : Nat) (s : List Char) :
    takeBytes n s ++ dropBytes n s = s := by
  induction s generalizing n with
  | nil => rfl
  | cons c cs ih => by_cases h : c.utf8Size ≤ n <;> simp [takeBytes, dropBytes, h, ih]

/-- A half-open range of bytes of a text: from `start` up to, not including, `stop`. -/
structure Span where
  start : Nat
  stop : Nat
  deriving DecidableEq, Repr, Inhabited

namespace Span

def empty (offset : Nat) : Span := ⟨offset, offset⟩

def size (s : Span) : Nat := s.stop - s.start

/-- From the start of one span to the stop of another, as an operator covers its operands. -/
def cover (first last : Span) : Span := ⟨first.start, last.stop⟩

/-- The part of a text that a span covers. -/
def slice (s : Span) (source : List Char) : List Char :=
  takeBytes s.size (dropBytes s.start source)

end Span

end LocaleText
