/-!
# Blank characters

The characters with the Unicode property White_Space. They separate the parts of a resource and are
kept only between entries and around the value of an entity.

* `isBlank` is the class
* `quoteBlanks` writes a run of blanks between double quotes so that each one can be told apart
-/

namespace LocaleText

/-- The code points with the Unicode property White_Space. -/
def blankRanges : List (Nat × Nat) :=
  [(0x09, 0x0D), (0x20, 0x20), (0x85, 0x85), (0xA0, 0xA0), (0x1680, 0x1680), (0x2000, 0x200A),
   (0x2028, 0x2029), (0x202F, 0x202F), (0x205F, 0x205F), (0x3000, 0x3000)]

def isBlank (c : Char) : Bool :=
  blankRanges.any fun (first, last) => first ≤ c.toNat && c.toNat ≤ last

/-- A blank as it is written in quotes: a space as itself, a tab and the two common line ends by
their letters, any other by its code point in hexadecimal. -/
def escapeBlank (c : Char) : List Char :=
  if c = ' ' then [' ']
  else if c = '\t' then ['\\', 't']
  else if c = '\n' then ['\\', 'n']
  else if c = '\r' then ['\\', 'r']
  else ['\\', 'u', '\x7b'] ++ Nat.toDigits 16 c.toNat ++ ['\x7d']

def quoteBlanks (text : String) : String :=
  String.ofList (['"'] ++ text.toList.flatMap escapeBlank ++ ['"'])

end LocaleText
