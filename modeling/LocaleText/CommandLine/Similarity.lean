/-!
# Similar words

A mistyped word is answered with the known word that is most like it. How alike two words are is
measured by the similarity of Jaro, an exact fraction between zero and one.

* `similarity` is the measure
* `similarWords` are the known words that are alike enough, the best last
-/

namespace LocaleText.CommandLine

/-- Marks the first unmarked character equal to `c` at an index from `first` up to, not including,
`last`; `i` is the index of the head. -/
def markMatch (c : Char) (first last : Nat) (i : Nat) :
    List (Char × Bool) → Option (List (Char × Bool))
  | [] => none
  | (d, marked) :: rest =>
    if last ≤ i then none
    else if first ≤ i && c = d && !marked then some ((d, true) :: rest)
    else (markMatch c first last (i + 1) rest).map ((d, marked) :: ·)

/-- Finds, from left to right, a match in `other` for each character of a word. Matches may be up to
`range` indices apart. Yields the matched characters, and `other` with its matches marked. -/
def matchUp (range : Nat) (i : Nat) :
    List Char → List (Char × Bool) → List Char × List (Char × Bool)
  | [], other => ([], other)
  | c :: cs, other =>
    match markMatch c (i - range) (i + range + 1) 0 other with
    | none => matchUp range (i + 1) cs other
    | some other =>
      let (matched, other) := matchUp range (i + 1) cs other
      (c :: matched, other)

/-- The similarity of two words as a numerator and a denominator: the mean of the share of the first
word that is matched, the share of the second, and the share of the matches that are in order. -/
def similarity (word other : String) : Nat × Nat :=
  let a := word.toList
  let b := other.toList
  if a.isEmpty && b.isEmpty then (1, 1)
  else
    let (matched, marks) := matchUp (max a.length b.length / 2 - 1) 0 a (b.map (·, false))
    let m := matched.length
    if m = 0 then (0, 1)
    else
      let inOther := (marks.filter Prod.snd).map Prod.fst
      let moved := ((matched.zip inOther).filter fun (c, d) => c ≠ d).length / 2
      (m * m * (a.length + b.length) + (m - moved) * a.length * b.length,
        3 * m * a.length * b.length)

def fractionLe (p q : Nat × Nat) : Bool := p.1 * q.2 ≤ q.1 * p.2

/-- The known words whose similarity to `word` is at least seven tenths, in increasing order. -/
def similarWords (word : String) (known : List String) : List String :=
  let rated := known.map fun other => (similarity word other, other)
  let alike := rated.filter fun (s, _) => fractionLe (7, 10) s
  (alike.mergeSort fun p q => fractionLe p.1 q.1).map Prod.snd

/-- The known word that is most like `word`, if any is. -/
def mostSimilar? (word : String) (known : List String) : Option String :=
  (similarWords word known).getLast?

end LocaleText.CommandLine
