import LocaleText.Proofs.Excerpt.Line

/-!
# Places and offsets

A place says where an offset is: whoever goes down the lines of a text and then along the columns of
the last one comes back to the offset. The offsets within a character have the place of the
character, and those behind the end have the place of the end.

* `Place.seek` is that way, and `Place.offset?` the offset that it leads to
* `IsBoundary` are the offsets between two characters, and those of the two ends
* `Place.Precedes` is the order of places: by lines, and in a line by columns
* `Place.seek_after` and `Place.precedes_after` are the two facts about texts
* `Place.of_lt_size` says that lines and columns fit into 32 bits where offsets do
* `Place.offset?_of` is the result
-/

namespace LocaleText

/-- An offset of a text at which a character starts, or the end of the text. -/
def IsBoundary (source : List Char) (offset : Nat) : Prop :=
  ∃ before behind, source = before ++ behind ∧ offset = byteLength before

namespace Place

/-! ### The way to a place -/

/-- What is left of a text behind its first `n` lines, each of which is to end in a line feed. -/
def skipLines : Nat → List Char → Option (List Char)
  | 0, text => some text
  | _ + 1, [] => none
  | n + 1, c :: cs => if c = '\n' then skipLines n cs else skipLines (n + 1) cs

/-- What is left of a text behind its first `n` characters, none of which is to be a line feed. -/
def skipColumns : Nat → List Char → Option (List Char)
  | 0, text => some text
  | _ + 1, [] => none
  | n + 1, c :: cs => if c = '\n' then none else skipColumns n cs

/-- What is left of a text behind a place: the lines before it are skipped, then the columns. -/
def seek (p : Place) (text : List Char) : Option (List Char) :=
  (skipLines (p.line - 1) text).bind (skipColumns (p.column - 1))

def offset? (p : Place) (source : List Char) : Option Nat :=
  (p.seek source).map fun rest => byteLength source - byteLength rest

/-- One place comes before another: further up, or in the same line further to the left. -/
def Precedes (p q : Place) : Prop := p.line < q.line ∨ p.line = q.line ∧ p.column < q.column

section Ways

variable {raw rest : List Char}

/-- One line less to skip behind the first. -/
theorem skipLines_line (h : '\n' ∉ raw) (n : Nat) (rest : List Char) :
    skipLines (n + 1) (raw ++ '\n' :: rest) = skipLines n rest := by
  induction raw with
  | nil => rfl
  | cons c raw ih =>
    rw [List.mem_cons, not_or] at h
    rw [List.cons_append, skipLines, if_neg (Ne.symm h.1), ih h.2]

theorem skipColumns_length (h : '\n' ∉ raw) (rest : List Char) :
    skipColumns raw.length (raw ++ rest) = some rest := by
  induction raw with
  | nil => rfl
  | cons c raw ih =>
    rw [List.mem_cons, not_or] at h
    rw [List.length_cons, List.cons_append, skipColumns, if_neg (Ne.symm h.1), ih h.2]

/-- The first line is the least. -/
theorem line_after_pos (text : List Char) : 1 ≤ (after text).line := line_after_append [] text

/-- The place behind a text is where the text is left behind, by induction on its lines. -/
theorem seek_after (before behind : List Char) :
    (after before).seek (before ++ behind) = some behind := by
  induction before using lines_induction with
  | last raw h =>
    rw [after_of_not_mem h, seek, Nat.sub_self, skipLines, Option.bind_some,
      Nat.add_sub_cancel_left, skipColumns_length h]
  | line raw rest h ih =>
    obtain ⟨n, hn⟩ := Nat.exists_eq_add_of_le (line_after_pos rest)
    rw [seek, hn, Nat.add_sub_cancel_left] at ih
    rw [after_line h, seek, hn, List.append_assoc, List.cons_append, Nat.add_sub_cancel_left,
      Nat.add_comm 1, skipLines_line h]
    exact ih

/-- The place of an offset between two characters is the one behind the text before it. -/
theorem of_boundary (before behind : List Char) :
    of (before ++ behind) (byteLength before) = after before := by
  rw [of, takeBytes_append]

/-- The way back from a place leads to the offset that it is the place of. -/
theorem offset?_after (before behind : List Char) :
    (after before).offset? (before ++ behind) = some (byteLength before) := by
  rw [offset?, seek_after, Option.map_some, byteLength_append, Nat.add_sub_cancel]

end Ways

/-! ### The order of places -/

section Order

variable {p q r : Place}

theorem Precedes.trans (h : p.Precedes q) (h' : q.Precedes r) : p.Precedes r := by
  unfold Precedes at *
  omega

theorem Precedes.irrefl (p : Place) : ¬ p.Precedes p := by
  unfold Precedes
  omega

/-- Every character leads further on, to the next column or to the next line. -/
theorem precedes_next (p : Place) (c : Char) : p.Precedes (p.next c) := by
  rw [next]
  split
  · exact .inl (Nat.lt_succ_self p.line)
  · exact .inr ⟨rfl, Nat.lt_succ_self p.column⟩

theorem precedes_foldl_next {text : List Char} (h : text ≠ []) (p : Place) :
    p.Precedes (text.foldl next p) := by
  induction text generalizing p with
  | nil => exact absurd rfl h
  | cons c text ih =>
    by_cases ht : text = []
    · rw [ht]
      exact precedes_next p c
    · exact (precedes_next p c).trans (ih ht (p.next c))

/-- Every text leads on from the place before it. -/
theorem precedes_after (before : List Char) {text : List Char} (h : text ≠ []) :
    (after before).Precedes (after (before ++ text)) := by
  rw [after, after, List.foldl_append]
  exact precedes_foldl_next h _

end Order

section Offsets

variable {source : List Char} {o o' : Nat}

/-- Of two boundaries, the text before the first one begins the text before the second. -/
theorem precedes_of_lt (h : IsBoundary source o) (h' : IsBoundary source o') (hlt : o < o') :
    (of source o).Precedes (of source o') := by
  obtain ⟨before, behind, rfl, rfl⟩ := h
  obtain ⟨before', behind', hs, rfl⟩ := h'
  have hplace' : of (before ++ behind) (byteLength before') = after before' := by
    rw [hs, of_boundary]
  rw [of_boundary, hplace']
  rcases List.append_eq_append_iff.mp hs with ⟨text, rfl, -⟩ | ⟨text, rfl, -⟩
  · refine precedes_after before fun ht => ?_
    rw [ht, List.append_nil] at hlt
    exact Nat.lt_irrefl _ hlt
  · rw [byteLength_append] at hlt
    omega

/-- Two offsets between characters have two places. -/
theorem of_inj (h : IsBoundary source o) (h' : IsBoundary source o')
    (he : of source o = of source o') : o = o' := by
  rcases Nat.lt_trichotomy o o' with hlt | heq | hlt
  · exact absurd (he ▸ precedes_of_lt h h' hlt) (Precedes.irrefl _)
  · exact heq
  · exact absurd (he ▸ precedes_of_lt h' h hlt) (Precedes.irrefl _)

theorem lt_iff_precedes (h : IsBoundary source o) (h' : IsBoundary source o') :
    o < o' ↔ (of source o).Precedes (of source o') := by
  constructor
  · exact precedes_of_lt h h'
  · intro hp
    rcases Nat.lt_trichotomy o o' with hlt | rfl | hlt
    · exact hlt
    · exact absurd hp (Precedes.irrefl _)
    · exact absurd (hp.trans (precedes_of_lt h' h hlt)) (Precedes.irrefl _)

/-- Behind the end there is nothing to be placed. -/
theorem of_of_byteLength_le (h : byteLength source ≤ o) :
    of source o = of source (byteLength source) := by
  obtain ⟨n, rfl⟩ := Nat.exists_eq_add_of_le h
  rw [of, of, takeBytes_byteLength_add]
  exact congrArg after (takeBytes_byteLength_add source 0).symm

end Offsets

/-- Neither the line nor the column grows by more than one with a character. -/
theorem foldl_next_le (text : List Char) (p : Place) :
    (text.foldl next p).line ≤ p.line + text.length ∧
      (text.foldl next p).column ≤ max 1 p.column + text.length := by
  induction text generalizing p with
  | nil => exact ⟨Nat.le_refl _, Nat.le_max_right 1 p.column⟩
  | cons c text ih =>
    obtain ⟨hline, hcolumn⟩ := ih (p.next c)
    have hnext : (p.next c).line ≤ p.line + 1 ∧ (p.next c).column ≤ max 1 p.column + 1 := by
      rw [next]
      split
      · exact ⟨Nat.le_refl _, Nat.le_trans (Nat.le_max_left 1 p.column) (Nat.le_succ _)⟩
      · exact ⟨Nat.le_succ _, Nat.succ_le_succ (Nat.le_max_right 1 p.column)⟩
    rw [List.foldl_cons, List.length_cons]
    omega

/-- A line and a column are counted in 32 bits without overflow, in sources whose length leaves room
for the one that counting starts with. -/
theorem of_lt_size {source : List Char} (h : byteLength source < UInt32.size - 1) (o : Nat) :
    (of source o).line < UInt32.size ∧ (of source o).column < UInt32.size := by
  have hfirst : first.line = 1 ∧ max 1 first.column = 1 := ⟨rfl, rfl⟩
  have hle := foldl_next_le (takeBytes o source) first
  have hlength := length_le_byteLength (takeBytes o source)
  have htaken := congrArg byteLength (takeBytes_append_dropBytes o source)
  rw [byteLength_append] at htaken
  rw [hfirst.1, hfirst.2] at hle
  rw [of, after]
  omega

/-- A place says where it is. From the place of a boundary, lines and columns lead back to the boundary;
so different boundaries have different places, and places are ordered as offsets are. An offset behind
the end has the place of the end. -/
theorem offset?_of (source : List Char) :
    (∀ o, IsBoundary source o → (of source o).offset? source = some o) ∧
    (∀ o o', IsBoundary source o → IsBoundary source o' → of source o = of source o' → o = o') ∧
    (∀ o o', IsBoundary source o → IsBoundary source o' →
      (o < o' ↔ (of source o).Precedes (of source o'))) ∧
    (∀ o, byteLength source ≤ o → of source o = of source (byteLength source)) ∧
    (byteLength source < UInt32.size - 1 →
      ∀ o, (of source o).line < UInt32.size ∧ (of source o).column < UInt32.size) := by
  refine ⟨?_, fun o o' h h' => of_inj h h', fun o o' h h' => lt_iff_precedes h h',
    fun o h => of_of_byteLength_le h, of_lt_size⟩
  rintro o ⟨before, behind, rfl, rfl⟩
  rw [of_boundary]
  exact offset?_after before behind

/-- The two sides of a line feed behind a character of two bytes, and an offset behind the end. -/
theorem offset?_of_line_feed :
    IsBoundary "é\n ".toList 2 ∧ IsBoundary "é\n ".toList 3 ∧
    (of "é\n ".toList 2).offset? "é\n ".toList = some 2 ∧
    (of "é\n ".toList 3).offset? "é\n ".toList = some 3 ∧
    (of "é\n ".toList 2 = of "é\n ".toList 3 → 2 = 3) ∧
    (2 < 3 ↔ (of "é\n ".toList 2).Precedes (of "é\n ".toList 3)) ∧
    of "é\n ".toList 7 = of "é\n ".toList (byteLength "é\n ".toList) ∧
    (of "é\n ".toList 7).line < UInt32.size := by
  have h2 : IsBoundary "é\n ".toList 2 := ⟨['é'], ['\n', ' '], rfl, rfl⟩
  have h3 : IsBoundary "é\n ".toList 3 := ⟨['é', '\n'], [' '], rfl, rfl⟩
  obtain ⟨hoffset, hinj, horder, hend, hsize⟩ := offset?_of "é\n ".toList
  exact ⟨h2, h3, hoffset 2 h2, hoffset 3 h3, hinj 2 3 h2 h3, horder 2 3 h2 h3,
    hend 7 (by decide +kernel), (hsize (by decide +kernel) 7).1⟩

end Place

end LocaleText
