import LocaleText.Excerpt.Drawing

/-!
# What drawing leaves alone

Whatever is drawn at a row or below it does not change the rows above. An excerpt is drawn from the
top, so the rows that a report begins with are those that were drawn first.

* `Canvas.Extends` says that a page begins with the rows of another
* `Extends.put`, `.write` and their companions say that writing at further rows keeps it so
* `Extends.foldl` says so of writing for each member of a list
* `Extends.drawLines` says so of the lines of an excerpt with all their marks
* `Canvas.lines` are the texts of the rows, with `lines_append_height`, `lines_push_height` and
  their companions for new rows and for the last one
-/

namespace LocaleText

namespace Canvas

variable {base canvas : Canvas} {y : Nat}

/-- A page begins with the rows of another. -/
def Extends (base canvas : Canvas) : Prop := base.rows.toList <+: canvas.rows.toList

/-- Rows are added up to the one that is written. -/
theorem toList_setRow (canvas : Canvas) (y : Nat) (cells : Array Cell) :
    (canvas.setRow y cells).rows.toList =
      (canvas.rows.toList ++ List.replicate (y + 1 - canvas.height) #[]).set y cells := by
  simp only [setRow, Array.toList_setIfInBounds, Array.toList_append, Array.toList_replicate]

theorem height_setRow (canvas : Canvas) (y : Nat) (cells : Array Cell) :
    (canvas.setRow y cells).height = max canvas.height (y + 1) := by
  simp only [height, setRow, Array.size_setIfInBounds, Array.size_append, Array.size_replicate]
  omega

namespace Extends

theorem refl (canvas : Canvas) : Extends canvas canvas := List.prefix_rfl

theorem height_le (h : Extends base canvas) : base.height ≤ canvas.height := h.length_le

/-! ### Writing -/

/-- All that is written is written by replacing rows. -/
theorem setRow (h : Extends base canvas) (hy : base.height ≤ y) (cells : Array Cell) :
    Extends base (canvas.setRow y cells) := by
  obtain ⟨rows, hrows⟩ := h
  have hlen : base.rows.toList.length ≤ y := hy
  refine ⟨(rows ++ List.replicate (y + 1 - canvas.height) #[]).set (y - base.rows.toList.length)
    cells, ?_⟩
  rw [toList_setRow, ← hrows, List.append_assoc, List.set_append_right y cells hlen]

theorem put (h : Extends base canvas) (hy : base.height ≤ y) (x : Nat) (c : Char) (ink : Ink) :
    Extends base (canvas.put y x c ink) :=
  h.setRow hy _

theorem write (h : Extends base canvas) (hy : base.height ≤ y) (x : Nat) (text : List Char)
    (ink : Ink) : Extends base (canvas.write y x text ink) := by
  induction text generalizing canvas x with
  | nil => exact h
  | cons c cs ih => exact ih (h.put hy x c ink) (x + 1)

theorem line (h : Extends base canvas) (hy : base.height ≤ y) (first last : Nat) (c : Char)
    (ink : Ink) : Extends base (canvas.line y first last c ink) :=
  h.write hy first _ ink

theorem elide (h : Extends base canvas) (hy : base.height ≤ y) (first last : Nat) :
    Extends base (canvas.elide y first last) := by
  rw [Canvas.elide]
  split
  · exact h
  · exact h.setRow hy _

/-- By induction on the steps of a drawing. -/
theorem foldl {α : Type} {step : Canvas → α → Canvas} :
    ∀ {items : List α}, (∀ canvas, ∀ a ∈ items, Extends base canvas → Extends base (step canvas a)) →
      ∀ {canvas}, Extends base canvas → Extends base (items.foldl step canvas)
  | [], _, _, h => h
  | a :: items, hstep, canvas, h => by
    have hrest : ∀ canvas, ∀ b ∈ items, Extends base canvas → Extends base (step canvas b) :=
      fun canvas b hb => hstep canvas b (List.mem_cons_of_mem a hb)
    exact foldl hrest (hstep canvas a (List.mem_cons_self ..) h)

theorem column (h : Extends base canvas) {first : Nat} (hfirst : base.height ≤ first) (x last : Nat)
    (c : Char) (ink : Ink) : Extends base (canvas.column x first last c ink) := by
  refine foldl (fun canvas y hy h => h.put ?_ x c ink) h
  have hle := (List.mem_range'_1.mp hy).1
  omega

/-! ### Marks -/

variable {frame : Frame} {spot : Spot}

theorem bar (h : Extends base canvas) (hy : base.height ≤ y) : Extends base (canvas.bar frame y) :=
  h.put hy _ _ _

theorem stretchBar (h : Extends base canvas) (hy : base.height ≤ y) (depth : Nat) (ink : Ink) :
    Extends base (canvas.stretchBar frame y depth ink) :=
  h.put hy _ _ _

theorem codeLine (h : Extends base canvas) (hy : base.height ≤ y) (number : Nat) (text : List Char) :
    Extends base (canvas.codeLine frame y number text).1 := by
  simp only [Canvas.codeLine]
  refine Extends.bar (.write ?_ hy _ _ _) hy
  have htext : ∀ canvas, Extends base canvas → Extends base (canvas.write y
      (frame.code + (frame.window.cut text).offset) (frame.window.cut text).text .plain) :=
    fun _ h => h.write hy _ _ _
  have hdotted : Extends base (if (frame.window.cut text).dotted = true then
      canvas.write y frame.code ellipsis .guide else canvas) := by
    split
    · exact h.write hy _ _ _
    · exact h
  cases (frame.window.cut text).dots? with
  | none => exact htext _ hdotted
  | some x => exact (htext _ hdotted).write hy _ _ _

variable {placed : Nat × Mark}

theorem arm (h : Extends base canvas) (hy : base.height ≤ spot.row) :
    Extends base (canvas.arm frame spot placed) := by
  simp only [Canvas.arm]
  split
  · exact h.line (by omega) _ _ _ _
  · exact h.line (by omega) _ _ _ _
  · exact h

theorem stem (h : Extends base canvas) (hy : base.height ≤ spot.row) (last : Nat) :
    Extends base (canvas.stem frame spot last placed) := by
  have hdown : Extends base (if (decide (0 < placed.1) && (placed.2.hasLabel || placed.2.isJoined)) = true
      then canvas.column (columnOf frame spot placed.2.start.column) (spot.row + 1)
        (spot.row + placed.1 + 1 + 1) '|' placed.2.ink
      else canvas) := by
    split
    · exact h.column (by omega) _ _ _ _
    · exact h
  simp only [Canvas.stem]
  split
  · exact (hdown.put (by omega) _ _ _).column (by omega) _ _ _ _
  · exact hdown.column hy _ _ _ _
  · exact hdown

theorem label (h : Extends base canvas) (hy : base.height ≤ spot.row) :
    Extends base (canvas.label frame spot placed) := by
  simp only [Canvas.label]
  cases placed.2.label with
  | none => exact h
  | some label => exact h.write (by omega) _ _ _

theorem underline (h : Extends base canvas) (hy : base.height ≤ spot.row) :
    Extends base (canvas.underline frame spot placed) := by
  have hstrokes : Extends base ((numbersFrom placed.2.start.column placed.2.stop.column).foldl
      (fun canvas column => canvas.put (spot.row + 1) (columnOf frame spot column) placed.2.stroke
        placed.2.ink) canvas) :=
    foldl (fun _ _ _ h => h.put (by omega) _ _ _) h
  simp only [Canvas.underline]
  split
  · exact hstrokes.put (by omega) _ _ _
  · exact hstrokes

theorem shorten (h : Extends base canvas) (hy : base.height ≤ spot.row) :
    Extends base (canvas.shorten frame spot placed) := by
  simp only [Canvas.shorten]
  split
  · exact (h.elide hy _ _).elide (by omega) _ _
  · exact h

/-- The marks of a line and their labels stand below it. -/
theorem marks (h : Extends base canvas) (hy : base.height ≤ spot.row) (marks : List Mark) :
    Extends base (canvas.marks frame spot marks) := by
  simp only [Canvas.marks]
  refine foldl (fun _ _ _ h => h.shorten hy) (foldl (fun _ _ _ h => h.underline hy) ?_)
  refine foldl (fun _ _ _ h => h.label hy) (foldl (fun _ _ _ h => h.stem hy _) ?_)
  exact foldl (fun _ _ _ h => h.arm hy) (foldl (fun _ _ _ h => h.bar (by omega)) h)

/-! ### Lines -/

/-- The lines of an excerpt are drawn one below the other. -/
theorem drawLine (h : Extends base canvas) (l : MarkedLine) :
    Extends base (drawLine frame l canvas).1 := by
  have hcode : Extends base (canvas.codeLine frame canvas.height l.line.number
      (showText l.line.text)).1 := h.codeLine h.height_le _ _
  simp only [LocaleText.drawLine]
  split
  · exact foldl (fun _ _ _ h' => h'.put h.height_le _ _ _) hcode
  · exact hcode.marks h.height_le _

theorem drawOpen (h : Extends base canvas) {first : Nat} (hfirst : base.height ≤ first)
    (open? : List (Nat × Ink)) : Extends base (drawOpen frame open? first canvas) := by
  refine foldl (fun _ y hy h => foldl (fun _ _ _ h => h.stretchBar ?_ _ _) h) h
  have hle := (List.mem_range'_1.mp hy).1
  omega

theorem drawBetween (h : Extends base canvas) (lines : List SourceLine) (l next : MarkedLine)
    (open? : List (Nat × Ink)) : Extends base (drawBetween frame lines l next open? canvas) := by
  simp only [LocaleText.drawBetween]
  split
  · exact h
  · refine foldl (fun _ _ _ h' => h'.stretchBar h.height_le _ _) ?_
    split
    · exact h.codeLine h.height_le _ _
    · exact h.write h.height_le _ _ _

/-- By induction on the lines. -/
theorem drawLines (lines : List SourceLine) (marked : List MarkedLine) :
    ∀ {open? : List (Nat × Ink)} {canvas : Canvas}, Extends base canvas →
      Extends base (drawLines frame lines open? marked canvas) := by
  induction marked with
  | nil => exact fun h => h
  | cons l rest ih =>
    intro open? canvas h
    rw [LocaleText.drawLines]
    refine ih ?_
    have hline : Extends base (LocaleText.drawLine frame l canvas).1 := h.drawLine l
    have hopen : ∀ open?, Extends base (LocaleText.drawOpen frame open? canvas.height
        (LocaleText.drawLine frame l canvas).1) := hline.drawOpen h.height_le
    cases rest with
    | nil => exact hopen _
    | cons next _ => exact (hopen _).drawBetween lines l next _

end Extends

/-! ### Rows as texts -/

/-- The texts of the rows. -/
def lines (canvas : Canvas) : List (List Char) :=
  canvas.rows.toList.map fun cells => cells.toList.map Cell.char

/-- Without colours the page is its rows with line feeds between them. -/
theorem text_eq_lines (canvas : Canvas) :
    canvas.text false = "\n".intercalate (canvas.lines.map String.ofList) := by
  simp only [text, rowText, lines, Bool.false_eq_true, if_false, List.map_map]
  rfl

theorem length_lines (canvas : Canvas) : canvas.lines.length = canvas.height := by
  simp only [lines, List.length_map, Array.length_toList, height]

theorem Extends.lines (h : Extends base canvas) : base.lines <+: canvas.lines := h.map _

variable {above : List (List Char)} {row text : List Char} {ink : Ink}

theorem row_setRow (canvas : Canvas) (y : Nat) (cells : Array Cell) :
    (canvas.setRow y cells).row y = cells := by
  have hlt : y < (canvas.rows ++ Array.replicate (y + 1 - canvas.height) #[]).size := by
    simp only [Array.size_append, Array.size_replicate, height]
    omega
  simp only [Canvas.row, setRow, Array.getD_eq_getD_getElem?]
  rw [Array.getElem?_setIfInBounds_self_of_lt hlt, Option.getD_some]

theorem setRow_setRow (canvas : Canvas) (y : Nat) (cells cells' : Array Cell) :
    (canvas.setRow y cells).setRow y cells' = canvas.setRow y cells' := by
  have hheight : y + 1 - (canvas.setRow y cells).height = 0 := by
    rw [height_setRow]
    omega
  have hrows : ((canvas.setRow y cells).setRow y cells').rows.toList =
      (canvas.setRow y cells').rows.toList := by
    rw [toList_setRow, hheight, toList_setRow, toList_setRow, List.replicate_zero, List.append_nil,
      List.set_set]
  exact congrArg Canvas.mk (Array.toList_inj.mp hrows)

/-- What is written behind the cells of a row is appended to them. -/
theorem write_size (canvas : Canvas) (y : Nat) (ink : Ink) (h : text ≠ []) :
    canvas.write y (canvas.row y).size text ink =
      canvas.setRow y (canvas.row y ++ (text.map fun c => ⟨c, ink⟩).toArray) := by
  induction text generalizing canvas with
  | nil => exact absurd rfl h
  | cons c cs ih =>
    have hput : canvas.put y (canvas.row y).size c ink =
        canvas.setRow y ((canvas.row y).push ⟨c, ink⟩) := by
      rw [put]
      refine congrArg (canvas.setRow y) (Array.toList_inj.mp ?_)
      simp [Array.toList_setIfInBounds, List.set_append_right]
    rw [write, hput]
    cases cs with
    | nil => rw [write]; simp
    | cons d ds =>
      have hsize : (canvas.row y).size + 1 =
          ((canvas.setRow y ((canvas.row y).push ⟨c, ink⟩)).row y).size := by
        rw [row_setRow, Array.size_push]
      rw [hsize, ih _ (List.cons_ne_nil d ds), row_setRow, setRow_setRow]
      refine congrArg (canvas.setRow y) (Array.toList_inj.mp ?_)
      simp

theorem lines_setRow_height (canvas : Canvas) (cells : Array Cell) :
    (canvas.setRow canvas.height cells).lines = canvas.lines ++ [cells.toList.map Cell.char] := by
  have hmissing : canvas.height + 1 - canvas.height = 1 := by omega
  have hlen : canvas.rows.toList.length = canvas.height := rfl
  rw [lines, toList_setRow, hmissing, ← hlen, List.set_append_right _ _ (Nat.le_refl _)]
  simp [lines]

/-- The last row is replaced. -/
theorem lines_setRow_last (hlines : canvas.lines = above ++ [row]) (hy : above.length = y)
    (cells : Array Cell) :
    (canvas.setRow y cells).lines = above ++ [cells.toList.map Cell.char] := by
  have hheight := canvas.length_lines
  rw [hlines, List.length_append, List.length_singleton, hy] at hheight
  have hmissing : y + 1 - canvas.height = 0 := by omega
  rw [lines, toList_setRow, hmissing, List.replicate_zero, List.append_nil, List.map_set]
  have hrows : canvas.rows.toList.map (fun cells => cells.toList.map Cell.char) = above ++ [row] :=
    hlines
  rw [hrows, ← hy, List.set_append_right _ _ (Nat.le_refl _), Nat.sub_self]
  rfl

theorem row_height (canvas : Canvas) : canvas.row canvas.height = #[] := by
  simp [Canvas.row, height, Array.getD_eq_getD_getElem?]

theorem map_row_last (hlines : canvas.lines = above ++ [row]) (hy : above.length = y) :
    (canvas.row y).toList.map Cell.char = row := by
  have hget : canvas.lines[y]? = some row := by
    rw [hlines, ← hy, List.getElem?_concat_length]
  rw [lines, List.getElem?_map, Option.map_eq_some_iff] at hget
  obtain ⟨cells, hcells, hrow⟩ := hget
  rw [Array.getElem?_toList] at hcells
  rw [Canvas.row, Array.getD_eq_getD_getElem?, hcells, Option.getD_some, hrow]

/-- What is appended below the last row begins a row. -/
theorem lines_append_height (canvas : Canvas) (ink : Ink) (h : text ≠ []) :
    (canvas.append canvas.height text ink).lines = canvas.lines ++ [text] := by
  rw [append, write_size _ _ _ h, row_height, lines_setRow_height]
  simp [Function.comp_def]

/-- What is appended to the last row goes on with it. -/
theorem lines_append_last (hlines : canvas.lines = above ++ [row]) (hy : above.length = y)
    (text : List Char) (ink : Ink) :
    (canvas.append y text ink).lines = above ++ [row ++ text] := by
  by_cases h : text = []
  · rw [h, append, write, List.append_nil, hlines]
  · rw [append, write_size _ _ _ h, lines_setRow_last hlines hy, Array.toList_append, List.map_append,
      map_row_last hlines hy]
    simp [Function.comp_def]

theorem lines_push_height (canvas : Canvas) (text : List Char) (ink : Ink) :
    (canvas.push canvas.height text ink).lines = canvas.lines ++ [text] := by
  rw [push, row_height, lines_setRow_height]
  simp [Function.comp_def]

/-- A text in front of the last row. -/
theorem lines_push_last (hlines : canvas.lines = above ++ [row]) (hy : above.length = y)
    (text : List Char) (ink : Ink) :
    (canvas.push y text ink).lines = above ++ [text ++ row] := by
  rw [push, lines_setRow_last hlines hy, Array.toList_append, List.map_append,
    map_row_last hlines hy]
  simp [Function.comp_def]

end Canvas

end LocaleText
