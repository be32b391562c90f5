import LocaleText.Proofs.Excerpt.Canvas
import LocaleText.Proofs.Excerpt.Mark
import LocaleText.Proofs.Pointing.Reading

/-!
# The location that a report names

A report with a path names a line and a column behind the title. They are the place of the error,
except at the end of a source that ends in a line feed.

* `SyntaxError.title` is the message as a report shows it
* `SyntaxError.lines_draw` says which rows a report begins with: those of the title, and the row
  that names the location
* `Fault.PointsInto.location?` is the location, and `Place.shownAt_eq_of_iff` compares it
  with the place
* `Resource.render_names_location` puts them together for the text of a report
* `Resource.location_behind_last_line_feed` is a source for which the location is another one
-/

namespace LocaleText

/-! ### The title -/

namespace SyntaxError

/-- The message as a report shows it: behind the word for an error, and indented to its start where it
goes on behind a line feed. -/
def title (e : SyntaxError) : String :=
  "error: " ++ "\n       ".intercalate
    (((showText e.message.toList).splitOn '\n').map String.ofList)

/-- The rows that the parts of a message come to. -/
def titleRows : List (List Char) → List (List Char)
  | [] => []
  | part :: parts => ("error: ".toList ++ part) :: parts.map fun part => "       ".toList ++ part

/-- All parts but the first come with the separator. -/
theorem intercalate_cons (separator part : List Char) (parts : List (List Char)) :
    separator.intercalate (part :: parts) = part ++ parts.flatMap (separator ++ ·) := by
  induction parts generalizing part with
  | nil => simp
  | cons next parts ih =>
    rw [List.intercalate_cons_of_ne_nil (List.cons_ne_nil next parts), ih, List.flatMap_cons,
      List.append_assoc, List.append_assoc]

/-- The title is the text of its rows. -/
theorem title_eq_rows (e : SyntaxError) : e.title.toList = ['\n'].intercalate
    (titleRows ((showText e.message.toList).splitOn '\n')) := by
  rw [title, String.toList_append, String.toList_intercalate, List.map_map]
  have htexts : ∀ parts : List (List Char), parts.map (String.toList ∘ String.ofList) = parts := by
    simp [Function.comp_def]
  rw [htexts]
  cases hparts : (showText e.message.toList).splitOn '\n' with
  | nil => exact absurd hparts (List.splitOnP_ne_nil _ _)
  | cons part parts =>
    rw [titleRows, intercalate_cons, intercalate_cons, List.flatMap_map, List.append_assoc]
    rfl

end SyntaxError

namespace Canvas

variable {canvas : Canvas} {above : List (List Char)} {row : List Char}

/-- Writes a part of a message, with an indentation in all rows but the first. -/
def titlePart (canvas : Canvas) (part : List Char × Nat) : Canvas :=
  let canvas := if part.2 = 0 then canvas else
    canvas.append (0 + part.2) (List.replicate 7 ' ') .plain
  canvas.append (0 + part.2) part.1 .emphasis

/-- Each part behind the first one begins a row. By induction on the parts. -/
theorem lines_titleParts (parts : List (List Char)) : ∀ {canvas : Canvas} {k : Nat},
    canvas.height = k + 1 → ((parts.zipIdx (k + 1)).foldl titlePart canvas).lines =
      canvas.lines ++ parts.map fun part => "       ".toList ++ part := by
  induction parts with
  | nil => simp
  | cons part parts ih =>
    intro canvas k hk
    have hlines : (canvas.titlePart (part, k + 1)).lines =
        canvas.lines ++ ["       ".toList ++ part] := by
      have hindent : (canvas.append (k + 1) (List.replicate 7 ' ') .plain).lines =
          canvas.lines ++ ["       ".toList] := by
        rw [← hk]
        exact lines_append_height canvas _ (by decide)
      rw [titlePart, if_neg (Nat.succ_ne_zero k), Nat.zero_add]
      exact lines_append_last hindent (by rw [length_lines, hk]) part _
    have hheight : (canvas.titlePart (part, k + 1)).height = k + 1 + 1 := by
      rw [← length_lines, hlines, List.length_append, length_lines, hk]
      rfl
    rw [List.zipIdx_cons, List.foldl_cons, ih hheight, hlines, List.map_cons, List.append_assoc]
    rfl

end Canvas

namespace SyntaxError

/-- The title takes the rows of its parts. -/
theorem lines_drawTitle (message : String) : (drawTitle message .empty).lines =
    titleRows ((showText message.toList).splitOn '\n') := by
  have hdraw : drawTitle message .empty =
      ((showText message.toList).splitOn '\n').zipIdx.foldl Canvas.titlePart
        ((Canvas.empty.append 0 ['e', 'r', 'r', 'o', 'r'] .alarm).append 0 [':', ' '] .emphasis) :=
    rfl
  rw [hdraw]
  cases hparts : (showText message.toList).splitOn '\n' with
  | nil => exact absurd hparts (List.splitOnP_ne_nil _ _)
  | cons part parts =>
    have hword : ((Canvas.empty.append 0 ['e', 'r', 'r', 'o', 'r'] .alarm).append 0 [':', ' ']
        .emphasis).lines = [] ++ ["error: ".toList] := by
      decide +kernel
    have hfirst := Canvas.lines_append_last hword rfl part .emphasis
    have hheight := Canvas.length_lines
      (((Canvas.empty.append 0 ['e', 'r', 'r', 'o', 'r'] .alarm).append 0 [':', ' '] .emphasis).append 0
        part .emphasis)
    rw [List.length_nil] at hfirst
    rw [hfirst] at hheight
    rw [List.zipIdx_cons, List.foldl_cons]
    refine (Canvas.lines_titleParts parts (k := 0) hheight.symm).trans ?_
    rw [hfirst]
    rfl

/-! ### The rows of a report -/

def locationRow (digits : Nat) (path : String) (place : Place) : List Char :=
  List.replicate digits ' ' ++ ("--> ".toList ++ (path ++ (":" ++ place.text)).toList)

theorem lines_drawLocation (frame : Frame) (path : String) (place : Place) (canvas : Canvas) :
    (drawLocation frame (some path) (some place) canvas).lines =
      canvas.lines ++ [locationRow frame.digits path place] := by
  have harrow := Canvas.lines_push_height canvas ['-', '-', '>', ' '] .guide
  have hpath := Canvas.lines_append_last harrow canvas.length_lines
    (path ++ (":" ++ place.text)).toList .plain
  exact Canvas.lines_push_last hpath canvas.length_lines (List.replicate frame.digits ' ') .plain

/-- What extends a page by at least one row. -/
theorem lines_of_extends {base canvas : Canvas} {frame : Frame}
    (h : (base.bar frame base.height).Extends canvas) :
    ∃ row rows, canvas.lines = base.lines ++ row :: rows := by
  have hbase : base.Extends (base.bar frame base.height) :=
    (Canvas.Extends.refl base).bar (Nat.le_refl _)
  obtain ⟨rows, hrows⟩ := hbase.lines.trans h.lines
  cases rows with
  | nil =>
    have hheight : (base.bar frame base.height).height = base.height + 1 := by
      rw [Canvas.bar, Canvas.put, Canvas.height_setRow]
      omega
    have hlen := congrArg List.length hrows
    rw [List.append_nil, Canvas.length_lines, Canvas.length_lines] at hlen
    have hle := h.height_le
    omega
  | cons row rows => exact ⟨row, rows, hrows.symm⟩

/-- A report begins with the title and the location, and goes on with the excerpt. -/
theorem lines_draw (e : SyntaxError) (source : List Char) (path : String) {place : Place}
    (hplace : location? (markLines (sourceLines source) (e.callouts source)) = some place) :
    ∃ digits row rows, (e.draw source (some path)).lines =
      titleRows ((showText e.message.toList).splitOn '\n') ++
        locationRow digits path place :: row :: rows := by
  have hlines : ∀ {frame : Frame} {canvas : Canvas},
      (((drawLocation frame (some path) (some place) (drawTitle e.message .empty)).bar frame
        (drawLocation frame (some path) (some place) (drawTitle e.message .empty)).height)).Extends
          canvas →
      ∃ digits row rows, canvas.lines = titleRows ((showText e.message.toList).splitOn '\n') ++
        locationRow digits path place :: row :: rows := by
    intro frame canvas h
    obtain ⟨row, rows, hrows⟩ := lines_of_extends h
    refine ⟨frame.digits, row, rows, ?_⟩
    rw [hrows, lines_drawLocation, lines_drawTitle, List.append_assoc]
    rfl
  simp only [draw, hplace]
  split
  · exact hlines (((Canvas.Extends.refl _).drawLines _ _).bar (Canvas.Extends.drawLines _ _ (.refl _)).height_le)
  · exact hlines ((Canvas.Extends.refl _).drawLines _ _)

/-- A row in the middle of others stands between two line feeds. -/
theorem intercalate_append {above rows : List (List Char)} {middle row : List Char}
    (h : above ≠ []) : ['\n'].intercalate (above ++ middle :: row :: rows) =
      ['\n'].intercalate above ++ '\n' :: middle ++ '\n' :: ['\n'].intercalate (row :: rows) := by
  cases above with
  | nil => exact absurd rfl h
  | cons first above =>
    rw [List.cons_append, intercalate_cons, intercalate_cons, intercalate_cons]
    simp only [List.flatMap_append, List.flatMap_cons, List.append_assoc, List.cons_append,
      List.nil_append]

/-- What the text of a report begins with. -/
theorem render_eq (e : SyntaxError) (source path : String) {place : Place}
    (hplace : location? (markLines (sourceLines source.toList) (e.callouts source.toList)) =
      some place) :
    ∃ digits rest, e.render source (some path) false = e.title ++ "\n" ++
      String.ofList (List.replicate digits ' ') ++ "--> " ++ path ++ ":" ++ place.text ++ "\n" ++
        rest := by
  obtain ⟨digits, row, rows, hlines⟩ := lines_draw e source.toList path hplace
  have htitle : titleRows ((showText e.message.toList).splitOn '\n') ≠ [] := by
    cases hparts : (showText e.message.toList).splitOn '\n' with
    | nil => exact absurd hparts (List.splitOnP_ne_nil _ _)
    | cons part parts => exact List.cons_ne_nil _ _
  have htext : (e.draw source.toList (some path)).text false = e.title ++ "\n" ++
      String.ofList (List.replicate digits ' ') ++ "--> " ++ path ++ ":" ++ place.text ++ "\n" ++
        String.ofList (['\n'].intercalate (row :: rows)) := by
    have htexts : ∀ rows : List (List Char), rows.map (String.toList ∘ String.ofList) = rows := by
      simp [Function.comp_def]
    rw [← String.toList_inj, Canvas.text_eq_lines, String.toList_intercalate, List.map_map, htexts,
      hlines]
    refine (intercalate_append htitle).trans ?_
    rw [← title_eq_rows, locationRow]
    simp only [String.toList_append, String.toList_ofList, List.append_assoc, List.cons_append]
    rfl
  rw [render]
  cases e.kind.hint? with
  | none => exact ⟨digits, _, htext⟩
  | some hint =>
    refine ⟨digits, String.ofList (['\n'].intercalate (row :: rows)) ++
      ("\n" ++ (drawHint hint).text false), ?_⟩
    simp only [Option.elim_some, htext, String.append_assoc]

end SyntaxError

/-! ### The location of an error -/

namespace Fault.PointsInto

variable {source : List Char} {e : Fault}

/-- No second span shows a line feed. -/
theorem note_ne_lf (h : e.PointsInto source) : ∀ note ∈ e.note,
    ∃ c, c ≠ '\n' ∧ note.2.Covers source [c] := by
  cases h with
  | ending => simp
  | @unterminated composite _ hopener =>
    have hne : composite.opener ≠ '\n' := by cases composite <;> decide
    simpa using ⟨_, hne, hopener⟩
  | duplicate _ hfirst _ => simpa using ⟨'*', by decide, hfirst⟩
  | part _ _ _ => simp

/-- A span of one character that is no line feed lies within one line. -/
theorem inLine {a : Callout} {c : Char} (h : a.span.Covers source [c]) (hc : c ≠ '\n') :
    a.InLine (sourceLines source) := by
  obtain ⟨before, behind, hs, hspan⟩ := h
  have hs' : source = before ++ ([c] ++ behind) := by rw [hs, List.append_assoc]
  have hstart : a.span.start = byteLength before := by rw [hspan]; rfl
  have hstop : a.span.stop = byteLength (before ++ [c]) := by
    rw [hspan, byteLength_append]
    rfl
  rw [Callout.InLine, Callout.ends_fst, Callout.ends_snd_line, startPoint_line]
  split
  · rfl
  · rw [hstart, hstop, (lineAt_shows hs').line, (lineAt_shows hs).line,
      Place.line_shownAt_of_ne_lf hs hc]

/-- A span does not run upwards. -/
theorem ends_line_le {a : Callout} {part : List Char} (h : a.span.Covers source part) :
    (a.ends (sourceLines source)).1.line ≤ (a.ends (sourceLines source)).2.line := by
  obtain ⟨before, behind, hs, hspan⟩ := h
  have hs' : source = before ++ (part ++ behind) := by rw [hs, List.append_assoc]
  have hstart : a.span.start = byteLength before := by rw [hspan]; rfl
  have hstop : a.span.stop = byteLength (before ++ part) := by
    rw [hspan, byteLength_append]
    rfl
  rw [Callout.ends_fst, Callout.ends_snd_line, startPoint_line]
  split
  · exact Nat.le_refl _
  · rw [hstart, hstop, (lineAt_shows hs').line, (lineAt_shows hs).line]
    exact Place.line_shownAt_le hs

/-- The location of a fault is the place that is shown for its start. -/
theorem location? {text : String} (h : e.PointsInto text.toList) :
    SyntaxError.location? (markLines (sourceLines text.toList)
      ((e.toError text).callouts text.toList)) = some (Place.shownAt text.toList e.span.start) := by
  obtain ⟨part, hpart, hend⟩ := h.span
  have hwiden := widen_eq hpart hend
  obtain ⟨before, behind, hs, hspan⟩ := hpart
  have hs' : text.toList = before ++ (part ++ behind) := by rw [hs, List.append_assoc]
  have hstart : e.span.start = byteLength before := by rw [hspan]; rfl
  have hprimary : (e.toError text).callouts text.toList =
      ⟨e.span, (e.toError text).message, true⟩ :: ((e.toError text).related.map fun related =>
        (⟨related.span.widen (byteLength text.toList), related.message, false⟩ : Callout)).toList :=
    congrArg (fun span => (⟨span, _, true⟩ : Callout) :: _) hwiden
  rw [hprimary, location?_markLines rfl (ends_line_le ⟨before, behind, hs, hspan⟩),
    startPoint_eq_shownAt hs' hstart]
  intro b hb
  obtain ⟨related, hrelated, rfl⟩ := Option.map_eq_some_iff.mp (Option.mem_toList.mp hb)
  obtain ⟨note, hnote, rfl⟩ := Option.map_eq_some_iff.mp hrelated
  obtain ⟨c, hc, hcovers⟩ := h.note_ne_lf note hnote
  refine ⟨rfl, inLine (c := c) ?_ hc⟩
  show (note.2.widen (byteLength text.toList)).Covers text.toList [c]
  rw [widen_eq hcovers fun h => absurd h (by simp)]
  exact hcovers

end Fault.PointsInto

/-! ### Locations and places -/

namespace Place

variable {source : List Char}

theorem of_byteLength (source : List Char) : of source (byteLength source) = after source := by
  have htake := takeBytes_append source []
  rw [List.append_nil] at htake
  rw [of, htake]

/-- An excerpt shows an offset at its place, but for the end behind a line feed. -/
theorem shownAt_eq_of_iff (source : List Char) (offset : Nat) :
    shownAt source offset = of source offset ↔
      ¬ (offset = byteLength source ∧ source.getLast? = some '\n') := by
  rw [shownAt]
  by_cases hend : offset = byteLength source
  · subst hend
    rw [if_pos rfl, of_byteLength]
    by_cases hlf : source.getLast? = some '\n'
    · have hline := line_shownEnd source
      rw [if_pos hlf] at hline
      obtain ⟨front, rfl⟩ := List.getLast?_eq_some_iff.mp hlf
      rw [List.dropLast_concat] at hline
      have hnext : (after (front ++ ['\n'])).line = (after front).line + 1 := by
        rw [after_append_singleton]
        rfl
      have hne : shownEnd (front ++ ['\n']) ≠ after (front ++ ['\n']) := by
        intro heq
        rw [heq, hnext] at hline
        omega
      simp [hne]
    · simp [shownEnd, hlf]
  · simp [hend]

end Place

namespace Resource

variable {limit : Option Nat}

/-- Behind the title, a report names the path with a line and a column. They are the place of the
error, unless the error is at the end of a source that ends in a line feed: then they are one
character behind the text of the last line. -/
theorem render_names_location {source : String} {e : SyntaxError} (h : read limit source = .error e)
    (path : String) :
    (∃ digits rest, e.render source (some path) false = e.title ++ "\n" ++
      String.ofList (List.replicate digits ' ') ++ "--> " ++ path ++ ":" ++
        (Place.shownAt source.toList e.span.start).text ++ "\n" ++ rest) ∧
    (Place.shownAt source.toList e.span.start = e.place ↔
      ¬ (e.span.start = byteLength source.toList ∧ source.toList.getLast? = some '\n')) := by
  obtain ⟨fault, hfault, rfl⟩ := read_eq_error_iff.mp h
  have hlocation := (pointsInto_of_ofChars hfault).location?
  exact ⟨SyntaxError.render_eq _ source path hlocation, Place.shownAt_eq_of_iff _ _⟩

/-- The array is opened in the first line and left open at the end of the second. -/
theorem render_names_location_of_open_array : ∃ e, read none "<x [\r\n\t'é' " = .error e ∧
    (∃ digits rest, e.render "<x [\r\n\t'é' " (some "p") false = e.title ++ "\n" ++
      String.ofList (List.replicate digits ' ') ++ "--> " ++ "p" ++ ":" ++
        (Place.shownAt "<x [\r\n\t'é' ".toList e.span.start).text ++ "\n" ++ rest) ∧
    (Place.shownAt "<x [\r\n\t'é' ".toList e.span.start = e.place ↔
      ¬ (e.span.start = byteLength "<x [\r\n\t'é' ".toList ∧
        "<x [\r\n\t'é' ".toList.getLast? = some '\n')) := by
  have h : read none "<x [\r\n\t'é' " = .error ⟨.unterminatedComposite, ⟨12, 12⟩, ⟨2, 6⟩,
      "unterminated composite: expected `]`", some ⟨⟨3, 4⟩, "array started here"⟩⟩ :=
    read_eq_error_iff_error?.mpr (by decide +kernel)
  exact ⟨_, h, render_names_location h "p"⟩

/-- Behind the last line feed, the place is in a line that the report does not have. -/
theorem location_behind_last_line_feed : ∃ e, read (some defaultLimit) "<x\n" = .error e ∧
    e.place = ⟨2, 1⟩ ∧ e.render "<x\n" (some "p") false =
      "error: unexpected end of input\n --> p:1:4\n  |\n1 | <x\n  |   ^ unexpected end of input" := by
  refine ⟨⟨.endOfInput, ⟨3, 3⟩, ⟨2, 1⟩, "unexpected end of input", none⟩,
    read_eq_error_iff_error?.mpr (by decide +kernel), rfl, by decide +kernel⟩

end Resource

end LocaleText
