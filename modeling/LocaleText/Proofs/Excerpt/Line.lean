import LocaleText.Excerpt.Line
import LocaleText.Proofs.Tiling
import LocaleText.Text.Place

/-!
# Lines of an excerpt and places

An excerpt finds the line and the column of an offset by the lines of the source, and a place by the
line feeds before it. The two ways agree wherever a character follows. An excerpt has no line behind
the last line feed: the end of a source that ends in one is shown behind the text of the line before
it.

* `lines_induction` takes a text apart at its line feeds
* `Place.shownAt` is the place of an offset as an excerpt shows it
* `SourceLine.Shows` says that a line shows an offset at a place, and `lineAt_shows` that the line
  which is found for an offset shows it where it should
* `startPoint_eq_shownAt` says so of the point where a span starts
* `Place.line_shownAt_le` and `Place.line_shownAt_of_ne_lf` compare the lines of the two ends of a span
* `pairwise_sourceLines` is the order of the lines
-/

namespace LocaleText

/-! ### Texts by their lines -/

/-- Every text is a line without a line feed, or a line with its line feed before a text. -/
theorem lines_induction {motive : List Char → Prop} (last : ∀ raw, '\n' ∉ raw → motive raw)
    (line : ∀ raw rest, '\n' ∉ raw → motive rest → motive (raw ++ '\n' :: rest)) :
    ∀ text, motive text := by
  intro text
  induction hn : text.length using Nat.strongRecOn generalizing text with
  | _ n ih =>
    by_cases hlf : '\n' ∈ text
    · obtain ⟨raw, rest, rfl, hraw⟩ := List.eq_append_cons_of_mem hlf
      refine line raw rest hraw (ih rest.length ?_ rest rfl)
      rw [← hn, List.length_append, List.length_cons]
      omega
    · exact last text hlf

variable {source front raw rest : List Char}

/-- The first line, and those behind it. -/
theorem splitLines_line (h : '\n' ∉ raw) :
    splitLines (raw ++ '\n' :: rest) = (raw, true) :: splitLines rest := by
  induction raw with
  | nil => rfl
  | cons c raw ih =>
    rw [List.mem_cons, not_or] at h
    rw [List.cons_append, splitLines, if_neg (Ne.symm h.1), ih h.2]

theorem splitLines_last (h : '\n' ∉ raw) (hne : raw ≠ []) : splitLines raw = [(raw, false)] := by
  induction raw with
  | nil => exact absurd rfl hne
  | cons c raw ih =>
    rw [List.mem_cons, not_or] at h
    rw [splitLines, if_neg (Ne.symm h.1)]
    cases raw with
    | nil => rfl
    | cons d raw => rw [ih h.2 (List.cons_ne_nil d raw)]

/-- A line end is a line feed, or one behind a carriage return. -/
theorem cutLineEnd_line (raw : List Char) : ∃ text ending, cutLineEnd raw true = (text, ending) ∧
    (raw = text ∧ ending = 1 ∨ raw = text ++ ['\r'] ∧ ending = 2) := by
  by_cases h : raw.getLast? = some '\r'
  · refine ⟨raw.dropLast, 2, by simp [cutLineEnd, h], .inr ⟨?_, rfl⟩⟩
    obtain ⟨text, rfl⟩ := List.getLast?_eq_some_iff.mp h
    rw [List.dropLast_concat]
  · exact ⟨raw, 1, by simp [cutLineEnd, h], .inl ⟨rfl, rfl⟩⟩

/-! ### Places by lines -/

namespace Place

/-- Within a line only the column goes on. -/
theorem foldl_next_of_not_mem (h : '\n' ∉ raw) (p : Place) :
    raw.foldl next p = ⟨p.line, p.column + raw.length⟩ := by
  induction raw generalizing p with
  | nil => rfl
  | cons c raw ih =>
    rw [List.mem_cons, not_or] at h
    rw [List.foldl_cons, ih h.2, next, if_neg (Ne.symm h.1), List.length_cons, Nat.add_assoc,
      Nat.add_comm 1]

/-- Lines further up do not matter but for their number. -/
theorem foldl_next_shift (k : Nat) (text : List Char) (p : Place) :
    text.foldl next ⟨k + p.line, p.column⟩ =
      ⟨k + (text.foldl next p).line, (text.foldl next p).column⟩ := by
  induction text generalizing p with
  | nil => rfl
  | cons c text ih =>
    simp only [List.foldl_cons]
    rw [← ih]
    by_cases hc : c = '\n'
    · simp only [next, hc, if_true, Nat.add_assoc]
    · simp only [next, hc, if_false]

theorem after_of_not_mem (h : '\n' ∉ raw) : after raw = ⟨1, 1 + raw.length⟩ :=
  foldl_next_of_not_mem h first

/-- A line feed begins a line with the first column. -/
theorem after_line (h : '\n' ∉ raw) (text : List Char) :
    after (raw ++ '\n' :: text) = ⟨1 + (after text).line, (after text).column⟩ := by
  rw [after, List.foldl_append, foldl_next_of_not_mem h, List.foldl_cons]
  exact foldl_next_shift 1 text first

/-- Where an excerpt shows the end of a source: behind its last character, or, if that is a line feed,
one character behind the text of its line. -/
def shownEnd (source : List Char) : Place :=
  if source.getLast? = some '\n' then
    let p := after (cutLineEnd source.dropLast true).1
    ⟨p.line, p.column + 1⟩
  else after source

/-- The place that an excerpt shows for an offset. -/
def shownAt (source : List Char) (offset : Nat) : Place :=
  if offset = byteLength source then shownEnd source else of source offset

/-- In front of a character an excerpt shows the place. -/
theorem shownAt_of_ne_nil (hs : source = front ++ rest) (hrest : rest ≠ []) :
    shownAt source (byteLength front) = after front := by
  have hpos := byteLength_pos hrest
  have hne : byteLength front ≠ byteLength source := by
    rw [hs, byteLength_append]
    omega
  rw [shownAt, if_neg hne, Place.of, hs, takeBytes_append]

theorem shownAt_byteLength (source : List Char) :
    shownAt source (byteLength source) = shownEnd source := if_pos rfl

theorem shownEnd_of_not_mem (h : '\n' ∉ raw) : shownEnd raw = after raw :=
  if_neg fun hlast => h (List.mem_of_getLast? hlast)

/-- Behind a last line feed it shows the column behind the text of the line. -/
theorem shownEnd_lf (h : '\n' ∉ raw) {text : List Char} {ending : Nat}
    (hcut : cutLineEnd raw true = (text, ending)) :
    shownEnd (raw ++ ['\n']) = ⟨1, 1 + text.length + 1⟩ := by
  have htext : '\n' ∉ text := by
    obtain ⟨text', ending', hcut', hraw⟩ := cutLineEnd_line raw
    obtain ⟨rfl, -⟩ := Prod.mk.inj (hcut.symm.trans hcut')
    intro hmem
    rcases hraw with ⟨rfl, -⟩ | ⟨rfl, -⟩
    · exact h hmem
    · exact h (List.mem_append_left _ hmem)
  rw [shownEnd, if_pos List.getLast?_concat, List.dropLast_concat, hcut, after_of_not_mem htext]

theorem shownEnd_line (h : '\n' ∉ raw) (hne : rest ≠ []) : shownEnd (raw ++ '\n' :: rest) =
    ⟨1 + (shownEnd rest).line, (shownEnd rest).column⟩ := by
  have hlast : (raw ++ '\n' :: rest).getLast? = rest.getLast? := by
    rw [List.getLast?_append, List.getLast?_cons_of_ne_nil hne, List.getLast?_eq_some_getLast hne]
    rfl
  have hdrop : (raw ++ '\n' :: rest).dropLast = raw ++ '\n' :: rest.dropLast := by
    rw [List.dropLast_append_of_ne_nil (List.cons_ne_nil _ _), List.dropLast_cons_of_ne_nil hne]
  have hcut : ∀ text, (cutLineEnd (raw ++ '\n' :: text) true).1 =
      raw ++ '\n' :: (cutLineEnd text true).1 := by
    intro text
    cases text with
    | nil => simp [cutLineEnd]
    | cons c cs =>
      have hlast' : (raw ++ '\n' :: c :: cs).getLast? = (c :: cs).getLast? := by
        rw [List.getLast?_append, List.getLast?_cons_of_ne_nil (List.cons_ne_nil c cs),
          List.getLast?_eq_some_getLast (List.cons_ne_nil c cs)]
        rfl
      simp only [cutLineEnd, hlast', Bool.not_true, Bool.false_eq_true, if_false]
      split
      · rw [List.dropLast_append_of_ne_nil (List.cons_ne_nil _ _),
          List.dropLast_cons_of_ne_nil (List.cons_ne_nil c cs)]
      · rfl
  rw [shownEnd, shownEnd, hlast, hdrop]
  split
  · rw [hcut, after_line h]
  · exact after_line h rest

end Place

/-! ### The lines that an excerpt finds -/

/-- A line shows an offset at a place. -/
structure SourceLine.Shows (l : SourceLine) (offset : Nat) (p : Place) : Prop where
  line : l.number = p.line
  column : (takeBytes (offset - l.start) l.text).length +
    (if byteLength l.text < offset - l.start then 1 else 0) + 1 = p.column

theorem takeBytes_byteLength_add (text : List Char) (n : Nat) :
    takeBytes (byteLength text + n) text = text := by
  induction text with
  | nil => rfl
  | cons c cs ih =>
    rw [byteLength_cons, takeBytes, if_pos (by omega), show c.utf8Size + byteLength cs + n - c.utf8Size =
      byteLength cs + n by omega, ih]

namespace SourceLine

variable {number start stop ending : Nat} {text before behind : List Char}

/-- An offset within the text of a line. -/
theorem shows_of_append (h : text = before ++ behind) :
    Shows ⟨number, text, start, stop, ending⟩ (start + byteLength before)
      ⟨number, 1 + before.length⟩ := by
  refine ⟨rfl, ?_⟩
  have hle : ¬ byteLength text < byteLength before := by
    rw [h, byteLength_append]
    omega
  simp only [Nat.add_sub_cancel_left, if_neg hle]
  rw [h, takeBytes_append, Nat.add_zero, Nat.add_comm]

/-- An offset behind the text of a line. -/
theorem shows_behind {n : Nat} (hn : 0 < n) :
    Shows ⟨number, text, start, stop, ending⟩ (start + (byteLength text + n))
      ⟨number, 1 + text.length + 1⟩ := by
  refine ⟨rfl, ?_⟩
  simp only [Nat.add_sub_cancel_left, if_pos (Nat.lt_add_of_pos_right hn),
    takeBytes_byteLength_add]
  omega

end SourceLine

/-- The numbered lines of a text that begins with a line, and the length of that line. -/
theorem numberLines_line (rest : List Char) (number start : Nat) (h : '\n' ∉ raw) : ∃ text ending,
    numberLines number start (splitLines (raw ++ '\n' :: rest)) =
      ⟨number, text, start, start + (byteLength raw + 1), ending⟩ ::
        numberLines (number + 1) (start + (byteLength raw + 1)) (splitLines rest) ∧
    cutLineEnd raw true = (text, ending) ∧ (raw = text ∨ raw = text ++ ['\r']) := by
  obtain ⟨text, ending, hcut, hraw⟩ := cutLineEnd_line raw
  refine ⟨text, ending, ?_, hcut, hraw.imp And.left And.left⟩
  have hstop : start + byteLength text + ending = start + (byteLength raw + 1) := by
    rcases hraw with ⟨rfl, rfl⟩ | ⟨rfl, rfl⟩
    · omega
    · have hcr : byteLength ['\r'] = 1 := rfl
      rw [byteLength_append, hcr]
      omega
  rw [splitLines_line h]
  simp only [numberLines, hcut, hstop]

theorem numberLines_last (number start : Nat) (h : '\n' ∉ raw) (hne : raw ≠ []) :
    numberLines number start (splitLines raw) =
      [⟨number, raw, start, start + byteLength raw, 0⟩] := by
  rw [splitLines_last h hne]
  rfl

/-- The place of an offset, counted from a line on. -/
def Place.down (p : Place) (lines : Nat) : Place := ⟨lines + p.line, p.column⟩

/-- An offset within a line, or at its line feed. -/
theorem shows_of_line {number start stop ending : Nat} {text behind : List Char} (h : '\n' ∉ raw)
    (hraw : raw = text ∨ raw = text ++ ['\r']) (hbehind : raw = front ++ behind) :
    SourceLine.Shows ⟨number + 1, text, start, stop, ending⟩ (start + byteLength front)
      ((Place.after front).down number) := by
  have hfront : '\n' ∉ front := fun hmem => h (hbehind ▸ List.mem_append_left _ hmem)
  rw [Place.after_of_not_mem hfront]
  rcases hraw with rfl | hraw
  · exact SourceLine.shows_of_append hbehind
  · rcases List.eq_nil_or_concat behind with rfl | ⟨behind, c, rfl⟩
    · have hcr : front = text ++ ['\r'] := by rw [← hraw, hbehind, List.append_nil]
      rw [hcr, byteLength_append, List.length_append]
      exact SourceLine.shows_behind (n := byteLength ['\r']) (by decide)
    · rw [hbehind, List.concat_eq_append, ← List.append_assoc] at hraw
      exact SourceLine.shows_of_append (List.append_inj_left' hraw rfl).symm

/-- The line of an offset before which a character stands is found. By induction on the lines. -/
theorem find?_numberLines (source : List Char) : ∀ (number start : Nat) {front rest : List Char},
    source = front ++ rest → rest ≠ [] →
    ∃ l, (numberLines (number + 1) start (splitLines source)).find?
        (fun l => l.start ≤ start + byteLength front && start + byteLength front < l.stop) = some l ∧
      l.Shows (start + byteLength front) ((Place.after front).down number) := by
  induction source using lines_induction with
  | last raw h =>
    intro number start front rest hs hrest
    have hne : raw ≠ [] := by
      intro hnil
      rw [hnil] at hs
      exact hrest (List.append_eq_nil_iff.mp hs.symm).2
    have hfront : '\n' ∉ front := fun hmem => h (hs ▸ List.mem_append_left _ hmem)
    have hpos := byteLength_pos hrest
    have hlen : byteLength raw = byteLength front + byteLength rest := by
      rw [hs, byteLength_append]
    refine ⟨⟨number + 1, raw, start, start + byteLength raw, 0⟩, ?_, ?_⟩
    · rw [numberLines_last _ _ h hne, List.find?_cons_of_pos]
      simp only [Bool.and_eq_true, decide_eq_true_eq]
      omega
    · rw [Place.after_of_not_mem hfront]
      exact SourceLine.shows_of_append hs
  | line raw more h ih =>
    intro number start front rest hs hrest
    obtain ⟨text, ending, hlines, -, hraw⟩ := numberLines_line more (number + 1) start h
    rcases List.append_eq_append_iff.mp hs with ⟨behind, hfront, hbehind⟩ | ⟨behind, hbehind, -⟩
    · cases behind with
      | nil =>
        rw [List.append_nil] at hfront
        subst hfront
        refine ⟨⟨number + 1, text, start, start + (byteLength front + 1), ending⟩, ?_, ?_⟩
        · rw [hlines, List.find?_cons_of_pos]
          simp only [Bool.and_eq_true, decide_eq_true_eq]
          omega
        · exact shows_of_line h hraw (List.append_nil front).symm
      | cons c front' =>
        obtain ⟨rfl, rfl⟩ := List.cons.inj hbehind
        have hlen : start + byteLength front =
            start + (byteLength raw + 1) + byteLength front' := by
          have hlf : ('\n').utf8Size = 1 := rfl
          rw [hfront, byteLength_append, byteLength_cons, hlf]
          omega
        obtain ⟨l, hfind, hshows⟩ := ih (number + 1)
          (start + (byteLength raw + 1)) rfl hrest
        rw [← hlen] at hfind hshows
        refine ⟨l, ?_, ?_⟩
        · rw [hlines, List.find?_cons_of_neg, hfind]
          simp only [Bool.and_eq_true, decide_eq_true_eq]
          omega
        · have hplace : (Place.after front).down number =
              (Place.after front').down (number + 1) := by
            rw [hfront, Place.after_line h]
            simp only [Place.down, Nat.add_assoc]
          rwa [hplace]
    · refine ⟨⟨number + 1, text, start, start + (byteLength raw + 1), ending⟩, ?_, ?_⟩
      · have hlen : byteLength raw = byteLength front + byteLength behind := by
          rw [hbehind, byteLength_append]
        rw [hlines, List.find?_cons_of_pos]
        simp only [Bool.and_eq_true, decide_eq_true_eq]
        omega
      · exact shows_of_line h hraw hbehind

/-- No line goes on behind the end of the source. -/
theorem stop_le_of_mem_numberLines (source : List Char) : ∀ {number start : Nat},
    ∀ l ∈ numberLines number start (splitLines source), l.stop ≤ start + byteLength source := by
  induction source using lines_induction with
  | last raw h =>
    intro number start l hl
    by_cases hne : raw = []
    · subst hne
      exact absurd hl (by simp [splitLines, numberLines])
    · rw [numberLines_last _ _ h hne, List.mem_singleton] at hl
      exact Nat.le_of_eq (by rw [hl])
  | line raw more h ih =>
    intro number start l hl
    obtain ⟨text, ending, hlines, -, -⟩ := numberLines_line more number start h
    have hlf : ('\n').utf8Size = 1 := rfl
    rw [byteLength_append, byteLength_cons, hlf]
    rw [hlines] at hl
    rcases List.mem_cons.mp hl with rfl | hl
    · show start + (byteLength raw + 1) ≤ _
      omega
    · have hle := ih l hl
      omega

/-- The last line shows the end of the source. By induction on the lines. -/
theorem getLast?_numberLines (source : List Char) : ∀ (number start : Nat), source ≠ [] →
    ∃ l, (numberLines (number + 1) start (splitLines source)).getLast? = some l ∧
      l.Shows (start + byteLength source) ((Place.shownEnd source).down number) := by
  induction source using lines_induction with
  | last raw h =>
    intro number start hne
    refine ⟨⟨number + 1, raw, start, start + byteLength raw, 0⟩, ?_, ?_⟩
    · rw [numberLines_last _ _ h hne]
      rfl
    · rw [Place.shownEnd_of_not_mem h, Place.after_of_not_mem h]
      exact SourceLine.shows_of_append (List.append_nil raw).symm
  | line raw more h ih =>
    intro number start _
    obtain ⟨text, ending, hlines, hcut, hraw⟩ :=
      numberLines_line more (number + 1) start h
    have hlf : ('\n').utf8Size = 1 := rfl
    by_cases hmore : more = []
    · subst hmore
      refine ⟨_, by rw [hlines]; rfl, ?_⟩
      rw [Place.shownEnd_lf h hcut, byteLength_append, byteLength_cons, hlf, byteLength_nil]
      rcases hraw with rfl | hraw
      · exact SourceLine.shows_behind Nat.one_pos
      · rw [hraw, byteLength_append, Nat.add_assoc]
        exact SourceLine.shows_behind (by decide)
    · obtain ⟨l, hlast, hshows⟩ := ih (number + 1) (start + (byteLength raw + 1)) hmore
      refine ⟨l, ?_, ?_⟩
      · have hne : numberLines (number + 1 + 1) (start + (byteLength raw + 1)) (splitLines more) ≠ [] := by
          intro hnil
          rw [hnil] at hlast
          exact absurd hlast (by simp)
        rw [hlines, List.getLast?_cons_of_ne_nil hne, hlast]
      · have hlen : start + byteLength (raw ++ '\n' :: more) =
            start + (byteLength raw + 1) + byteLength more := by
          rw [byteLength_append, byteLength_cons, hlf]
          omega
        have hplace : (Place.shownEnd (raw ++ '\n' :: more)).down number =
            (Place.shownEnd more).down (number + 1) := by
          rw [Place.shownEnd_line h hmore]
          simp only [Place.down, Nat.add_assoc]
        rw [hlen, hplace]
        exact hshows

/-! ### Lines and points of a source -/

/-- The lines of a source that is not empty. -/
theorem sourceLines_of_ne_nil (h : source ≠ []) :
    sourceLines source = numberLines 1 0 (splitLines source) := by
  rw [sourceLines, if_neg (by simpa using h)]

/-- The line of an offset shows it at the place that is shown for it. -/
theorem lineAt_shows (hs : source = front ++ rest) :
    (lineAt (sourceLines source) (byteLength front)).Shows (byteLength front)
      (Place.shownAt source (byteLength front)) := by
  by_cases hsource : source = []
  · obtain ⟨rfl, rfl⟩ := List.append_eq_nil_iff.mp (hs.symm.trans hsource)
    subst hsource
    exact ⟨rfl, rfl⟩
  have hdown : ∀ p : Place, p.down 0 = p := fun p => by simp [Place.down]
  rw [sourceLines_of_ne_nil hsource, lineAt]
  by_cases hrest : rest = []
  · obtain rfl : source = front := by rw [hs, hrest, List.append_nil]
    obtain ⟨l, hlast, hshows⟩ := getLast?_numberLines source 0 0 hsource
    have hnone : (numberLines 1 0 (splitLines source)).find? (fun l =>
        l.start ≤ byteLength source && byteLength source < l.stop) = none := by
      rw [List.find?_eq_none]
      intro l hl
      have hle := stop_le_of_mem_numberLines source l hl
      simp only [Bool.and_eq_true, decide_eq_true_eq]
      omega
    rw [hnone, Option.getD_none, List.getLastD_eq_getLast?, hlast, Option.getD_some,
      Place.shownAt_byteLength]
    rwa [Nat.zero_add, hdown] at hshows
  · obtain ⟨l, hfind, hshows⟩ := find?_numberLines source 0 0 hs hrest
    rw [Nat.zero_add] at hfind hshows
    rw [hfind, Option.getD_some, Place.shownAt_of_ne_nil hs hrest]
    rwa [hdown] at hshows

/-- Where a span starts, an excerpt points at the place that is shown for it. -/
theorem startPoint_eq_shownAt {span : Span} (hs : source = front ++ rest)
    (hstart : span.start = byteLength front) :
    (⟨(startPoint (sourceLines source) span).line, (startPoint (sourceLines source) span).char + 1⟩ :
      Place) = Place.shownAt source span.start := by
  have hshows := lineAt_shows hs
  rw [← hstart] at hshows
  obtain ⟨hline, hcolumn⟩ := hshows
  have heta : Place.shownAt source span.start = ⟨(Place.shownAt source span.start).line,
      (Place.shownAt source span.start).column⟩ := rfl
  rw [heta, ← hline, ← hcolumn]
  simp only [startPoint, pointAt]
  split <;> rfl

/-! ### The two ends of a span -/

namespace Place

variable {text : List Char} {c : Char}

/-- Lines do not go back. -/
theorem line_le_next (p : Place) (c : Char) : p.line ≤ (p.next c).line := by
  rw [next]
  split
  · exact Nat.le_succ p.line
  · exact Nat.le_refl p.line

theorem line_next_of_ne (h : c ≠ '\n') (p : Place) : (p.next c).line = p.line := by
  rw [next, if_neg h]

/-- By induction on what comes behind. -/
theorem line_after_append (front text : List Char) :
    (after front).line ≤ (after (front ++ text)).line := by
  rw [after, after, List.foldl_append]
  generalize front.foldl next first = p
  induction text generalizing p with
  | nil => exact Nat.le_refl _
  | cons c text ih => exact Nat.le_trans (line_le_next p c) (ih (p.next c))

/-- A last line feed begins no line. -/
theorem line_shownEnd (source : List Char) :
    (shownEnd source).line = (after (if source.getLast? = some '\n' then source.dropLast
      else source)).line := by
  rw [shownEnd]
  split
  · obtain ⟨text, ending, hcut, hraw⟩ := cutLineEnd_line source.dropLast
    rw [hcut]
    rcases hraw with ⟨hraw, -⟩ | ⟨hraw, -⟩
    · rw [hraw]
    · rw [hraw, after_append_singleton, line_next_of_ne (by decide)]
  · rfl

/-- A later offset is not shown further up. -/
theorem line_shownAt_le (hs : source = front ++ text ++ rest) :
    (shownAt source (byteLength front)).line ≤
      (shownAt source (byteLength (front ++ text))).line := by
  have hs' : source = front ++ (text ++ rest) := by rw [hs, List.append_assoc]
  by_cases hrest : rest = []
  · obtain rfl : source = front ++ text := by rw [hs, hrest, List.append_nil]
    by_cases htext : text = []
    · exact Nat.le_of_eq (by rw [htext, List.append_nil])
    · rw [shownAt_of_ne_nil hs' (by simp [htext]), shownAt_byteLength, line_shownEnd]
      split
      · rw [List.dropLast_append_of_ne_nil htext]
        exact line_after_append front text.dropLast
      · exact line_after_append front text
  · rw [shownAt_of_ne_nil hs' (by simp [hrest]), shownAt_of_ne_nil hs hrest]
    exact line_after_append front text

/-- Behind a character that is no line feed, the line is the same. -/
theorem line_shownAt_of_ne_lf (hs : source = front ++ [c] ++ rest) (hc : c ≠ '\n') :
    (shownAt source (byteLength (front ++ [c]))).line = (shownAt source (byteLength front)).line := by
  have hs' : source = front ++ ([c] ++ rest) := by rw [hs, List.append_assoc]
  have hsame : (after (front ++ [c])).line = (after front).line := by
    rw [after_append_singleton, line_next_of_ne hc]
  rw [shownAt_of_ne_nil hs' (by simp)]
  by_cases hrest : rest = []
  · obtain rfl : source = front ++ [c] := by rw [hs, hrest, List.append_nil]
    rw [shownAt_byteLength, shownEnd, if_neg (by simpa using hc), hsame]
  · rw [shownAt_of_ne_nil hs hrest, hsame]

end Place

/-! ### Numbers of lines -/

theorem map_number_numberLines (lines : List (List Char × Bool)) (number start : Nat) :
    (numberLines number start lines).map SourceLine.number = List.range' number lines.length := by
  induction lines generalizing number start with
  | nil => rfl
  | cons line lines ih =>
    obtain ⟨raw, ended⟩ := line
    simp only [numberLines, List.map_cons, ih, List.length_cons, List.range'_succ]

/-- Lines are numbered from top to bottom. -/
theorem pairwise_sourceLines (source : List Char) :
    (sourceLines source).Pairwise fun l l' => l.number < l'.number := by
  by_cases h : source = []
  · rw [h]
    exact List.pairwise_singleton _ _
  · rw [sourceLines_of_ne_nil h, ← List.pairwise_map, map_number_numberLines]
    exact List.pairwise_lt_range'

theorem sourceLines_ne_nil (source : List Char) : sourceLines source ≠ [] := by
  by_cases h : source = []
  · rw [h]
    exact List.cons_ne_nil _ _
  · rw [sourceLines_of_ne_nil h]
    intro hnil
    obtain ⟨l, hlast, -⟩ := getLast?_numberLines source 0 0 h
    rw [hnil] at hlast
    exact absurd hlast (by simp)

theorem lineAt_mem {lines : List SourceLine} (h : lines ≠ []) (offset : Nat) :
    lineAt lines offset ∈ lines := by
  rw [lineAt]
  cases hfind : lines.find? fun l => l.start ≤ offset && offset < l.stop with
  | some l => exact List.mem_of_find?_eq_some hfind
  | none =>
    rw [Option.getD_none, List.getLastD_eq_getLast?, List.getLast?_eq_some_getLast h]
    exact List.getLast_mem h

end LocaleText
