import LocaleText.Proofs.Pointing.Reading
import LocaleText.Proofs.Place

/-!
# The spans that a report shows

A report shows the spans of an error with room for a caret. An error may be put together by hand,
with any spans, so an empty one can be anywhere in the source.

* `Span.isWhole_iff` and `Span.exists_covers_iff` decide whether a span is one of whole characters
* `Span.BeforeWide` are the empty spans in front of a character of several bytes
* `Span.WidensTo` says what becomes of a span of whole characters
* `SyntaxError.report_callouts` is the result: an empty span is widened by a byte, and that is a
  character only if the character is a byte
* `Resource.render?_of_read` says that errors of the reader never run into that
-/

namespace LocaleText

variable {source : List Char}

/-! ### Boundaries -/

/-- An offset is between characters exactly when a cut there stops at it. -/
theorem isBoundary_iff {offset : Nat} (h : offset ≤ byteLength source) :
    IsBoundary source offset ↔
      byteLength (takeBytes offset source) = min offset (byteLength source) := by
  rw [Nat.min_eq_left h]
  constructor
  · rintro ⟨before, behind, rfl, rfl⟩
    rw [takeBytes_append]
  · intro hbytes
    exact ⟨_, _, (takeBytes_append_dropBytes offset source).symm, hbytes.symm⟩

theorem eq_nil_of_byteLength_eq_zero {text : List Char} (h : byteLength text = 0) : text = [] := by
  cases text with
  | nil => rfl
  | cons c cs => exact absurd h (Nat.ne_of_gt (byteLength_pos (List.cons_ne_nil c cs)))

/-- What is behind an offset is decided by the number of bytes before it. -/
theorem behind_unique {front front' rest rest' : List Char} (h : front ++ rest = front' ++ rest')
    (hlen : byteLength front = byteLength front') : rest = rest' := by
  rw [← dropBytes_append front rest, h, hlen, dropBytes_append]

/-- Of two beginnings of a text, the one of no more bytes is a beginning of the other. -/
theorem prefix_of_byteLength_le {front front' : List Char} (h : front <+: source)
    (h' : front' <+: source) (hle : byteLength front ≤ byteLength front') : front <+: front' := by
  rcases List.prefix_or_prefix_of_prefix h h' with h | ⟨rest, rfl⟩
  · exact h
  · rw [byteLength_append] at hle
    obtain rfl : rest = [] := eq_nil_of_byteLength_eq_zero (by omega)
    exact ⟨[], by simp⟩

namespace Span

variable {s t : Span} {part before behind : List Char} {c : Char} {limit : Nat}

/-- A span of whole characters is one between two boundaries. -/
theorem exists_covers_iff : (∃ part, s.Covers source part) ↔
    s.start ≤ s.stop ∧ IsBoundary source s.start ∧ IsBoundary source s.stop := by
  constructor
  · rintro ⟨part, h⟩
    refine ⟨h.ordered, ?_, ?_⟩
    · obtain ⟨before, behind, hs, rfl⟩ := h
      exact ⟨before, part ++ behind, by rw [hs, List.append_assoc], rfl⟩
    · obtain ⟨before, behind, hs, rfl⟩ := h
      exact ⟨before ++ part, behind, hs, (byteLength_append before part).symm⟩
  · rintro ⟨hle, ⟨before, rest, hs, hstart⟩, ⟨front, behind, hs', hstop⟩⟩
    obtain ⟨part, rfl⟩ := prefix_of_byteLength_le ⟨rest, hs.symm⟩ ⟨behind, hs'.symm⟩
      (by rwa [hstart, hstop] at hle)
    refine ⟨part, before, behind, hs', ?_⟩
    obtain ⟨start, stop⟩ := s
    rw [byteLength_append] at hstop
    exact (Span.mk.injEq ..).mpr ⟨hstart, hstop⟩

/-- Whether a span is whole can be read off the text. -/
theorem isWhole_iff (hle : s.start ≤ s.stop) (hstop : s.stop ≤ byteLength source) :
    s.isWhole source = true ↔ ∃ part, s.Covers source part := by
  have hcut : s.isWhole source = true ↔ IsBoundary source s.start ∧ IsBoundary source s.stop := by
    rw [isBoundary_iff (Nat.le_trans hle hstop), isBoundary_iff hstop]
    simp [isWhole]
  rw [hcut, exists_covers_iff]
  exact ⟨fun h => ⟨hle, h⟩, fun h => h.2⟩

theorem Covers.isWhole (h : s.Covers source part) : s.isWhole source = true :=
  (isWhole_iff h.ordered h.stop_le).mpr ⟨part, h⟩

/-! ### Room for a caret -/

/-- An empty span in front of a character that takes several bytes. -/
def BeforeWide (source : List Char) (s : Span) : Prop :=
  ∃ before c behind, source = before ++ c :: behind ∧ s = .empty (byteLength before) ∧
    1 < c.utf8Size

theorem widen_of_ne (h : s.start ≠ s.stop) (limit : Nat) : s.widen limit = s := if_neg h

/-- At the end there is nothing to be widened to. -/
theorem widen_empty_end : (empty limit).widen limit = empty limit := by
  rw [widen, empty, if_pos rfl, Nat.min_eq_right (Nat.le_succ _)]

/-- An empty span is widened by a byte, whatever character comes next. -/
theorem widen_empty_before (hs : source = before ++ c :: behind) :
    (empty (byteLength before)).widen (byteLength source) =
      ⟨byteLength before, byteLength before + 1⟩ := by
  have hpos := c.utf8Size_pos
  have hle : byteLength before + 1 ≤ byteLength source := by
    rw [hs, byteLength_append, byteLength_cons]
    omega
  rw [widen, empty, if_pos rfl, Nat.min_eq_left hle]

/-- The byte at the start of a character is a part of the text only if it is that character. -/
theorem covers_byte_iff (hs : source = before ++ c :: behind) :
    Covers ⟨byteLength before, byteLength before + 1⟩ source part ↔
      c.utf8Size = 1 ∧ part = [c] := by
  constructor
  · rintro ⟨front, rest, hs', hspan⟩
    obtain ⟨hfront, hpart⟩ := Span.mk.inj hspan
    have hrest : c :: behind = part ++ rest :=
      behind_unique (by rw [← hs, hs', List.append_assoc]) hfront
    have hsize := c.utf8Size_pos
    cases part with
    | nil =>
      rw [byteLength_nil] at hpart
      omega
    | cons d part =>
      obtain ⟨rfl, -⟩ := List.cons.inj hrest
      rw [byteLength_cons] at hpart
      have hempty : byteLength part = 0 := by omega
      rw [eq_nil_of_byteLength_eq_zero hempty]
      exact ⟨by omega, rfl⟩
  · rintro ⟨hsize, rfl⟩
    refine ⟨before, behind, by rw [hs, List.append_assoc]; rfl, ?_⟩
    rw [extent, byteLength_cons, byteLength_nil, hsize]

/-- What a span of whole characters is shown as. -/
structure WidensTo (source : List Char) (s t : Span) : Prop where
  /-- A span with a character in it is shown as it is, -/
  of_ne : s.start ≠ s.stop → t = s
  /-- and so is the end of the source. -/
  atEnd : s = empty (byteLength source) → t = s
  /-- An empty one in front of a character gets a byte, which may be less than the character. -/
  before : ∀ before c behind, source = before ++ c :: behind → s = empty (byteLength before) →
    t = ⟨s.start, s.start + 1⟩ ∧ (t.Covers source [c] ↔ c.utf8Size = 1)
  /-- That is the only way to split a character. -/
  whole : (∃ part, t.Covers source part) ↔ ¬ s.BeforeWide source

theorem BeforeWide.start_lt (h : s.BeforeWide source) :
    s.start = s.stop ∧ s.start < byteLength source := by
  obtain ⟨before, c, behind, rfl, rfl, -⟩ := h
  have hpos := c.utf8Size_pos
  simp only [empty, byteLength_append, byteLength_cons, true_and]
  omega

theorem beforeWide_empty_iff (hs : source = before ++ c :: behind) :
    (empty (byteLength before)).BeforeWide source ↔ 1 < c.utf8Size := by
  constructor
  · rintro ⟨before', d, behind', hs', hspan, hwide⟩
    have hbehind := behind_unique (hs.symm.trans hs') (Span.mk.inj hspan).1
    rwa [(List.cons.inj hbehind).1]
  · exact fun hwide => ⟨before, c, behind, hs, rfl, hwide⟩

/-- A span without a character is at the end or in front of a character. -/
theorem Covers.empty_or (h : s.Covers source []) : s = empty (byteLength source) ∨
    ∃ before c behind, source = before ++ c :: behind ∧ s = empty (byteLength before) := by
  obtain ⟨before, behind, hs, rfl⟩ := h
  rw [List.append_nil] at hs
  cases behind with
  | nil => exact .inl (by rw [hs, List.append_nil]; rfl)
  | cons c behind => exact .inr ⟨before, c, behind, hs, rfl⟩

theorem Covers.start_ne_stop (h : s.Covers source part) (hpart : part ≠ []) : s.start ≠ s.stop := by
  have hpos := byteLength_pos hpart
  have hstop := h.stop_eq
  omega

/-- What a span of whole characters is shown as, by where it is and how long. -/
theorem Covers.widensTo (h : s.Covers source part) :
    s.WidensTo source (s.widen (byteLength source)) := by
  refine ⟨fun hne => widen_of_ne hne _, ?_, ?_, ?_⟩
  · rintro rfl
    exact widen_empty_end
  · rintro before c behind hs rfl
    rw [widen_empty_before hs, covers_byte_iff hs]
    exact ⟨rfl, and_iff_left rfl⟩
  · by_cases hpart : part = []
    · subst hpart
      rcases h.empty_or with rfl | ⟨before, c, behind, hs, rfl⟩
      · rw [widen_empty_end]
        exact iff_of_true ⟨[], h⟩ fun hwide => absurd hwide.start_lt.2 (Nat.lt_irrefl _)
      · have hpos := c.utf8Size_pos
        rw [widen_empty_before hs, beforeWide_empty_iff hs]
        simp only [covers_byte_iff hs, exists_eq_right]
        omega
    · have hne := h.start_ne_stop hpart
      rw [widen_of_ne hne]
      exact iff_of_true ⟨part, h⟩ fun hwide => absurd hwide.start_lt.1 hne

/-- Whole or not, what is shown does not go beyond the source. -/
theorem Covers.widen_le (h : s.Covers source part) :
    (s.widen (byteLength source)).start ≤ (s.widen (byteLength source)).stop ∧
      (s.widen (byteLength source)).stop ≤ byteLength source := by
  have hle := h.ordered
  have hstop := h.stop_le
  rw [widen]
  split
  · simp only
    omega
  · exact ⟨hle, hstop⟩

end Span

namespace SyntaxError

def spans (e : SyntaxError) : List Span := e.span :: (e.related.map Related.span).toList

theorem callouts_map_span (e : SyntaxError) (source : List Char) :
    (e.callouts source).map Callout.span = e.spans.map fun s => s.widen (byteLength source) := by
  rw [callouts, spans]
  cases e.related <;> rfl

/-- There is a report unless an empty span is in front of a wide character. -/
theorem render?_isSome_iff {e : SyntaxError} {source : String}
    (h : ∀ s ∈ e.spans, ∃ part, s.Covers source.toList part) (path : Option String)
    (coloured : Bool) :
    (e.render? source path coloured).isSome = true ↔
      ∀ s ∈ e.spans, ¬ s.BeforeWide source.toList := by
  have hall : ((e.callouts source.toList).all fun callout => callout.span.isWhole source.toList) =
      e.spans.all fun s => (s.widen (byteLength source.toList)).isWhole source.toList := by
    have hmap := congrArg (List.all · (Span.isWhole · source.toList))
      (e.callouts_map_span source.toList)
    simpa only [List.all_map, Function.comp_def] using hmap
  rw [render?, hall, Option.isSome_ite, List.all_eq_true]
  refine forall₂_congr fun s hs => ?_
  obtain ⟨part, hpart⟩ := h s hs
  rw [Span.isWhole_iff hpart.widen_le.1 hpart.widen_le.2]
  exact hpart.widensTo.whole

/-- An error that is put together of spans of whole characters shows them as `Span.WidensTo` says. So
there is a report unless one of them is an empty one in front of a character of several bytes. -/
theorem report_callouts {source : String} {span : Span} {related : Option Related}
    (kind : FaultKind) (detail : Option String) (hspan : ∃ part, span.Covers source.toList part)
    (hrelated : ∀ note ∈ related, ∃ part, note.span.Covers source.toList part) :
    ((report source kind span detail related).callouts source.toList).map Callout.span =
        (span :: (related.map Related.span).toList).map (Span.widen · (byteLength source.toList)) ∧
    (∀ s ∈ span :: (related.map Related.span).toList,
      s.WidensTo source.toList (s.widen (byteLength source.toList))) ∧
    ∀ path coloured,
      ((report source kind span detail related).render? source path coloured).isSome = true ↔
        ∀ s ∈ span :: (related.map Related.span).toList, ¬ s.BeforeWide source.toList := by
  have hcovers : ∀ s ∈ (report source kind span detail related).spans,
      ∃ part, s.Covers source.toList part := by
    intro s hs
    rcases List.mem_cons.mp hs with rfl | hs
    · exact hspan
    · obtain ⟨note, hnote, rfl⟩ := Option.map_eq_some_iff.mp (Option.mem_toList.mp hs)
      exact hrelated note hnote
  refine ⟨callouts_map_span _ _, fun s hs => ?_, render?_isSome_iff hcovers⟩
  obtain ⟨part, hpart⟩ := hcovers s hs
  exact hpart.widensTo

/-- The one to blame is a character of three bytes, and the related one is in front of a letter. -/
theorem report_callouts_before_letter :
    (∃ part, Span.Covers ⟨3, 6⟩ "<x 界>".toList part) ∧
    (∃ part, Span.Covers ⟨1, 1⟩ "<x 界>".toList part) ∧
    ((report "<x 界>" .malformedExpression ⟨3, 6⟩ none (some ⟨⟨1, 1⟩, "name"⟩)).callouts
      "<x 界>".toList).map Callout.span = [⟨3, 6⟩, ⟨1, 2⟩] ∧
    ((report "<x 界>" .malformedExpression ⟨3, 6⟩ none (some ⟨⟨1, 1⟩, "name"⟩)).render? "<x 界>" none
      false).isSome = true := by
  have hspan : ∃ part, Span.Covers ⟨3, 6⟩ "<x 界>".toList part :=
    ⟨['界'], ['<', 'x', ' '], ['>'], rfl, rfl⟩
  have hnote : ∃ part, Span.Covers ⟨1, 1⟩ "<x 界>".toList part :=
    ⟨[], ['<'], ['x', ' ', '界', '>'], rfl, rfl⟩
  have hrelated : ∀ note ∈ some (⟨⟨1, 1⟩, "name"⟩ : Related),
      ∃ part, note.span.Covers "<x 界>".toList part := by
    simpa using hnote
  have h := report_callouts .malformedExpression none hspan hrelated
  have hs : "<x 界>".toList = ['<'] ++ 'x' :: [' ', '界', '>'] := rfl
  have hx : ¬ Span.BeforeWide "<x 界>".toList ⟨1, 1⟩ :=
    mt (Span.beforeWide_empty_iff hs).mp (by decide)
  have hwide : ¬ Span.BeforeWide "<x 界>".toList ⟨3, 6⟩ := fun h => absurd h.start_lt.1 (by decide)
  exact ⟨hspan, hnote, h.1, (h.2.2 none false).mpr
    (List.forall_mem_cons.mpr ⟨hwide, List.forall_mem_singleton.mpr hx⟩)⟩

/-- In front of the same character, an empty span is shown as the first of its bytes, and there is no
report. -/
theorem report_empty_before_wide :
    (∃ part, Span.Covers ⟨3, 3⟩ "<x 界>".toList part) ∧
    ((report "<x 界>" .malformedExpression ⟨3, 3⟩ none none).callouts "<x 界>".toList).map
      Callout.span = [⟨3, 4⟩] ∧
    ¬ (∃ part, Span.Covers ⟨3, 4⟩ "<x 界>".toList part) ∧
    (report "<x 界>" .malformedExpression ⟨3, 3⟩ none none).render? "<x 界>" none false = none := by
  refine ⟨⟨[], ['<', 'x', ' '], ['界', '>'], rfl, rfl⟩, rfl, ?_, ?_⟩
  · rw [← Span.isWhole_iff (by decide) (by decide)]
    decide
  · rw [render?]
    exact if_neg (by decide)

end SyntaxError

namespace Resource

/-- Every error of a source has a report. -/
theorem render?_of_read {limit : Option Nat} {source : String} {e : SyntaxError}
    (h : read limit source = .error e) (path : Option String) (coloured : Bool) :
    e.render? source path coloured = some (e.render source path coloured) := by
  obtain ⟨fault, hfault, rfl⟩ := read_eq_error_iff.mp h
  rw [SyntaxError.render?]
  refine if_pos (List.all_eq_true.mpr fun callout hcallout => ?_)
  obtain ⟨part, hpart⟩ := (pointsInto_of_ofChars hfault).callouts callout hcallout
  exact hpart.isWhole

end Resource

end LocaleText
