import LocaleText.Proofs.Pointing.Reading
import LocaleText.Proofs.Unfinished.Entry

/-!
# What is blamed at the end of a source

A source that is no resource because it ends too early is an unfinished one. Its error is at the end
and blames the innermost composite that is open there, whatever else is open inside it: a call,
brackets behind a name, a branch or an operator are not blamed.

* `Resource.ofChars_blames_iff` is the equivalence, by the composite that is blamed
* `Resource.read_stops_at_end_iff` says so of sources, whatever is blamed
* `Resource.head?_eq_of_blames` says that the composite is the first of the openings of every way to
  see the source as an unfinished one
* `Resource.read_error_blames_innermost` says what the error is in words, and what it points at
-/

namespace LocaleText

namespace Fault.PointsInto

variable {e : Fault} {source : List Char}

/-- A fault that blames a composite is at the end of the source. -/
theorem eq_of_unterminated (h : e.PointsInto source) (hk : e.kind = .unterminatedComposite) :
    ∃ o : Opening, o.span.Covers source [o.composite.opener] ∧
      e = ⟨.unterminatedComposite, .empty (byteLength source), some (.expected o.composite.closer),
        some (.opened o.composite, o.span)⟩ := by
  cases h with
  | ending => exact absurd hk (by simp)
  | @unterminated composite opener ho =>
    obtain ⟨before, behind, hs, rfl⟩ := ho
    exact ⟨⟨composite, byteLength before⟩, ⟨before, behind, hs, rfl⟩, rfl⟩
  | duplicate => exact absurd hk (by simp)
  | part hkind =>
    obtain rfl := hk
    exact absurd hkind (by decide)

/-- A fault at the end of the source, and nothing else about it. -/
theorem eq_of_endOfInput (h : e.PointsInto source) (hk : e.kind = .endOfInput) :
    ∃ detail, e = ⟨.endOfInput, .empty (byteLength source), detail, none⟩ := by
  cases h with
  | ending => exact ⟨_, rfl⟩
  | unterminated => exact absurd hk (by simp)
  | duplicate => exact absurd hk (by simp)
  | part hkind =>
    obtain rfl := hk
    exact absurd hkind (by decide)

end Fault.PointsInto

namespace Resource

variable {limit : Option Nat}

section Chars

variable {source : List Char} {e : Fault} {h : Option Opening}

/-- Reading stops at the end of a source exactly if the source is unfinished. The composite that is
blamed is the innermost one that is open. -/
theorem ofChars_blames_iff : (∃ e, ofChars limit source = .error e ∧ e.Blames h) ↔
    ∃ openings, UnfinishedBody (.outermost limit) 0 source openings ∧ openings.head? = h := by
  have hread : (∃ e, ofChars limit source = .error e ∧ e.Blames h) ↔
      Reader.RunsOut (Reader.resource limit) (.ofText source) h := by
    rw [ofChars, Reader.RunsOut]
    cases Reader.resource limit (.ofText source) <;> simp
  exact hread.trans Reader.runsOut_resource

/-- The fault blames what is innermost in every derivation of the unfinished source. -/
theorem head?_eq_of_blames (he : ofChars limit source = .error e) (hb : e.Blames h)
    {openings : List Opening} (hu : UnfinishedBody (.outermost limit) 0 source openings) :
    openings.head? = h := by
  obtain ⟨e', he', hb'⟩ := ofChars_blames_iff.mpr ⟨openings, hu, rfl⟩
  obtain rfl := Except.error.inj (he'.symm.trans he)
  exact hb'.unique hb

end Chars

/-- A source ends too early exactly when it is an unfinished text. -/
theorem read_stops_at_end_iff {source : String} :
    (∃ e, read limit source = .error e ∧ e.kind ∈ [FaultKind.endOfInput, .unterminatedComposite]) ↔
      ∃ openings, UnfinishedBody (.outermost limit) 0 source.toList openings := by
  constructor
  · rintro ⟨e, he, hk⟩
    obtain ⟨fault, hfault, rfl⟩ := read_eq_error_iff.mp he
    have hpoints := pointsInto_of_ofChars hfault
    obtain ⟨o, hb⟩ : ∃ o, fault.Blames o := by
      rcases List.mem_cons.mp hk with hk | hk
      · exact ⟨none, hk⟩
      · obtain ⟨o, -, rfl⟩ := hpoints.eq_of_unterminated (List.mem_singleton.mp hk)
        exact ⟨some o, rfl, rfl⟩
    obtain ⟨openings, hu, -⟩ := ofChars_blames_iff.mp ⟨fault, hfault, hb⟩
    exact ⟨openings, hu⟩
  · rintro ⟨openings, hu⟩
    obtain ⟨fault, hfault, hb⟩ := ofChars_blames_iff.mpr ⟨openings, hu, rfl⟩
    exact ⟨_, read_eq_error_iff.mpr ⟨fault, hfault, rfl⟩, hb.kind_mem⟩

/-- An error that blames a composite is at the end of the source. It shows the opener of the innermost
array, object or index that is open there, which is the one opened last, and names it and its closer. An
error at the end of the source that blames none is at the end of one where none is open. -/
theorem read_error_blames_innermost {source : String} {e : SyntaxError}
    (h : read limit source = .error e) :
    (e.kind = .unterminatedComposite → e.span = .empty (byteLength source.toList) ∧
      ∃ o : Opening, e.related = some ⟨o.span, o.composite.noun ++ " started here"⟩ ∧
        e.message = "unterminated composite: expected " ++ quoteChar o.composite.closer ∧
        o.span.Covers source.toList [o.composite.opener] ∧
        (∃ outer, UnfinishedBody (.outermost limit) 0 source.toList (o :: outer)) ∧
        ∀ openings, UnfinishedBody (.outermost limit) 0 source.toList openings →
          openings.head? = some o ∧ ∀ x ∈ openings, x.offset ≤ o.offset) ∧
    (e.kind = .endOfInput → e.span = .empty (byteLength source.toList) ∧ e.related = none ∧
      UnfinishedBody (.outermost limit) 0 source.toList [] ∧
      ∀ openings, UnfinishedBody (.outermost limit) 0 source.toList openings → openings = []) := by
  obtain ⟨fault, hfault, rfl⟩ := read_eq_error_iff.mp h
  have hpoints := pointsInto_of_ofChars hfault
  constructor
  · intro hk
    obtain ⟨o, hcovers, rfl⟩ := hpoints.eq_of_unterminated hk
    have hb : Fault.Blames ⟨.unterminatedComposite, .empty (byteLength source.toList),
        some (.expected o.composite.closer), some (.opened o.composite, o.span)⟩ (some o) := ⟨rfl, rfl⟩
    refine ⟨rfl, o, rfl, ?_, hcovers, ?_, fun openings hu => ?_⟩
    · show "unterminated composite" ++ ": " ++ ("expected " ++ quoteChar o.composite.closer) = _
      rw [← String.append_assoc]
      rfl
    · obtain ⟨openings, hu, ho⟩ := ofChars_blames_iff.mp ⟨_, hfault, hb⟩
      obtain ⟨outer, rfl⟩ := List.head?_eq_some_iff.mp ho
      exact ⟨outer, hu⟩
    · have ho := head?_eq_of_blames hfault hb hu
      obtain ⟨outer, rfl⟩ := List.head?_eq_some_iff.mp ho
      exact ⟨ho, hu.openedIn.offset_le⟩
  · intro hk
    obtain ⟨detail, rfl⟩ := hpoints.eq_of_endOfInput hk
    have hb : Fault.Blames ⟨.endOfInput, .empty (byteLength source.toList), detail, none⟩ none := rfl
    have hnil : ∀ openings, UnfinishedBody (.outermost limit) 0 source.toList openings →
        openings = [] := fun openings hu => List.head?_eq_none_iff.mp (head?_eq_of_blames hfault hb hu)
    obtain ⟨openings, hu, -⟩ := ofChars_blames_iff.mp ⟨_, hfault, hb⟩
    exact ⟨rfl, rfl, hnil openings hu ▸ hu, hnil⟩

/-- Neither the array around the object nor what is open inside it is blamed. -/
theorem read_error_blames_open_object :
    read none "<x [\x7ba: f(b[1 + (" = .error ⟨.unterminatedComposite, ⟨17, 17⟩, ⟨1, 18⟩,
      "unterminated composite: expected `\x7d`", some ⟨⟨4, 5⟩, "object started here"⟩⟩ ∧
    ∀ openings, UnfinishedBody (.outermost none) 0 "<x [\x7ba: f(b[1 + (".toList openings →
      openings.head? = some ⟨.object, 4⟩ := by
  have hread : read none "<x [\x7ba: f(b[1 + (" = .error ⟨.unterminatedComposite, ⟨17, 17⟩, ⟨1, 18⟩,
      "unterminated composite: expected `\x7d`", some ⟨⟨4, 5⟩, "object started here"⟩⟩ :=
    read_eq_error_iff_error?.mpr (by decide +kernel)
  obtain ⟨-, ⟨composite, offset⟩, hrelated, -, -, -, hall⟩ := (read_error_blames_innermost hread).1 rfl
  have hnoun : "object started here" = composite.noun ++ " started here" :=
    congrArg Related.message (Option.some.inj hrelated)
  have hoffset : 4 = offset := congrArg (fun r => r.span.start) (Option.some.inj hrelated)
  obtain rfl : composite = .object := by
    cases composite with
    | array | index => exact absurd hnoun (by decide)
    | object => rfl
  rw [← hoffset] at hall
  exact ⟨hread, fun openings hu => (hall openings hu).1⟩

end Resource

end LocaleText
