import LocaleText.Proofs.Completion.Entry
import LocaleText.Proofs.Locality

/-!
# Sources that end too early

A fault that says that the source ends too early is never about the text that is there: some text
behind the source mends it. The text is found by completing what each reader has begun, and it takes at
most twice the bytes of the source and four more.

* `Resource.ofChars_of_endsBefore` is about the source that a completion makes: it is read, or a
  second default is found in it
* `Resource.exists_completion` says so for the errors of a source, and how long the text is
* `Resource.exists_completion_of_open_array` is a source with an array that is not closed
-/

namespace LocaleText

namespace Resource

variable {limit : Option Nat} {source : List Char}

/-- A bound that is larger than the one of a source makes no difference to whether the readers come
to their end on it. -/
theorem ofChars_of_endsBefore {bound : Nat} {rest : List Char} (hb : source.length < bound + 1)
    (h : Reader.EndsBefore (Reader.items (bound + 1) (.outermost limit)) (.ofText source) rest) :
    (∃ r, ofChars limit source = .ok r) ∨
      ∃ e, ofChars limit source = .error e ∧ e.kind = .duplicateDefault := by
  cases hrun : ofChars limit source with
  | ok r => exact .inl ⟨r, rfl⟩
  | error e =>
    obtain ⟨m, hitems⟩ := ofChars_eq_error_iff.mp hrun
    have hcarries : Reader.Carries (bound + 1) 0 (List.map (Item.shift 0))
        (Reader.items (source.length + 1) (.outermost limit))
        (Reader.items (bound + 1) (.outermost limit)) (.ofText source) :=
      .items (Nat.lt_succ_self _)
    obtain ⟨text, left, harises, hsame, -⟩ := hcarries.error hitems
    have hsource : source = text ++ left := harises.split
    obtain ⟨m', hother, -⟩ := hsame left rfl (by rwa [← hsource])
    rw [← hsource] at hother
    rcases h with ⟨body, l, hok, _⟩ | ⟨e', m'', herror, hk⟩
    · exact absurd (hok.symm.trans hother) (by simp)
    · obtain ⟨rfl, _⟩ : e' = e.shift 0 ∧ m'' = m' := by simpa using herror.symm.trans hother
      exact .inr ⟨e, rfl, hk⟩

/-- A source that ends too early is the beginning of a source that has a resource, or whose only
fault is a second default. What is missing is at most twice as long, and four bytes. -/
theorem exists_completion {s : String} {error : SyntaxError} (h : read none s = .error error)
    (hk : error.kind ∈ FaultKind.truncated) :
    ∃ t : String, byteLength t.toList ≤ 2 * byteLength s.toList + 4 ∧
      ((∃ r, read none (s ++ t) = .ok r) ∨
        ∃ error', read none (s ++ t) = .error error' ∧ error'.kind = .duplicateDefault) := by
  obtain ⟨e, he, rfl⟩ := read_eq_error_iff.mp h
  obtain ⟨m, hitems⟩ := ofChars_eq_error_iff.mp he
  have hcompletes : Reader.Completes 4 (· = []) (Reader.items (s.toList.length + 1) (.outermost none))
      (fun c => Reader.items (c + 1) (.outermost none)) (.ofText s.toList) :=
    .items rfl (Nat.lt_succ_self _)
  obtain ⟨t, hsize, ht⟩ := hcompletes (.inr ⟨e, m, hitems, hk⟩)
  obtain ⟨-, hends⟩ := ht [] rfl
  obtain ⟨c, hc, hlarge⟩ := (hends.and (Filter.eventually_ge_atTop (s.toList ++ t).length)).exists
  have hrun : Reader.EndsBefore (Reader.items (c + 1) (.outermost none)) (.ofText (s.toList ++ t)) [] := by
    rwa [List.append_nil] at hc
  have htext : (s ++ String.ofList t).toList = s.toList ++ t := by
    rw [String.toList_append, String.toList_ofList]
  refine ⟨String.ofList t, ?_, ?_⟩
  · have hlen := length_le_byteLength s.toList
    have hleft : (Input.ofText s.toList).rest.length = s.toList.length := rfl
    rw [String.toList_ofList]
    omega
  · rcases ofChars_of_endsBefore (Nat.lt_succ_of_le hlarge) hrun with ⟨r, hr⟩ | ⟨e', he', hk'⟩
    · exact .inl ⟨r, by rw [read, htext, hr]; rfl⟩
    · exact .inr ⟨e'.toError _, read_eq_error_iff.mpr ⟨e', by rw [htext]; exact he', rfl⟩, hk'⟩

/-- The inner of two arrays ends too early. -/
theorem exists_completion_of_open_array : ∃ t : String,
    byteLength t.toList ≤ 2 * byteLength ("<x [[1" : String).toList + 4 ∧
      ((∃ r, read none ("<x [[1" ++ t) = .ok r) ∨
        ∃ error', read none ("<x [[1" ++ t) = .error error' ∧ error'.kind = .duplicateDefault) :=
  exists_completion (s := "<x [[1")
    (read_eq_error_iff_error?.mpr (show error? none "<x [[1" = some ⟨.unterminatedComposite,
      ⟨6, 6⟩, ⟨1, 7⟩, "unterminated composite: expected `]`", some ⟨⟨4, 5⟩, "array started here"⟩⟩
      by decide +kernel)) (by decide)

end Resource

end LocaleText
