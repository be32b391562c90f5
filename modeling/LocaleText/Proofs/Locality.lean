import LocaleText.Proofs.Carry.Entry
import LocaleText.Proofs.Tiling

/-!
# The first fault and the text up to it

A fault is decided by the text up to its end and the character behind that: a source that begins
with the same text and goes on with the same character has the same fault.

* `Resource.error?` is the error of a source, if it has one
* `Resource.arises_of_ofChars` is what the run on another source inherits from a run that fails
* `Resource.ofChars_eq_error_of_front` leads a fault from a beginning of a source to the source
* `Resource.read_eq_error_of_take` is the result for the errors of a source

The second default of an object is left out. It is reported at its mark, but found only once the
whole member has been read.
-/

namespace LocaleText

/-! ### Places -/

/-- A cut within a text does not depend on what is behind it. -/
theorem takeBytes_of_le {o : Nat} {text : List Char} (h : o ≤ byteLength text) (rest : List Char) :
    takeBytes o (text ++ rest) = takeBytes o text := by
  induction text generalizing o with
  | nil =>
    obtain rfl : o = 0 := by simpa using h
    cases rest with
    | nil => rfl
    | cons c cs => exact if_neg (Nat.not_le_of_gt c.utf8Size_pos)
  | cons c cs ih =>
    rw [byteLength_cons] at h
    by_cases hc : c.utf8Size ≤ o
    · rw [List.cons_append, takeBytes, takeBytes, if_pos hc, if_pos hc, ih (by omega)]
    · rw [List.cons_append, takeBytes, takeBytes, if_neg hc, if_neg hc]

/-- Where an error is reported depends on the text before it. -/
theorem Fault.toError_congr {e : Fault} {text rest rest' : List Char} {s t : String}
    (hs : s.toList = text ++ rest) (ht : t.toList = text ++ rest')
    (h : e.span.start ≤ byteLength text) : e.toError s = e.toError t := by
  have hplace : Place.of s.toList e.span.start = Place.of t.toList e.span.start := by
    rw [Place.of, Place.of, hs, ht, takeBytes_of_le h, takeBytes_of_le h]
  simp only [Fault.toError, SyntaxError.report, hplace]

/-- A source that agrees with a text and one more character goes on with the same character. -/
theorem exists_append_of_take {text rest other : List Char}
    (h : (text ++ rest).take (text.length + 1) = other.take (text.length + 1)) :
    ∃ rest', other = text ++ rest' ∧ rest.head? = rest'.head? := by
  have htext : other.take text.length = text := by
    have htake := congrArg (List.take text.length) h
    rw [List.take_take, List.take_take, Nat.min_eq_left (Nat.le_succ _), List.take_left] at htake
    exact htake.symm
  have hnext := congrArg (fun v : List Char => v[text.length]?) h
  simp only [List.getElem?_take_of_succ, List.getElem?_append_right (Nat.le_refl _),
    Nat.sub_self] at hnext
  refine ⟨other.drop text.length, ?_, ?_⟩
  · rw [← List.take_append_drop text.length other, htext, List.drop_left]
  · rw [List.head?_drop, ← hnext, List.head?_eq_getElem?]

namespace Resource

variable {limit : Option Nat} {source : List Char} {e : Fault}

theorem resource_ofText : Reader.resource limit (.ofText source) =
    (Reader.items (source.length + 1) (.outermost limit) >>= fun body =>
      Reader.spanFrom 0 >>= fun span => pure ⟨body, span⟩) (.ofText source) := rfl

/-- The fault of a source is that of its items. -/
theorem ofChars_eq_error_iff : ofChars limit source = .error e ↔
    ∃ m, Reader.items (source.length + 1) (.outermost limit) (.ofText source) = .error e m := by
  rw [ofChars, resource_ofText]
  constructor
  · intro h
    split at h
    · exact absurd h (by simp)
    · rename_i fault m hfault
      rcases Reader.bind_eq_error.mp hfault with hitems | ⟨_, _, _, hspan⟩
      · exact ⟨m, by rw [hitems, Except.error.inj h]⟩
      · exact absurd hspan (by simp [Reader.spanFrom_bind, pure, EStateM.pure])
  · intro h
    obtain ⟨m, hitems⟩ := h
    rw [Reader.bind_eq_error.mpr (.inl hitems)]

theorem read_eq_error_iff {s : String} {error : SyntaxError} : read limit s = .error error ↔
    ∃ e, ofChars limit s.toList = .error e ∧ e.toError s = error := by
  rw [read]
  cases ofChars limit s.toList with
  | ok r =>
    show Except.ok r = .error error ↔ _
    simp
  | error e =>
    show Except.error (e.toError s) = .error error ↔ _
    simp

def error? (limit : Option Nat) (source : String) : Option SyntaxError :=
  match read limit source with
  | .ok _ => none
  | .error error => some error

theorem read_eq_error_iff_error? {s : String} {error : SyntaxError} :
    read limit s = .error error ↔ error? limit s = some error := by
  rw [error?]
  cases read limit s <;> simp

theorem items_of_ofChars_eq_ok {r : Resource} (h : ofChars limit source = .ok r) :
    ∃ body l, Reader.items (source.length + 1) (.outermost limit) (.ofText source) = .ok body l := by
  rw [ofChars, resource_ofText] at h
  split at h
  · rename_i l hrun
    obtain ⟨body, l, hitems, _⟩ := Reader.bind_eq_ok.mp hrun
    exact ⟨body, l, hitems⟩
  · exact absurd h (by simp)

/-- What the run on another source inherits from a run that fails. The fault arises from a text. If
the other source begins with the text and goes on with the same character, it has the same fault. If
the fault is settled and another character follows, the other source has no resource, unless an
operator is formed. -/
theorem arises_of_ofChars (h : ofChars limit source = .error e) (other : List Char) :
    ∃ m text rest, Arises (.ofText source) e m text rest ∧
      (∀ rest', other = text ++ rest' → rest.head? = rest'.head? → ofChars limit other = .error e) ∧
      (e.Settled → ∀ rest', other = text ++ rest' → e.Stays text rest rest' →
        ∀ r, ofChars limit other ≠ .ok r) := by
  obtain ⟨m, hitems⟩ := ofChars_eq_error_iff.mp h
  have hcarries : Reader.Carries (other.length + 1) 0 (List.map (Item.shift 0))
      (Reader.items (source.length + 1) (.outermost limit))
      (Reader.items (other.length + 1) (.outermost limit)) (.ofText source) :=
    .items (Nat.lt_succ_self _)
  obtain ⟨text, rest, harises, hsame, hnot⟩ := hcarries.error hitems
  refine ⟨m, text, rest, harises, fun rest' ho hr => ?_, fun hs rest' ho hr r hok => ?_⟩
  · subst ho
    obtain ⟨m', hother, _⟩ := hsame rest' hr (Nat.lt_succ_self _)
    rw [e.shift_zero] at hother
    exact ofChars_eq_error_iff.mpr ⟨m', hother⟩
  · subst ho
    obtain ⟨body, l, hother⟩ := items_of_ofChars_eq_ok hok
    exact hnot hs rest' hr (Nat.lt_succ_self _) body l hother

/-- A fault that ends within the front of a source is that of every source with this front. -/
theorem ofChars_eq_error_of_front {front rest : List Char} (h : ofChars limit (front ++ rest) = .error e)
    (hk : e.kind ≠ .duplicateDefault) (hstop : e.span.stop < byteLength front) (rest' : List Char) :
    ofChars limit (front ++ rest') = .error e := by
  obtain ⟨m, text, left, harises, hsame, -⟩ := arises_of_ofChars h (front ++ rest')
  have hsplit : front ++ rest = text ++ left := harises.split
  have htext : byteLength text < byteLength front := by
    rwa [harises.stop hk, Input.ofText, Nat.zero_add] at hstop
  rcases List.append_eq_append_iff.mp hsplit with ⟨more, rfl, -⟩ | ⟨more, rfl, rfl⟩
  · rw [byteLength_append] at htext
    omega
  · obtain _ | ⟨c, cs⟩ := more
    · rw [List.append_nil] at htext
      exact absurd htext (Nat.lt_irrefl _)
    · exact hsame _ (List.append_assoc ..) rfl

/-- An error depends only on the text up to its end and the character behind that. -/
theorem read_eq_error_of_take {limit : Option Nat} {s t : String} {error : SyntaxError}
    (h : read limit s = .error error) (hk : error.kind ≠ .duplicateDefault)
    (ht : s.toList.take ((takeBytes error.span.stop s.toList).length + 1) =
      t.toList.take ((takeBytes error.span.stop s.toList).length + 1)) :
    read limit t = .error error := by
  obtain ⟨e, he, rfl⟩ := read_eq_error_iff.mp h
  obtain ⟨m, text, rest, harises, hsame, -⟩ := arises_of_ofChars he t.toList
  have hsource : s.toList = text ++ rest := harises.split
  have hstop : e.span.stop = byteLength text := by
    rw [harises.stop hk]
    exact Nat.zero_add _
  have hstart : e.span.start ≤ byteLength text := hstop ▸ harises.ordered
  have htake : (takeBytes (e.toError s).span.stop s.toList).length = text.length := by
    show (takeBytes e.span.stop s.toList).length = _
    rw [hstop, hsource, takeBytes_append]
  rw [htake, hsource] at ht
  obtain ⟨rest', hother, hhead⟩ := exists_append_of_take ht
  rw [read_eq_error_iff]
  exact ⟨e, hsame rest' hother hhead, (Fault.toError_congr hsource hother hstart).symm⟩

/-- An operand is missing, whatever follows behind the bracket that stands in its place. -/
theorem read_missing_operand :
    read none "<x [1 +]> <y 'z'>" = .error ⟨.malformedExpression, ⟨7, 8⟩, ⟨1, 8⟩,
      "malformed expression: found `]`", none⟩ :=
  read_eq_error_of_take (s := "<x [1 +]>") (read_eq_error_iff_error?.mpr (by decide +kernel))
    (by decide) (by decide +kernel)

end Resource

end LocaleText
