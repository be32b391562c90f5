import LocaleText.Proofs.Completion.Basic
import LocaleText.Proofs.Concatenation
import LocaleText.Proofs.Truncation.Entry

/-!
# Beginnings of sources

Where a source that is read is cut short, what is left of it is read as well, or the error is that
it ends too early. The error then ends where the beginning does, under every nesting limit.

* `Resource.HalfOperator` and `Resource.EmptyCall` say of a text that there is only one way to go on
  with it: with the second character of an operator, or with the closer of a call
* `Resource.stops_at_cut` is what a fault of a beginning says about the whole source
* `Resource.not_cleanCut_of_ok` finds the two ways in which another kind of error arises
* `Resource.read_beginning` is the result for a source and its beginnings
* `Resource.read_open_call_limited` is a source whose beginning is not said to end too early

A second character that is missing is told from one that is wrong nowhere, so that half an operator
is a malformed expression. And in a call the nesting limit is tested before it is known whether an
argument comes at all, while arrays and objects look for the end of the source first.
-/

namespace LocaleText

open Filter (atTop)

/-! ### Cuts through operators and calls -/

section Cuts

variable {text more front : List Char} {c d : Char}

/-- The first character of an operator of two decides the second one. -/
theorem BinaryOp.second_unique : ∀ op ∈ pairs, ∀ op' ∈ pairs,
    op.token.head? = op'.token.head? → op.token = op'.token := by
  decide

/-- Where the texts do not join, an operator is cut in two. -/
theorem exists_operator_of_not_joins (h : ¬ Joins text [] more) : ∃ front c d,
    text = front ++ [c] ∧ (∃ op ∈ BinaryOp.pairs, op.token = [c, d]) ∧ more.head? = some d := by
  simp only [Joins, not_forall] at h
  obtain ⟨c, hc, halike⟩ := h
  obtain ⟨front, rfl⟩ := List.getLast?_eq_some_iff.mp hc
  have hop : ∃ op ∈ BinaryOp.pairs, ¬ (op.token <+: [c] ↔ op.token <+: c :: more) := by
    by_contra hall
    refine halike ⟨rfl, fun op hop => ?_⟩
    by_contra hne
    exact hall ⟨op, hop, hne⟩
  obtain ⟨op, hpair, hne⟩ := hop
  rw [Alike.token_prefix_cons hpair, Alike.token_prefix_cons hpair] at hne
  have hnone : ¬ ∃ d, op.token = [c, d] ∧ ([] : List Char).head? = some d := by simp
  rw [iff_false_left hnone, not_not] at hne
  obtain ⟨d, htoken, hd⟩ := hne
  exact ⟨front, c, d, rfl, ⟨op, hpair, htoken⟩, hd⟩

/-- No operator begins with what the opener of a call ends with. -/
theorem joins_of_opensCall {more' : List Char} (h : OpensCall text more) : Joins text [] more' := by
  obtain ⟨front, gap, _, _, rfl, _, hgap, _⟩ := h
  by_contra hnot
  obtain ⟨front', c, d, hlast, ⟨op, hop, htoken⟩, _⟩ := exists_operator_of_not_joins hnot
  have hfirst : ∀ op ∈ BinaryOp.pairs, op.token.head? ≠ some '(' ∧
      op.token.head?.all (fun c => !isBlank c) = true := by decide
  obtain ⟨hround, hblank⟩ := hfirst op hop
  have hc : ('(' :: gap).getLast? = some c := by
    have hlast' := congrArg List.getLast? hlast
    rwa [List.getLast?_concat, List.getLast?_append, Option.or_of_isSome (by simp)] at hlast'
  rw [htoken] at hround hblank
  rcases List.mem_cons.mp (List.mem_of_getLast? hc) with rfl | hmem
  · exact hround rfl
  · simp [hgap c hmem] at hblank

end Cuts

namespace Resource

variable {limit : Option Nat}

/-- A text ends with the first character of an operator, and whatever source begins with the text and
is read goes on with the second one. -/
def HalfOperator (limit : Option Nat) (text : String) : Prop :=
  ∃ front c d, text.toList = front ++ [c] ∧ (∃ op ∈ BinaryOp.pairs, op.token = [c, d]) ∧
    ∀ more r, read limit (text ++ more) = .ok r → more.toList.head? = some d

/-- A text ends with an opener and blanks, and whatever source begins with the text and is read goes
on with blanks and the closer. -/
def EmptyCall (limit : Option Nat) (text : String) : Prop :=
  ∃ front gap, text.toList = front ++ '(' :: gap ∧ Blanks gap ∧
    ∀ more r, read limit (text ++ more) = .ok r →
      ∃ gap' rest, more.toList = gap' ++ ')' :: rest ∧ Blanks gap'

/-- What a fault of a text says about a longer source that is read: the fault ends where the text
does, and if it lies in characters of the text, an operator is cut in two. -/
theorem stops_at_cut {text more : List Char} {e : Fault} {r : Resource}
    (he : ofChars limit text = .error e) (hr : ofChars limit (text ++ more) = .ok r) :
    e.span.stop = byteLength text ∧ (e.Settled → ¬ Joins text [] more) ∧
      (¬ e.Settled → e.kind ∈ FaultKind.unsettled) := by
  obtain ⟨m, front, rest, harises, hsame, hnot⟩ := arises_of_ofChars he (text ++ more)
  have hsplit : text = front ++ rest := harises.split
  have hrest : rest = [] := by
    by_contra hne
    have herror := hsame (rest ++ more) (by rw [hsplit, List.append_assoc])
      (by simp [List.head?_append, Option.or_of_isSome (List.isSome_head?.mpr hne)])
    exact absurd (herror.symm.trans hr) (by simp)
  subst hrest
  rw [List.append_nil] at hsplit
  subst hsplit
  have hkeeps : e.Settled → ¬ e.Stays text [] more := fun hs hstays =>
    hnot hs more rfl hstays r hr
  have hkind : e.kind ≠ .duplicateDefault := by
    intro hk
    by_cases hs : e.Settled
    · exact hkeeps hs (.inl hk)
    · have hunsettled := harises.unsettled hs
      rw [hk] at hunsettled
      exact absurd hunsettled (by decide)
  refine ⟨?_, fun hs hjoins => hkeeps hs (.inr hjoins), harises.unsettled⟩
  rw [harises.stop hkind]
  exact Nat.zero_add _

/-- What the limit stops at the end of a text, it stops on every longer source as well, unless the cut
is not clean. -/
theorem not_cleanCut_of_ok {text more : List Char} {e : Fault} {r : Resource}
    (he : ofChars limit text = .error e) (hk : e.kind = .recursionLimitExceeded)
    (hs : ¬ e.Settled) (hr : ofChars limit (text ++ more) = .ok r) : ¬ CleanCut text more := by
  intro hcut
  obtain ⟨m, hitems⟩ := ofChars_eq_error_iff.mp he
  obtain ⟨body, l, hbody⟩ := items_of_ofChars_eq_ok hr
  have hbars : Reader.Bars (Reader.items (text.length + 1) (.outermost limit))
      (fun c => Reader.items (c + 1) (.outermost limit)) (.ofText text) :=
    .items (Nat.lt_succ_self _)
  have hlate := hbars ⟨e, m, hitems, hk, hs⟩ more hcut
  obtain ⟨c, hc, hlarge⟩ :=
    (hlate.and (Filter.eventually_ge_atTop (text ++ more).length)).exists
  have hcarries : Reader.Carries (c + 1) 0 (List.map (Item.shift 0))
      (Reader.items ((text ++ more).length + 1) (.outermost limit))
      (Reader.items (c + 1) (.outermost limit)) (.ofText (text ++ more)) :=
    .items (Nat.lt_succ_self _)
  obtain ⟨front, ht, hsame⟩ := hcarries.ok hbody
  have hsource : text ++ more = front ++ l.rest := ht.rest
  have hrun := hsame l.rest (.refl _) (by rw [← hsource]; exact Nat.lt_succ_of_le hlarge)
  rw [← hsource] at hrun
  exact hc ⟨_, _, hrun⟩

/-- If nothing that is read goes on otherwise, the beginning ends with half an operator. -/
theorem halfOperator_of_not_joins {s more : String} {r : Resource}
    (h : ∀ more r, read limit (s ++ more) = .ok r → ¬ Joins s.toList [] more.toList)
    (hr : read limit (s ++ more) = .ok r) : HalfOperator limit s := by
  obtain ⟨front, c, d, hs, ⟨op, hop, htoken⟩, _⟩ := exists_operator_of_not_joins (h more r hr)
  refine ⟨front, c, d, hs, ⟨op, hop, htoken⟩, fun more' r' hr' => ?_⟩
  obtain ⟨front', c', d', hs', ⟨op', hop', htoken'⟩, hd'⟩ :=
    exists_operator_of_not_joins (h more' r' hr')
  obtain ⟨_, rfl⟩ : front = front' ∧ c = c' := by simpa using hs.symm.trans hs'
  have hsecond := BinaryOp.second_unique op hop op' hop' (by rw [htoken, htoken']; rfl)
  rw [htoken, htoken'] at hsecond
  rw [hd', (List.cons.inj (List.cons.inj hsecond).2).1]

theorem emptyCall_of_opensCall {s more : String} (hcall : OpensCall s.toList more.toList)
    (h : ∀ more r, read limit (s ++ more) = .ok r → OpensCall s.toList more.toList) :
    EmptyCall limit s := by
  obtain ⟨front, gap, _, _, hs, _, hgap, _⟩ := hcall
  refine ⟨front, gap, hs, hgap, fun more' r' hr' => ?_⟩
  obtain ⟨_, _, gap', behind, _, hmore, _, hgap'⟩ := h more' r' hr'
  exact ⟨gap', behind, hmore, hgap'⟩

/-- A beginning of a source that is read is read as well, or its error ends where it does: the source
ends too early. There are two exceptions. Half an operator may be any malformed text, and where no
argument of a call is allowed by the limit, the opener of a call exceeds it before the closer is
seen. -/
theorem read_beginning {s more : String} {r : Resource} (h : read limit (s ++ more) = .ok r) :
    (∃ r', read limit s = .ok r') ∨ ∃ error, read limit s = .error error ∧
      error.span.stop = byteLength s.toList ∧ (error.kind ∈ FaultKind.truncated ∨
        HalfOperator limit s ∨ (EmptyCall limit s ∧ error.kind = .recursionLimitExceeded)) := by
  cases hs : read limit s with
  | ok r' => exact .inl ⟨r', rfl⟩
  | error error =>
    obtain ⟨e, he, rfl⟩ := read_eq_error_iff.mp hs
    have hlonger : ∀ {more r}, read limit (s ++ more) = .ok r →
        ofChars limit (s.toList ++ more.toList) = .ok r := by
      intro more r hr
      rwa [read_eq_ok_iff_ofChars, String.toList_append] at hr
    refine .inr ⟨_, rfl, (stops_at_cut he (hlonger h)).1, ?_⟩
    by_cases hsettled : e.Settled
    · have hcuts : ∀ more r, read limit (s ++ more) = .ok r → ¬ Joins s.toList [] more.toList :=
        fun more r hr => (stops_at_cut he (hlonger hr)).2.1 hsettled
      exact .inr (.inl (halfOperator_of_not_joins hcuts h))
    by_cases hk : e.kind = .recursionLimitExceeded
    · have hclean : ∀ more r, read limit (s ++ more) = .ok r →
          ¬ Joins s.toList [] more.toList ∨ OpensCall s.toList more.toList := by
        intro more r hr
        have hnot := not_cleanCut_of_ok he hk hsettled (hlonger hr)
        by_contra hneither
        simp only [not_or, not_not] at hneither
        exact hnot ⟨hneither.1, hneither.2⟩
      by_cases hopens : ∃ more r, read limit (s ++ more) = .ok r ∧ OpensCall s.toList more.toList
      · obtain ⟨_, _, _, hcall⟩ := hopens
        exact .inr (.inr ⟨emptyCall_of_opensCall hcall fun more' r' hr' =>
          (hclean more' r' hr').resolve_left (not_not.mpr (joins_of_opensCall hcall)), hk⟩)
      · exact .inr (.inl (halfOperator_of_not_joins (fun more' r' hr' =>
          (hclean more' r' hr').resolve_right fun hcall => hopens ⟨_, _, hr', hcall⟩) h))
    · refine .inl ?_
      have hkinds := (stops_at_cut he (hlonger h)).2.2 hsettled
      simp only [FaultKind.unsettled, List.mem_cons, List.not_mem_nil, or_false] at hkinds
      have hthree : e.kind = .endOfInput ∨ e.kind = .unterminatedComposite ∨
          e.kind = .unterminatedString := by
        tauto
      exact (by simpa [FaultKind.truncated] using hthree : e.kind ∈ FaultKind.truncated)

/-- An entity without its closing angle bracket. -/
theorem read_beginning_of_open_entity : (∃ r', read none "<x 'a'" = .ok r') ∨
    ∃ error, read none "<x 'a'" = .error error ∧ error.span.stop = byteLength "<x 'a'".toList ∧
      (error.kind ∈ FaultKind.truncated ∨ HalfOperator none "<x 'a'" ∨
        (EmptyCall none "<x 'a'" ∧ error.kind = .recursionLimitExceeded)) := by
  obtain ⟨r, hr⟩ : ∃ r, read none ("<x 'a'" ++ ">") = .ok r := exists_of_isOk (by decide +kernel)
  exact read_beginning hr

/-- The limit is tested at the opener of a call, before it is seen that no argument comes. -/
theorem read_open_call_limited : (∃ r, read (some 2) ("<x [f(" ++ ")]>") = .ok r) ∧
    (∃ error, read (some 2) "<x [f(" = .error error ∧ error.kind = .recursionLimitExceeded ∧
      error.kind ∉ FaultKind.truncated) ∧ ¬ HalfOperator (some 2) "<x [f(" := by
  refine ⟨exists_of_isOk (by decide +kernel), ?_, ?_⟩
  · refine ⟨_, read_eq_error_iff_error?.mpr (show error? (some 2) "<x [f(" = some
      ⟨.recursionLimitExceeded, ⟨6, 6⟩, ⟨1, 7⟩, "nesting too deep: more than 2 levels", none⟩ by
        decide +kernel), rfl, by decide⟩
  · rintro ⟨front, c, d, hs, ⟨op, hop, htoken⟩, -⟩
    have hlast : c = '(' := by simpa using congrArg List.getLast? hs.symm
    have hround : ∀ op ∈ BinaryOp.pairs, op.token.head? ≠ some '(' := by decide
    exact hround op hop (by rw [htoken, hlast]; rfl)

end Resource

end LocaleText
