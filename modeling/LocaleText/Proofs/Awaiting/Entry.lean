import LocaleText.Proofs.Awaiting.Expr
import LocaleText.Proofs.Concatenation
import LocaleText.Proofs.Unfinished.Entry

/-!
# Numbers with a fault within sources

Where a text leads up to a number that has a fault, the fault is that of the whole source. An entry
that the text leaves open is told by the text in front of the number alone: it breaks off within an
index, a value, a macro body or an attribute, and each of these is a case with a lemma of its own.

* `Reader.raises_attributes` and `Reader.entryEnd_eq_error_of_unfinished` are about the attributes
  of an entry that is otherwise complete
* `Reader.entry_eq_error_of_unfinished` hands the fault on through entities and macros, by cases on
  where the entry breaks off
* `Reader.faultsBehind_of_unfinishedBody` hands it on through the entries and blanks before it
* `AwaitsOperand.ofChars_eq_error` is the result for whole sources: where an operand is to follow a
  text and a number with a fault stands behind it, the source has that fault
-/

namespace LocaleText

variable {e : Fault} {l i j : Input} {n : Nesting} {o : Nat} {text : List Char}
  {openings : List Opening}

/-- The list of parameters holds names, dollar signs, commas and blanks. -/
theorem UnfinishedParameters.uncut {text : List Char} (h : UnfinishedParameters text) : Uncut text := by
  induction h with
  | nil => exact .nil
  | name hid ht =>
    rw [ht]
    exact .append (by decide) hid.uncut
  | unclosed hname hg ht =>
    rw [ht]
    exact .blanks (hname.endsAs.append _).uncut hg
  | more _ _ hg' _ ht ih =>
    rw [ht]
    exact .append (.blanks (.snoc _ (by decide)) hg') ih

/-- Attributes in front of a digit begin neither with a blank nor with the end of the entry. -/
theorem Input.LeadsTo.attributes_front (hj : j.AtDigit) (h : i.LeadsTo text j)
    (hu : UnfinishedAttributes n o text openings) :
    NextNot isBlank i.rest ∧ i.rest.head? ≠ some '>' := by
  have hends : Input.BreaksOff ⟨o, text⟩ (UnfinishedAttributes n) openings.head? := ⟨openings, hu, rfl⟩
  rcases h.head? with ⟨rfl, -⟩ | hhead
  · obtain ⟨d, hd, hdigit⟩ := hj
    rw [hd]
    refine ⟨nextNot_of_head? hd ?_, fun hc => ne_of_class hdigit (by decide) (Option.some.inj hc)⟩
    rw [Bool.eq_false_iff]
    intro hblank
    exact absurd (isWordChar_of_isDigit hdigit) (by rw [isWordChar_of_isBlank hblank]; decide)
  · rw [NextNot, hhead]
    exact hends.attributes_front

/-- An unfinished entry is more than the sigil, and begins as every entry does. -/
theorem Input.LeadsTo.head_of_entry (h : i.LeadsTo text j) (hu : UnfinishedEntry n o text openings) :
    i.rest.head? = some '<' := by
  have hends : Input.BreaksOff ⟨o, text⟩ (UnfinishedEntry n) openings.head? := ⟨openings, hu, rfl⟩
  rcases h.head? with ⟨-, rfl⟩ | hhead
  · exact absurd (Option.some.inj hends.entry_head) (by decide)
  · exact hhead.trans hends.entry_head

namespace Reader

variable {bound : Nat}

/-- A value of an entry or of an attribute. -/
theorem Raises.entryValue (h : Raises e l n i .value) (hi : i.rest.length < bound + 1) :
    entryValue (bound + 1) n i = .error e l :=
  h (bound + 1) bound (Nat.le_succ bound) hi

variable (hy : FaultyNumber j e l)
include hy

/-- By induction on the attributes in front of the number. -/
theorem raises_attributes (h : UnfinishedAttributes n o text openings) (ho : i.offset = o)
    (hl : i.LeadsTo text j) (hi : i.rest.length < bound + 1) (entries : Attributes) :
    FaultsBehind (attributeRound (bound + 1) n) entries i e l := by
  induction h generalizing i entries with
  | key hkey => exact absurd hkey.uncut hl.not_uncut
  | value hkey hu ht =>
    subst ho ht
    obtain ⟨m, hm, hrest, hs⟩ :=
      hl.behind_starts hy.digit hkey.uncut (hu.mayStart (by simp) (by simp))
    have hlen := hm.length
    exact .now (attributeRound_eq_error hkey hm hs.nextNot_isBlank
      (Raises.entryValue (hu.raises hy hm.offset hrest) (by omega)))
  | unclosed _ hv hg ht =>
    rw [ht] at hl
    exact absurd ((hv.endsAs.append _).uncut.blanks hg) hl.not_uncut
  | @more _ key value gap gap' rest _ name v _ hkey hv hg hg' hu ht ih =>
    subst ho ht
    obtain ⟨m, hm, hrest⟩ := hl.behind (.blanks (.snoc _ (by decide)) hg')
    have hlen := hm.length_lt (by simp)
    have hfresh := (hrest.attributes_front hy.digit hu).1
    exact .again ((attributeRound_iff hi).mpr ⟨key, name, value, v, gap, hkey, hv, hg,
      .inr ⟨gap', hm, hg', hfresh, rfl⟩⟩) (ih hm.offset hrest (by omega) _)

/-- Attributes with the blanks before them. -/
theorem entryEnd_eq_error_of_unfinished {gap : List Char} {m : Input}
    (h : UnfinishedAttributes n o text openings) (ho : m.offset = o) (hl : m.LeadsTo text j)
    (ht : i.Takes gap m) (hg : Blanks gap) (hi : i.rest.length < bound + 1) :
    entryEnd (bound + 1) n i = .error e l := by
  have hlen := ht.length
  obtain ⟨hfresh, hend⟩ := hl.attributes_front hy.digit h
  exact entryEnd_eq_error hi ht hg hfresh hend (raises_attributes hy h ho hl (by omega) [])

/-- By the part of the entry that the number is in. -/
theorem entry_eq_error_of_unfinished (h : UnfinishedEntry n i.offset text openings)
    (hl : i.LeadsTo text j) (hi : i.rest.length < bound + 1) : entry (bound + 1) n i = .error e l := by
  cases h with
  | name hid ht =>
    rw [ht] at hl
    exact absurd (Uncut.append (by decide) hid.uncut) hl.not_uncut
  | @index id gap rest _ name ending _ hname hg hu ht =>
    subst ht
    obtain ⟨m, hm, hrest, hs⟩ := hl.behind_starts hy.digit (.blanks (.snoc _ (by decide)) hg)
      (hu.mayStart (by simp) (by simp))
    rw [List.append_assoc (['<'] ++ id)] at hm
    obtain ⟨k, hk, hopen⟩ := Input.takes_append.mp hm
    have hklen := hk.length
    have hlen := hopen.length_lt (by simp)
    have hhead : k.rest.head? = some '[' := by
      rw [hopen.rest]
      rfl
    have hraises : Raises e l n m .items := hu.raises hy (by rw [hm.offset]; simp) hrest
    rw [entry_of_name hname hk (nextNot_of_head? hhead (name_ending hname).2),
      behindName_of_bracket hhead]
    exact bind_eq_error.mpr (.inl (expressions_eq_error (exact_inner bound) rfl (by omega) hopen hg
      hs.nextNot_isBlank (hraises (bound + 1) .index _ #[] rfl (by omega))))
  | @value id index before rest _ name ending es _ hname hindex hg hnext hu ht =>
    subst ht
    obtain ⟨m, hm, hrest, hs⟩ := hl.behind_starts hy.digit
      ((hindex.uncut (hname.endsAs.append _).uncut).blanks hg) (hu.mayStart (by simp) (by simp))
    have hlen := hm.length
    obtain ⟨k, hk, hskip⟩ := Input.takes_append.mp hm
    obtain ⟨hhead, c, hc, hv⟩ := hrest.head_of_value hu
    refine entry_eq_error_of_entity hi hname hindex hk (fun hes => ?_) fun _ =>
      entity_eq_error ⟨hskip, hg, hs.nextNot_isBlank⟩
        (Raises.entryValue (hu.raises hy hm.offset hrest) (by omega))
    rw [hskip.rest]
    refine before_front hg (fun hempty => ?_) ?_
    · rw [NextNot, hhead]
      exact hnext hes hempty
    · rw [hc]
      rcases hv with rfl | rfl <;> decide
  | @attributes id index before value behind rest _ name ending es v _ hname hindex hg hnext hv hg' hu
      ht =>
    subst ht
    obtain ⟨m, hm, hrest⟩ := hl.behind ((hv.endsAs.append _).uncut.blanks hg')
    have hlen := hm.length
    rw [List.append_assoc _ value, List.append_assoc _ before] at hm
    obtain ⟨k, hk, hbehind⟩ := Input.takes_append.mp hm
    rw [← List.append_assoc] at hbehind
    have hklen := hk.length
    obtain ⟨hfresh, -⟩ := hrest.attributes_front hy.digit hu
    rw [byteLength_append (_ ++ index), ← Nat.add_assoc, ← hk.offset] at hv
    refine entry_eq_error_of_entity hi hname hindex hk (fun hes => ?_) fun _ =>
      entity_eq_error_of_end (by omega) hbehind hg hg' hv hfresh
        (entryEnd_eq_error_of_unfinished hy hu ?_ hrest (.refl m) blanks_nil (by omega))
    · rw [hbehind.rest, List.append_assoc, List.append_assoc]
      exact before_value_front hg hv (hnext hes) _
    · rw [hbehind.offset, hk.offset]
      simp [Nat.add_assoc]
  | parameters hname hg hu ht =>
    rw [ht] at hl
    exact absurd (Uncut.append (.blanks (.snoc _ (by decide)) hg) hu.uncut) hl.not_uncut
  | noBody _ _ _ hg ht =>
    rw [ht] at hl
    exact absurd (Uncut.blanks (.snoc _ (by decide)) hg) hl.not_uncut
  | body hname hg₁ hparams hg₂ hu ht =>
    subst ht
    obtain ⟨m, hm, hrest⟩ := hl.behind (.snoc _ (by decide))
    have hlen := hm.length_lt (by simp)
    have hraises : Raises e l n m .enclosed := hu.raises hy hm.offset hrest
    exact entry_eq_error_of_brace hi hname hg₁ hparams hg₂ hm fun _ =>
      bind_eq_error.mpr (.inl (hraises (bound + 1) '\x7d' (by omega)))
  | @macroAttributes id gap₁ params gap₂ gap₃ body gap₄ gap₅ rest _ name _ ending ids x _ hname hg₁ hparams
      hg₂ hg₃ hb hg₄ hg₅ hu ht =>
    subst ht
    obtain ⟨m, hm, hrest⟩ := hl.behind (.blanks (.snoc _ (by decide)) hg₅)
    obtain ⟨q, hq, hbehind⟩ := Input.takes_append.mp hm
    rw [List.append_assoc _ gap₄, List.append_assoc _ body, List.append_assoc _ gap₃] at hq
    obtain ⟨k, hk, hbody⟩ := Input.takes_append.mp hq
    rw [← List.append_assoc body, ← List.append_assoc gap₃, ← List.append_assoc gap₃] at hbody
    have hklen := hk.length
    have hqlen := hq.length_lt (by simp)
    rw [byteLength_append _ gap₃, ← Nat.add_assoc, ← hk.offset] at hb
    exact entry_eq_error_of_brace hi hname hg₁ hparams hg₂ hk fun _ =>
      behindBrace_eq_error_of_end (by omega) hbody hg₃ hg₄ hb
        (entryEnd_eq_error_of_unfinished hy hu hm.offset hrest hbehind hg₅ (by omega))

/-- By induction on the entries in front of the one that the number is in. -/
theorem faultsBehind_of_unfinishedBody (h : UnfinishedBody n o text openings) (ho : i.offset = o)
    (hl : i.LeadsTo text j) (hi : i.rest.length < bound + 1) (body : Array Item) :
    FaultsBehind (itemRound (bound + 1) n) body i e l := by
  induction h generalizing i body with
  | @last o gap rest _ _ hg hu ht =>
    subst ho ht
    obtain ⟨m, hm, hrest⟩ := hl.behind (.blanks .nil hg)
    have hlen := hm.length
    have hhead := hrest.head_of_entry hu
    have hentry : entry (bound + 1) n m = .error e l :=
      entry_eq_error_of_unfinished hy (hm.offset ▸ hu) hrest (by omega)
    refine .now ?_
    rw [itemRound_of_skips ⟨hm, hg, nextNot_of_head? hhead (by decide)⟩, if_neg (by simp [hhead])]
    exact bind_eq_error.mpr (.inl hentry)
  | @entry o gap entry rest _ x _ hg hx hu ht ih =>
    subst ho ht
    obtain ⟨m, hm, hrest⟩ := hl.behind (hx.uncut gap)
    have hlen := hm.length
    exact .again ((itemRound_iff hi).mpr (.inr ⟨gap, entry, x, hm, hg, hx, rfl⟩))
      (ih hm.offset hrest (by omega) _)

end Reader

/-- Wherever an operand is to follow the text in front of it, the fault of a number is that of the
source. -/
theorem AwaitsOperand.ofChars_eq_error {limit : Option Nat} {before rest : List Char}
    (h : AwaitsOperand limit before) (hy : Reader.FaultyNumber ⟨byteLength before, rest⟩ e l) :
    Resource.ofChars limit (before ++ rest) = .error e := by
  obtain ⟨openings, hu⟩ := h.reference
  have hl : (Input.ofText (before ++ rest)).LeadsTo (before ++ [Scope.global.sigil])
      ⟨byteLength before, rest⟩ := ⟨before, rfl, h.word, rfl, (Nat.zero_add _).symm⟩
  have hlen : (Input.ofText (before ++ rest)).rest.length < (before ++ rest).length + 1 :=
    Nat.lt_succ_self _
  have hfaults := Reader.faultsBehind_of_unfinishedBody hy hu rfl hl hlen #[]
  exact Resource.ofChars_eq_error_iff.mpr
    ⟨l, hfaults.repeatUpTo Reader.shortens_itemRound hlen hlen⟩

end LocaleText
