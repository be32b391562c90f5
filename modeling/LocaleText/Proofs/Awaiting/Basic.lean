import LocaleText.Proofs.Unfinished.Value

/-!
# Texts that an operand is to follow

A number stands only where the grammar asks for an operand. Whether it does so behind a text is told by
what else could begin there: behind such a text a source may break off with the sigil of a reference,
and behind no other one. The text must not end within a word either, since the digits of a number would
be read as part of it.

* `AwaitsOperand` is the condition, by the grammar of unfinished texts
* `EndsAs` says how an expression ends, and `SpellsExpr.endsAs` that it does: with a word character, or
  with a character that closes it
* `Uncut` are the texts that the sigil at the end of an unfinished text is not part of; all that is
  complete in front of the unfinished part is such a text
* `Input.LeadsTo` says that an unfinished text with the sigil at its end is what stands between two
  places of a source, and `Input.LeadsTo.behind` leads on behind what is complete
* `Input.LeadsTo.starts` and `Input.LeadsTo.parted` say how the rest begins and that it is told apart
  from a part of a list before it, where a digit stands at the second place
-/

namespace LocaleText

/-- An operand is to follow a text at the front of a source: it breaks off where a reference could begin,
and it does not end within a word. -/
structure AwaitsOperand (limit : Option Nat) (before : List Char) : Prop where
  reference : ∃ openings,
    UnfinishedBody (.outermost limit) 0 (before ++ [Scope.global.sigil]) openings
  word : ∀ c ∈ before.getLast?, isWordChar c = false

/-! ### How an expression ends -/

def operandEnds : List Char := ['~', '"', '\'', ')', ']', '\x7d']

/-- A text ends with a word character, or with a closer that nothing is read as part of. -/
def EndsAs (text : List Char) (ending : Ending) : Prop :=
  ∃ c, text.getLast? = some c ∧ (isWordChar c = true ∨ (c ∈ operandEnds ∧ ending = .closed))

namespace EndsAs

variable {text : List Char} {ending : Ending} {c : Char}

theorem append (h : EndsAs text ending) (front : List Char) : EndsAs (front ++ text) ending := by
  obtain ⟨c, hc, hends⟩ := h
  exact ⟨c, by rw [List.getLast?_append, hc]; rfl, hends⟩

theorem of_end (hc : c ∈ operandEnds) (front : List Char) : EndsAs (front ++ [c]) .closed :=
  ⟨c, List.getLast?_concat, .inr ⟨hc, rfl⟩⟩

theorem of_words (hne : text ≠ []) (hw : ∀ c ∈ text, isWordChar c = true) (ending : Ending) :
    EndsAs text ending :=
  ⟨text.getLast hne, List.getLast?_eq_some_getLast hne, .inl (hw _ (List.getLast_mem hne))⟩

end EndsAs

/-- A name without quotes ends with a word character, one in quotes with its closing quote. -/
theorem NameText.endsAs {text : List Char} {name : String} {ending : Ending}
    (h : NameText text name ending) : EndsAs text ending := by
  cases h with
  | bare hname => exact .of_words hname.1 hname.2 _
  | @opened name quote hname _ => exact (EndsAs.of_words hname.1 hname.2 _).append [quote]
  | @quoted name quote _ hq =>
    have hc : quote ∈ operandEnds := by
      rcases isQuote_iff.mp hq with rfl | rfl <;> decide
    exact .of_end hc (quote :: name)

section Spells

variable {n : Nesting} {o : Nat} {text : List Char}

/-- A value ends with what closes it. -/
theorem SpellsValue.endsAs {v : Value} (h : SpellsValue n o text v) : EndsAs text .closed := by
  cases h with
  | string _ hq _ ht =>
    rw [ht]
    refine .of_end ?_ _
    rcases isQuote_iff.mp hq with rfl | rfl <;> decide
  | array _ _ _ ht | object _ _ _ _ ht =>
    rw [ht]
    exact .of_end (by decide) _

/-- By cases on the operand: only names and digits are not closed. -/
theorem SpellsOperand.endsAs {e : Expr} {ending : Ending} (h : SpellsOperand n o text e ending) :
    EndsAs text ending := by
  cases h with
  | integer hdigits =>
    exact .of_words hdigits.1 (fun c hc => isWordChar_of_isDigit (hdigits.2.1 c hc)) _
  | ident hname => exact .of_words hname.1 hname.2 _
  | reference hname ht =>
    rw [ht]
    exact hname.endsAs.append _
  | this => exact .of_end (by decide) []
  | value h => exact h.endsAs
  | parenthesis _ _ _ ht | call _ _ _ _ ht | select _ _ _ _ _ ht =>
    rw [ht]
    exact .of_end (by decide) _

mutual

/-- Along the right end of an operation. -/
theorem SpellsOperation.endsAs : ∀ {rank n o text e ending},
    SpellsOperation rank n o text e ending → EndsAs text ending
  | _, _, _, _, _, _, .operand h => h.endsAs
  | _, _, _, _, _, _, .looser h => h.endsAs
  | _, _, _, _, _, _, .unary _ _ h ht => by
    rw [ht]
    exact h.endsAs.append _
  | _, _, _, _, _, _, .binary _ _ _ _ h ht => by
    rw [ht]
    exact h.endsAs.append _
  | _, _, _, _, _, _, .choice _ _ _ _ _ _ h ht => by
    rw [ht]
    exact h.endsAs.append _

theorem SpellsExpr.endsAs : ∀ {n o text e ending}, SpellsExpr n o text e ending → EndsAs text ending
  | _, _, _, _, _, .mk _ h => h.endsAs

end

end Spells

/-! ### Texts in front of the sigil -/

/-- A text does not end with the sigil that a reference could begin with. -/
def Uncut (text : List Char) : Prop := text.getLast? ≠ some Scope.global.sigil

instance (text : List Char) : Decidable (Uncut text) :=
  inferInstanceAs (Decidable (text.getLast? ≠ some Scope.global.sigil))

namespace Uncut

variable {front text gap : List Char} {c : Char}

theorem nil : Uncut [] := by simp [Uncut]

theorem append (hf : Uncut front) (ht : Uncut text) : Uncut (front ++ text) := by
  rw [Uncut, List.getLast?_append]
  cases hlast : text.getLast? with
  | none => exact hf
  | some c =>
    rw [Uncut, hlast] at ht
    exact ht

theorem of_ne (hc : c ≠ Scope.global.sigil) : Uncut [c] := by simpa [Uncut] using hc

/-- One more character that is not the sigil. -/
theorem snoc (front : List Char) (hc : c ≠ Scope.global.sigil) : Uncut (front ++ [c]) := by
  rw [Uncut, List.getLast?_concat]
  simpa using hc

theorem blanks (hf : Uncut front) (hg : Blanks gap) : Uncut (front ++ gap) := by
  refine hf.append fun hlast => ?_
  exact absurd (hg _ (List.mem_of_getLast? hlast)) (by decide)

end Uncut

/-- None of the characters that end an expression is the sigil. -/
theorem EndsAs.uncut {text : List Char} {ending : Ending} (h : EndsAs text ending) : Uncut text := by
  obtain ⟨c, hc, hends⟩ := h
  intro hsigil
  obtain rfl := Option.some.inj (hc.symm.trans hsigil)
  rcases hends with hword | ⟨hcloser, -⟩
  · exact absurd hword (by decide)
  · exact absurd hcloser (by decide)

theorem KeyText.uncut {key : List Char} {name : String} (h : KeyText key name) : Uncut key := by
  obtain ⟨_, _, hg⟩ := h
  exact (Uncut.snoc _ (by decide)).blanks hg

/-- What parts two members of a list is blank, or has a comma. -/
theorem Separator.uncut {ending : Ending} {front gap next separator : List Char}
    (h : Separator ending gap next separator) (hf : Uncut front) : Uncut (front ++ separator) := by
  cases h with
  | comma hb =>
    rw [← List.append_assoc]
    exact (Uncut.snoc _ (by decide)).blanks hb
  | omitted => rwa [List.append_nil]

theorem uncut_markText (marked : Bool) : Uncut (markText marked) := by
  cases marked with
  | true => exact .of_ne (by decide)
  | false => exact .nil

/-- An unfinished name holds word characters and a quote only. -/
theorem UnfinishedName.uncut {id : List Char} (h : UnfinishedName id) : Uncut id := by
  cases h with
  | nil => exact .nil
  | quote hq => exact .of_ne (ne_of_class hq (by decide))

theorem UnfinishedKey.uncut {key : List Char} (h : UnfinishedKey key) : Uncut key := by
  cases h with
  | name h => exact h.uncut
  | colon hname hg ht =>
    rw [ht]
    exact hname.endsAs.uncut.blanks hg

theorem SpellsIndex.uncut {n : Nesting} {o : Nat} {front index : List Char} {es : Option (List Expr)}
    (h : SpellsIndex n o index es) (hf : Uncut front) : Uncut (front ++ index) := by
  cases h with
  | none => rwa [List.append_nil]
  | some _ _ ht =>
    rw [ht, ← List.append_assoc]
    exact .snoc _ (by decide)

/-- An entry ends with `>`. -/
theorem SpellsEntry.uncut {n : Nesting} {o : Nat} {text : List Char} {e : Entry}
    (h : SpellsEntry n o text e) (front : List Char) : Uncut (front ++ text) := by
  have htail : ∀ {o tail attrs} (front : List Char), SpellsTail n o tail attrs →
      Uncut (front ++ tail) := by
    intro o tail attrs front h
    cases h with
    | bare => exact .snoc _ (by decide)
    | attributes =>
      rw [← List.append_assoc]
      exact .snoc _ (by decide)
  cases h with
  | entity _ _ _ _ _ _ ht htext | macroDef _ _ _ _ _ _ _ _ ht htext =>
    rw [htext, ← List.append_assoc]
    exact htail _ ht

theorem Selection.uncut_opener (selection : Selection) (front : List Char) :
    Uncut (front ++ selection.opener) := by
  cases selection with
  | «attribute» => exact List.append_cons front '[' ['.'] ▸ Uncut.snoc _ (by decide)
  | member => exact .snoc _ (by decide)

theorem BinaryOp.uncut_token (op : BinaryOp) : Uncut op.token := by
  cases op <;> decide

/-! ### Places in a source -/

/-- A digit comes next. -/
def Input.AtDigit (i : Input) : Prop := ∃ c, i.rest.head? = some c ∧ c.isDigit = true

/-- Between two places of a source stands a text without the sigil at its end, which does not end within
a word. -/
def Input.LeadsTo (i : Input) (text : List Char) (j : Input) : Prop :=
  ∃ before, text = before ++ [Scope.global.sigil] ∧ (∀ c ∈ before.getLast?, isWordChar c = false) ∧
    i.Takes before j

namespace Input.LeadsTo

variable {i j : Input} {front text rest : List Char}

/-- The unfinished part is not empty, since the sigil is part of it. -/
theorem not_uncut (h : i.LeadsTo text j) : ¬ Uncut text := by
  obtain ⟨before, rfl, -, -⟩ := h
  exact fun hu => hu List.getLast?_concat

/-- Behind a part of the text in front of the sigil. -/
theorem behind (h : i.LeadsTo (front ++ rest) j) (hf : Uncut front) :
    ∃ m, i.Takes front m ∧ m.LeadsTo rest j := by
  obtain ⟨before, htext, hword, hbefore⟩ := h
  rcases List.eq_nil_or_concat rest with rfl | ⟨rest, c, rfl⟩
  · rw [List.append_nil] at htext
    exact absurd (by rw [htext, List.getLast?_concat]) hf
  · rw [List.concat_eq_append, ← List.append_assoc] at htext
    obtain ⟨rfl, hc⟩ := List.append_inj' htext rfl
    obtain ⟨m, hm, hj⟩ := Input.takes_append.mp hbefore
    refine ⟨m, hm, rest, by rw [List.concat_eq_append, hc], fun c hlast => hword c ?_, hj⟩
    rw [List.getLast?_append, hlast]
    rfl

/-- Either nothing stands between the places, or the text comes next. -/
theorem head? (h : i.LeadsTo text j) : (i = j ∧ text = [Scope.global.sigil]) ∨
    i.rest.head? = text.head? := by
  obtain ⟨before, rfl, -, hbefore⟩ := h
  cases before with
  | nil => exact .inl ⟨(Input.takes_nil.mp hbefore).symm, rfl⟩
  | cons c cs =>
    rw [hbefore.rest]
    exact .inr rfl

theorem nextNot {p : Char → Bool} (h : i.LeadsTo text j) (ht : NextNot p text)
    (hj : NextNot p j.rest) : NextNot p i.rest := by
  rcases h.head? with ⟨rfl, -⟩ | hhead
  · exact hj
  · rw [NextNot, hhead]
    exact ht

section Digit

variable (hj : j.AtDigit)
include hj

/-- Something comes next where the text between the places begins as an expression may. -/
theorem starts (h : i.LeadsTo text j) (ht : MayStart text) : Starts i.rest := by
  obtain ⟨d, hd, hdigit⟩ := hj
  obtain ⟨ds, hds⟩ := List.head?_eq_some_iff.mp hd
  have hdne : ∀ c, c.isDigit = false → d ≠ c := fun c hc => ne_of_class hdigit hc
  obtain ⟨before, rfl, -, hbefore⟩ := h
  rw [hbefore.rest, hds]
  match before with
  | [] =>
    refine .cons ?_ (hdne _ (by decide))
    simp [isOperandStart, isWordChar_of_isDigit hdigit]
  | c :: [] =>
    exact ⟨c, d :: ds, rfl, (ht c _ rfl).1, fun _ => ⟨d, ds, rfl, hdne _ (by decide)⟩⟩
  | c :: c' :: cs =>
    obtain ⟨hc, hbang⟩ := ht c _ rfl
    exact ⟨c, _, rfl, hc, fun he => ⟨c', _, rfl, by simpa using hbang he⟩⟩

/-- Behind a part of the text, what is left begins as the rest of the text does. -/
theorem behind_starts (h : i.LeadsTo (front ++ rest) j) (hf : Uncut front) (ht : MayStart rest) :
    ∃ m, i.Takes front m ∧ m.LeadsTo rest j ∧ Starts m.rest := by
  obtain ⟨m, hm, hrest⟩ := h.behind hf
  exact ⟨m, hm, hrest, hrest.starts hj ht⟩

/-- What is left behind a part of a list is told apart from it. -/
theorem parted {item gap separator : List Char} {ending : Ending} {m : Input}
    (h : i.LeadsTo (item ++ gap ++ separator ++ rest) j) (hends : EndsAs item ending)
    (hsep : Separator ending gap rest separator) (hm : m.LeadsTo rest j)
    (hstops : NextNot isSign m.rest → Stops 0 m.rest) (hcomma : m.rest.head? ≠ some ',') :
    Parted ending gap m.rest separator := by
  cases hsep with
  | comma hb => exact .comma hb
  | omitted hapart =>
    obtain ⟨d, hd, hdigit⟩ := hj
    have hsign : NextNot isSign j.rest := nextNot_of_head? hd (by
      rw [Bool.eq_false_iff]
      intro hs
      have hall : ∀ c ∈ ['+', '-', '*'], c.isDigit = false := forall_mem_of_all (by decide)
      rw [hall d (List.contains_iff_mem.mp hs)] at hdigit
      exact absurd hdigit (by decide))
    refine .omitted (fun hgap => ?_) (hstops (hm.nextNot hapart.sign hsign)) hcomma
    subst hgap
    rcases hm.head? with ⟨rfl, rfl⟩ | hhead
    · -- the part itself stands in front of the digit, so it ends with a closer
      obtain ⟨before, htext, hword, -⟩ := h
      obtain ⟨rfl, -⟩ := List.append_inj' htext rfl
      simp only [List.append_nil] at hword
      obtain ⟨c, hc, hc' | ⟨-, rfl⟩⟩ := hends
      · rw [hword c hc] at hc'
        exact absurd hc' (by decide)
      · exact fun _ _ => rfl
    · rw [NextNot, hhead]
      exact hapart.clear rfl

end Digit

end Input.LeadsTo

end LocaleText
