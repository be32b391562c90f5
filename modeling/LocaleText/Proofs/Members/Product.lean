import LocaleText.Proofs.Members.Reading

/-!
# Products at the end of an expression

Where an expression is followed by `*` and an operand, the operand is one more factor of the last
product in it. The text of the expression does not change, only its tree.

* `FactorText` is a text that is an operand; `NameText.factored` says what a name is as a factor
* `SpellsOperation.times_of_six` multiplies a product, and `SpellsExpr.times` an expression
* `FaultyFactor` is an operand that has a fault, and `Reader.faultyFactor_of_digits` an
  integer that is too large
* `Reader.operations_eq_error_of_factor` hands that fault on to the operations around the product,
  and `Reader.expression_eq_error_of_factor` to the expression
-/

namespace LocaleText

/-! ### Names as factors -/

/-- A text that is an operand wherever it stands without a limit. -/
def FactorText (text : List Char) (ending : Ending) : Prop :=
  ∀ (n : Nesting) (o : Nat), n.limit = none → ∃ e, SpellsOperand n o text e ending

/-- What a name is as a factor: an operand, an integer with a name behind it, or an integer that is too
large. -/
inductive Factored : List Char → Prop
  | whole {id : List Char} {ending : Ending} : FactorText id ending → Factored id
  | begun {digits name : List Char} :
      FactorText digits .digits → IsOperandName name → Factored (digits ++ name)
  | large {digits rest : List Char} : (∀ d ∈ digits, d.isDigit = true) → NextNot Char.isDigit rest →
      integerBound ≤ decimalValue digits → Factored (digits ++ rest)

/-- A quote in front of a name has to be followed by one behind it: a quote alone begins a string. -/
theorem NameText.factored {id : List Char} {name : String} {ending : Ending}
    (h : NameText id name ending) (hending : ending = .word ∨ ending = .closed) : Factored id := by
  cases h with
  | opened => simp at hending
  | quoted hname hq =>
    have hfactor : FactorText _ .closed := fun n o hn =>
      ⟨_, .value (.string (Nesting.hasRoom_iff.mpr (Nesting.allows_of_none hn)) hq
        (stringContent_of_isWordChar hq hname.2) rfl)⟩
    exact .whole hfactor
  | bare hname =>
    obtain ⟨digits, rest, rfl, hdigits, hrest⟩ : ∃ digits rest, id = digits ++ rest ∧
        (∀ d ∈ digits, d.isDigit = true) ∧ NextNot Char.isDigit rest := by
      obtain ⟨ht, hdigits, hrest⟩ :=
        Reader.takeWhile_eq_ok.mp (rfl : Reader.takeWhile Char.isDigit ⟨0, id⟩ = _)
      exact ⟨_, _, ht.rest, hdigits, hrest⟩
    have hwords : ∀ c ∈ rest, isWordChar c = true := fun c hc => hname.2 c (List.mem_append_right _ hc)
    by_cases hbound : integerBound ≤ decimalValue digits
    · exact .large hdigits hrest hbound
    by_cases hne : digits = []
    · rw [hne, List.nil_append] at hname ⊢
      have hfactor : FactorText rest .operand := fun n o _ => ⟨_, .ident hname hrest⟩
      exact .whole hfactor
    have hfactor : FactorText digits .digits := fun n o _ =>
      ⟨_, .integer ⟨hne, hdigits, Nat.lt_of_not_le hbound⟩⟩
    by_cases hrestne : rest = []
    · rw [hrestne, List.append_nil]
      exact .whole hfactor
    · exact .begun hfactor ⟨⟨hrestne, hwords⟩, hrest⟩

/-! ### Factors in the grammar -/

section Spells

variable {factor gap text : List Char} {n : Nesting} {o rank : Nat} {e : Expr}
  {ending ending' : Ending}

/-- A product goes on with one more factor. -/
theorem SpellsOperation.times_of_six (h : SpellsOperation 6 n o text e ending) (hg : Blanks gap)
    (hf : FactorText factor ending') (hn : n.limit = none) :
    ∃ e', SpellsOperation 6 n o (text ++ gap ++ ['*'] ++ factor) e' ending' := by
  obtain ⟨r, hr⟩ := hf n (o + byteLength (text ++ gap ++ BinaryOp.mul.token ++ [])) hn
  have hright : SpellsOperation 7 n _ factor r ending' := .looser (.operand hr)
  exact ⟨_, .binary rfl h hg (by decide) hright (by simp [BinaryOp.token])⟩

mutual

/-- Along the right end of an operation. -/
theorem SpellsOperation.times : ∀ {rank n o text e ending}, SpellsOperation rank n o text e ending →
    rank ≤ 6 → n.limit = none → Blanks gap → FactorText factor ending' →
    ∃ e', SpellsOperation rank n o (text ++ gap ++ ['*'] ++ factor) e' ending'
  | _, _, _, _, _, _, .operand _, hr, _, _, _ => absurd hr (by decide)
  | rank, _, _, _, _, _, .looser h, hr, hn, hg, hf => by
    by_cases hsix : rank = 6
    · subst hsix
      exact (SpellsOperation.looser h).times_of_six hg hf hn
    · obtain ⟨e', h'⟩ := h.times (by omega) hn hg hf
      exact ⟨e', .looser h'⟩
  | _, _, _, _, _, _, .unary .., hr, _, _, _ => absurd hr (by decide)
  | rank, _, _, _, _, _, .binary hop hl hg₁ hg₂ hright htext, hr, hn, hg, hf => by
    by_cases hsix : rank = 6
    · subst hsix
      exact (SpellsOperation.binary hop hl hg₁ hg₂ hright htext).times_of_six hg hf hn
    · obtain ⟨r', h'⟩ := hright.times (by omega) hn hg hf
      exact ⟨_, .binary hop hl hg₁ hg₂ h' (by rw [htext]; simp)⟩
  | _, _, _, _, _, _, .choice ht hg₁ hg₂ hc hg₃ hg₄ ha htext, _, hn, hg, hf => by
    obtain ⟨a', h'⟩ := ha.times hn hg hf
    exact ⟨_, .choice ht hg₁ hg₂ hc hg₃ hg₄ h' (by rw [htext]; simp)⟩

/-- At the end of its last operand, whatever the operators in front of it. -/
theorem SpellsExpr.times : ∀ {n o text e ending}, SpellsExpr n o text e ending → n.limit = none →
    Blanks gap → FactorText factor ending' →
    ∃ e', SpellsExpr n o (text ++ gap ++ ['*'] ++ factor) e' ending'
  | _, _, _, _, _, .mk hroom h, hn, hg, hf => by
    obtain ⟨e', h'⟩ := h.times (by decide) hn hg hf
    exact ⟨e', .mk hroom h'⟩

end

end Spells

/-! ### Factors with a fault -/

/-- An operand that has a fault wherever it is read without a limit. -/
structure FaultyFactor (k : Input) (e : Fault) (l : Input) : Prop where
  starts : Starts k.rest
  error : ∀ inner bound signs (n : Nesting), n.limit = none →
    Reader.unary inner bound (signs + 1) n k = .error e l

namespace Reader

variable {inner : Nesting → Reader Expr} {bound rank : Nat} {n : Nesting} {i k l : Input} {e : Fault}
  {left : Expr} {ending : Ending} {text gap : List Char}

variable (hk : FaultyFactor k e l) (hn : n.limit = none) (hg : Blanks gap)
include hk hn hg

/-- By induction on the levels: at the rank of products the operand is the next factor, and before that
it stands at the right end of the operation. -/
theorem operations_eq_error_of_factor (h : Exact bound inner) {levels : List (List BinaryOp)}
    (hr : Ranked rank levels) (hpos : 1 ≤ rank) (hle : rank ≤ 6)
    (hspells : SpellsOperation rank n i.offset text left ending) (ht : i.Takes (text ++ gap ++ ['*']) k)
    (hi : i.rest.length < bound + 1) : operations inner (bound + 1) n levels i = .error e l := by
  induction levels generalizing rank i text left ending with
  | nil =>
    rw [Ranked] at hr
    omega
  | cons level tighter ih =>
    by_cases hsix : rank = 6
    · subst hsix
      cases tighter with
      | cons next tighter =>
        have := hr.2.2.2.2.le
        omega
      | nil =>
        have hmul : BinaryOp.rank .mul = 6 := rfl
        refine operations_eq_error_of_right h hr hpos hmul hspells hg blanks_nil ?_ hk.starts hi
          (hk.error inner (bound + 1) bound n hn)
        simpa [BinaryOp.token] using ht
    · cases hspells with
      | operand => omega
      | unary => omega
      | choice => omega
      | looser hspells =>
        exact bind_eq_error.mpr (.inl (ih hr.2.2 (by omega) (by omega) hspells ht hi))
      | @binary _ _ _ op first gap₁ gap₂ right _ _ _ _ _ hop hleft hg₁ hg₂ hright htext =>
        rw [htext, List.append_assoc, List.append_assoc _ right] at ht
        obtain ⟨k₃, hk₃, hl⟩ := Input.takes_append.mp ht
        rw [← List.append_assoc] at hl
        rw [← hk₃.offset] at hright
        have hlen := hk₃.length
        have hstarts : Starts k₃.rest := by
          rw [hl.rest, List.append_assoc, List.append_assoc]
          exact hright.starts.append _
        exact operations_eq_error_of_right h hr hpos hop hleft hg₁ hg₂ hk₃ hstarts hi
          (ih hr.2.2 (by omega) (by omega) hright hl (by omega))

/-- By induction on the bound: the operand is a factor in the operation or in the alternate of the
choice. -/
theorem expression_eq_error_of_factor (hspells : SpellsExpr n i.offset text left ending)
    (ht : i.Takes (text ++ gap ++ ['*']) k) (hi : i.rest.length < bound) :
    expression bound n i = .error e l := by
  induction bound generalizing n i text left ending with
  | zero => omega
  | succ bound ih =>
    obtain ⟨hroom, hspells⟩ := hspells
    refine expression_eq_error hroom ?_
    cases hspells with
    | looser hspells =>
      have hn' : n.deeper.limit = none := hn
      exact bind_eq_error.mpr (.inl (operations_eq_error_of_factor hk hn' hg (exact_expression bound)
        ranked_levels (Nat.le_refl 1) (by decide) hspells ht hi))
    | @binary _ _ _ op _ _ _ _ _ _ _ _ _ hop =>
      have := op.rank_pos
      omega
    | @choice _ _ test gap₁ gap₂ consequent gap₃ gap₄ alternate _ t c a _ _ _ htest hg₁ hg₂ hc hg₃ hg₄ ha
        htext =>
      rw [htext, List.append_assoc, List.append_assoc _ alternate] at ht
      obtain ⟨j, hj, hl⟩ := Input.takes_append.mp ht
      rw [← List.append_assoc] at hl
      rw [← hj.offset] at ha
      have hlen := hj.length_lt (by simp)
      have hstarts : Starts j.rest := by
        rw [hl.rest, List.append_assoc, List.append_assoc]
        exact ha.starts.append _
      exact conditional_eq_error_of_alternate (exact_expression bound) hi htest hg₁ hg₂ hc hg₃ hg₄ hj
        hstarts (ih hn ha hl (by omega))

omit hk hn hg

/-- An integer that is too large has a fault. -/
theorem faultyFactor_of_digits {digits : List Char} (hdigits : ∀ d ∈ digits, d.isDigit = true)
    (hbound : integerBound ≤ decimalValue digits) (ht : k.Takes digits l)
    (hnext : NextNot Char.isDigit l.rest) :
    FaultyFactor k ⟨.malformedExpression, extent k.offset digits, some .integerRange, none⟩ l := by
  obtain _ | ⟨c, cs⟩ := digits
  · exact absurd hbound (by decide)
  have hword := isWordChar_of_isDigit (hdigits c (List.mem_cons_self ..))
  constructor
  · rw [ht.rest]
    refine .cons ?_ (ne_of_class hword (by decide))
    simp [isOperandStart, hword]
  · intro inner bound signs n _
    refine unary_eq_error_of_primary ?_ ?_
    · rw [ht.head, Option.bind_some, ofChar?_eq_none (.inl hword)]
    · rw [primary_of_digits (List.cons_ne_nil c cs) hdigits ht hnext,
        if_neg (Nat.not_lt_of_le hbound)]

end Reader

end LocaleText
