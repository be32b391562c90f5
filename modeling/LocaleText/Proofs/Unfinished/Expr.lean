import LocaleText.Proofs.Reading.Operation
import LocaleText.Proofs.Unfinished.Value

/-!
# Operands that the source ends within

The readers of operands run out of input exactly on unfinished texts.

* `Input.endsIn_operand_iff`, `Input.endsIn_arguments_iff` and `Input.endsIn_enclosed_iff` take an
  unfinished text apart
* `Reader.exists_leaves_iff` joins a complete expression to what is missed behind it
* `Reader.runsOut_enclosed` and `Reader.runsOut_arguments` are about brackets, parentheses and calls
* `Reader.runsOut_named` is about names with what is attached to them
* `Reader.runsOut_primary` is the equivalence for operands, `Reader.runsOut_unary` with signs before
  them
-/

namespace LocaleText

namespace Input

variable {i : Input} {n : Nesting} {h : Option Opening}

/-- The source ends within arguments within one, behind one, or behind a comma. -/
theorem endsIn_arguments_iff : i.EndsIn .arguments n h ↔ i.EndsIn .expr n h ∨
    (∃ item gap e ending, SpellsExpr n i.offset item e ending ∧ Blanks gap ∧ i.rest = item ++ gap ∧
      h = none) ∨
    ∃ item gap gap' e ending l, SpellsExpr n i.offset item e ending ∧
      i.Takes (item ++ gap ++ [','] ++ gap') l ∧ Blanks gap ∧ Blanks gap' ∧
      l.EndsIn .arguments n h := by
  constructor
  · rintro ⟨openings, hu, rfl⟩
    generalize htext : i.rest = text at hu
    cases hu with
    | argument hu => exact .inl ⟨openings, by rw [htext]; exact hu, rfl⟩
    | noArgumentEnd hspells hb ht => exact .inr (.inl ⟨_, _, _, _, hspells, hb, ht, rfl⟩)
    | moreArguments hspells hb hb' hu ht =>
      exact .inr (.inr ⟨_, _, _, _, _, _, hspells, takes_after (htext.trans ht), hb, hb', openings,
        hu, rfl⟩)
  · rintro (⟨openings, hu, rfl⟩ | ⟨item, gap, e, ending, hspells, hb, ht, rfl⟩ |
      ⟨_, _, _, _, _, l, hspells, ht, hb, hb', openings, hu, rfl⟩)
    · exact ⟨openings, .argument hu, rfl⟩
    · exact ⟨[], .noArgumentEnd hspells hb ht, rfl⟩
    · rw [ht.offset] at hu
      exact ⟨openings, .moreArguments hspells hb hb' hu ht.rest, rfl⟩

/-- The source ends within brackets or parentheses within the expression or behind it. -/
theorem endsIn_enclosed_iff : i.EndsIn .enclosed n h ↔
    (∃ gap l, i.Takes gap l ∧ Blanks gap ∧ l.EndsIn .expr n h) ∨
    ∃ gap text gap' e ending, SpellsExpr n (i.offset + byteLength gap) text e ending ∧ Blanks gap ∧
      Blanks gap' ∧ i.rest = gap ++ text ++ gap' ∧ h = none := by
  constructor
  · rintro ⟨openings, hu, rfl⟩
    generalize htext : i.rest = text at hu
    cases hu with
    | enclosed hb hu ht =>
      exact .inl ⟨_, _, takes_after (htext.trans ht), hb, openings, hu, rfl⟩
    | unclosed hb hspells hb' ht => exact .inr ⟨_, _, _, _, _, hspells, hb, hb', ht, rfl⟩
  · rintro (⟨gap, l, ht, hb, openings, hu, rfl⟩ | ⟨_, _, _, _, _, hspells, hb, hb', ht, rfl⟩)
    · rw [ht.offset] at hu
      exact ⟨openings, .enclosed hb hu ht.rest, rfl⟩
    · exact ⟨[], .unclosed hb hspells hb' ht, rfl⟩

theorem EndsIn.head?_ne_of_enclosed (he : i.EndsIn .enclosed n h) {c : Char}
    (hc : isOperandStart c = false) (hb : isBlank c = false) : i.rest.head? ≠ some c := by
  rcases endsIn_enclosed_iff.mp he with ⟨gap, l, ht, hg, he⟩ |
    ⟨gap, text, gap', e, ending, hspells, hg, -, hrest, -⟩
  · rw [ht.rest]
    exact (he.mayStart (by simp) (by simp)).head?_gap_ne hg hc hb
  · rw [hrest, List.append_assoc]
    exact (hspells.starts.append _).head?_gap_ne hg hc hb

/-- An unfinished value that is not empty has its opener. -/
theorem EndsIn.head_of_value (he : i.EndsIn .value n h) (hne : i.rest ≠ []) :
    ∃ c, i.rest.head? = some c ∧ (c = '[' ∨ c = '\x7b') := by
  rcases (endsIn_value_iff.mp he).2 with ⟨hnil, -⟩ | ⟨_, _, _, ht, -⟩ | ⟨_, _, _, ht, -⟩
  · exact absurd hnil hne
  · exact ⟨_, ht.head, .inl rfl⟩
  · exact ⟨_, ht.head, .inr rfl⟩

/-- The source ends within an operand before it, within a name behind a sigil, or within a part of
it. -/
theorem endsIn_operand_iff : i.EndsIn .operand n h ↔ (i.rest = [] ∧ h = none) ∨
    (∃ scope l, i.Takes [Scope.sigil scope] l ∧ UnfinishedName l.rest ∧ h = none) ∨
    (i.rest ≠ [] ∧ i.EndsIn .value n h) ∨
    (∃ l, i.Takes ['('] l ∧ l.EndsIn .enclosed n h) ∨
    (∃ name gap l, IsName name ∧ NextNot Char.isDigit name ∧ i.Takes (name ++ ['('] ++ gap) l ∧
      Blanks gap ∧ l.EndsIn .arguments n h) ∨
    ∃ name selection l, IsName name ∧ NextNot Char.isDigit name ∧
      i.Takes (name ++ Selection.opener selection) l ∧ l.EndsIn .enclosed n h := by
  constructor
  · rintro ⟨openings, hu, rfl⟩
    generalize htext : i.rest = text at hu
    cases hu with
    | noOperand => exact .inl ⟨rfl, rfl⟩
    | reference hname ht => exact .inr (.inl ⟨_, _, takes_after (htext.trans ht), hname, rfl⟩)
    | ofValue hne hu => exact .inr (.inr (.inl ⟨hne, openings, by rw [htext]; exact hu, rfl⟩))
    | parenthesis hu ht =>
      exact .inr (.inr (.inr (.inl ⟨_, takes_after (htext.trans ht), openings, hu, rfl⟩)))
    | call hname hnd hb hu ht =>
      exact .inr (.inr (.inr (.inr (.inl ⟨_, _, _, hname, hnd, takes_after (htext.trans ht), hb,
        openings, hu, rfl⟩))))
    | select hname hnd hu ht =>
      exact .inr (.inr (.inr (.inr (.inr ⟨_, _, _, hname, hnd, takes_after (htext.trans ht),
        openings, hu, rfl⟩))))
  · rintro (⟨hrest, rfl⟩ | ⟨scope, l, ht, hname, rfl⟩ | ⟨hne, openings, hu, rfl⟩ |
      ⟨l, ht, openings, hu, rfl⟩ | ⟨name, gap, l, hname, hnd, ht, hb, openings, hu, rfl⟩ |
      ⟨name, selection, l, hname, hnd, ht, openings, hu, rfl⟩)
    · exact ⟨[], by rw [hrest]; exact .noOperand, rfl⟩
    · exact ⟨[], .reference hname ht.rest, rfl⟩
    · exact ⟨openings, .ofValue hne hu, rfl⟩
    · rw [ht.offset] at hu
      exact ⟨openings, .parenthesis hu ht.rest, rfl⟩
    · rw [ht.offset] at hu
      exact ⟨openings, .call hname hnd hb hu ht.rest, rfl⟩
    · rw [ht.offset] at hu
      exact ⟨openings, .select hname hnd hu ht.rest, rfl⟩

/-- No operand begins with a sign. -/
theorem EndsIn.ofChar?_eq_none (he : i.EndsIn .operand n h) :
    ∀ c ∈ i.rest.head?, UnaryOp.ofChar? c = none := by
  intro c hc
  have hname : ∀ {name rest : List Char}, IsName name → i.rest = name ++ rest →
      UnaryOp.ofChar? c = none := by
    intro name rest hname hrest
    obtain ⟨d, ds, rfl, hw⟩ := hname.exists_cons
    rw [hrest] at hc
    exact LocaleText.ofChar?_eq_none (.inl (Option.some.inj hc ▸ hw))
  rcases endsIn_operand_iff.mp he with ⟨hnil, -⟩ | ⟨scope, l, ht, -⟩ | ⟨hne, hv⟩ | ⟨l, ht, -⟩ |
    ⟨name, gap, l, hn, -, ht, -⟩ | ⟨name, selection, l, hn, -, ht, -⟩
  · rw [hnil] at hc
    exact absurd hc (by simp)
  · rw [ht.head] at hc
    obtain rfl := Option.some.inj hc
    cases scope <;> decide
  · obtain ⟨d, hd, hv⟩ := hv.head_of_value hne
    obtain rfl := Option.some.inj (hd.symm.trans hc)
    rcases hv with rfl | rfl <;> decide
  · rw [ht.head] at hc
    obtain rfl := Option.some.inj hc
    decide
  · exact hname hn (by rw [ht.rest, List.append_assoc, List.append_assoc])
  · exact hname hn (by rw [ht.rest, List.append_assoc])

/-- The source ends within an operand, or behind a sign. -/
theorem endsIn_unary_iff : i.EndsIn (.operation 7) n h ↔ i.EndsIn .operand n h ∨
    ∃ op gap l, n.HasRoom ∧ i.Takes ([UnaryOp.token op] ++ gap) l ∧ Blanks gap ∧
      l.EndsIn (.operation 7) n.deeper h := by
  constructor
  · rintro ⟨openings, hu, rfl⟩
    generalize htext : i.rest = text at hu
    cases hu with
    | ofOperand hu => exact .inl ⟨openings, by rw [htext]; exact hu, rfl⟩
    | unary hroom hb hu ht =>
      exact .inr ⟨_, _, _, hroom, takes_after (htext.trans ht), hb, openings, hu, rfl⟩
    | looser hlt => exact absurd hlt (Nat.lt_irrefl 7)
    | @binary _ _ _ op _ _ _ _ _ _ _ _ hop =>
      have := op.rank_le
      omega
  · rintro (⟨openings, hu, rfl⟩ | ⟨op, gap, l, hroom, ht, hb, openings, hu, rfl⟩)
    · exact ⟨openings, .ofOperand hu, rfl⟩
    · rw [ht.offset] at hu
      exact ⟨openings, .unary hroom hb hu ht.rest, rfl⟩

end Input

namespace Reader

variable {inner : Nesting → Reader Expr} {bound : Nat} {n : Nesting} {i l : Input}
  {h : Option Opening}

/-! ### Brackets, parentheses and arguments -/

/-- At the end nothing can be read as part of what is there. -/
theorem leaves_atEnd {text gap : List Char} {ending : Ending} {rank : Nat}
    (ht : i.Takes (text ++ gap) l) (hb : Blanks gap) (hl : l.rest = []) :
    i.Leaves text gap ending rank l := by
  refine ⟨ht, hb, ?_, fun _ => ?_, ?_⟩
  · rw [hl]
    exact nextNot_nil _
  · rw [hl]
    exact nextNot_nil _
  · rw [hl]
    exact .nil rank

/-- An expression with the blanks behind it. -/
theorem exists_leaves_iff (hx : Exact bound inner) (hi : i.rest.length < bound)
    {P : Expr → Input → Prop} :
    (∃ e m, inner n i = .ok e m ∧ ∃ gap l, m.Skips gap l ∧ P e l) ↔
      ∃ e text gap ending l, SpellsExpr n i.offset text e ending ∧ i.Leaves text gap ending 0 l ∧
        P e l := by
  constructor
  · rintro ⟨e, m, he, _, l, hl, hP⟩
    obtain ⟨text, gap, ending, hspells, hleaves⟩ := (hx n i e m hi).mp he
    obtain ⟨rfl, rfl⟩ := hl.eq_of_fresh hleaves.fresh
    exact ⟨e, text, gap, ending, l, hspells, hleaves, hP⟩
  · rintro ⟨e, text, gap, ending, l, hspells, hleaves, hP⟩
    exact ⟨e, l, (hx n i e l hi).mpr ⟨text, gap, ending, hspells, hleaves⟩, [], l,
      .refl hleaves.fresh, hP⟩

/-- The end comes within the expression, or where the closer is missed. -/
theorem runsOut_enclosed (hx : ExactAtEnd bound inner) (hi : i.rest.length < bound) {c : Char} :
    RunsOut (enclosed inner n c) i h ↔ i.EndsIn .enclosed n h := by
  rw [Input.endsIn_enclosed_iff]
  simp only [enclosed, runsOut_blanks_bind, runsOut_bind (x := inner n),
    runsOut_expect_bind .malformedExpression (by decide), not_runsOut_pure, and_false, exists_false,
    or_false]
  constructor
  · rintro ⟨gap, m, hm, hr | hr⟩
    · have hlen := hm.takes.length
      exact .inl ⟨gap, m, hm.takes, hm.blank, (hx.runsOut n m h (by omega)).mp hr⟩
    · have hlen := hm.takes.length
      obtain ⟨e, text, gap', ending, l, hspells, hleaves, hrest, rfl⟩ :=
        (exists_leaves_iff hx.exact (by omega)).mp hr
      rw [hm.takes.offset] at hspells
      refine .inr ⟨gap, text, gap', e, ending, hspells, hm.blank, hleaves.blank, ?_, rfl⟩
      rw [hm.takes.rest, hleaves.takes.eq_of_end hrest, List.append_assoc]
  · rintro (⟨gap, m, hm, hb, he⟩ | ⟨gap, text, gap', e, ending, hspells, hb, hb', hrest, rfl⟩)
    · have hlen := hm.length
      exact ⟨gap, m, ⟨hm, hb, (he.mayStart (by simp) (by simp)).nextNot_isBlank⟩,
        .inl ((hx.runsOut n m h (by omega)).mpr he)⟩
    · rw [List.append_assoc] at hrest
      have hm := Input.takes_after hrest
      have hlen := hm.length
      exact ⟨gap, _, ⟨hm, hb, (hspells.starts.append _).nextNot_isBlank⟩,
        .inr ((exists_leaves_iff hx.exact (by omega)).mpr ⟨e, text, gap', ending, _, hspells,
          leaves_atEnd (Input.takes_all rfl) hb' rfl, rfl, rfl⟩)⟩

/-- By induction on the rounds. -/
theorem runsOut_argumentRounds (hx : ExactAtEnd bound inner) {rounds : Nat} :
    ∀ {args : Array Expr} {i : Input}, i.rest.length < bound → i.rest.length < rounds →
      (RunsOut (repeatUpTo rounds args (argumentRound inner n)) i h ↔ i.EndsIn .arguments n h) := by
  induction rounds with
  | zero =>
    intro args i _ hr
    omega
  | succ rounds ih =>
    intro args i hi hr
    rw [repeatUpTo_argumentRound, Input.endsIn_arguments_iff]
    simp only [runsOut_bind (x := inner n), hx.runsOut n i h hi, runsOut_blanks_bind,
      exists_leaves_iff hx.exact hi, runsOut_eat_bind, if_true, not_runsOut_pure, and_false,
      exists_false, false_or, Bool.false_eq_true, if_false,
      runsOut_expect_bind .malformedExpression (by decide)]
    refine or_congr_right ⟨?_, ?_⟩
    · rintro ⟨e, text, gap, ending, k, hspells, hleaves, -, ⟨hrest, rfl⟩ | ⟨k', hk', gap', l, hl, hr⟩⟩
      · exact .inl ⟨text, gap, e, ending, hspells, hleaves.blank, hleaves.takes.eq_of_end hrest, rfl⟩
      · have ht := (hleaves.takes.trans hk').trans hl.takes
        have hlt := ht.length_lt (by simp)
        exact .inr ⟨text, gap, gap', e, ending, l, hspells, ht, hleaves.blank, hl.blank,
          (ih (by omega) (by omega)).mp hr⟩
    · rintro (⟨text, gap, e, ending, hspells, hb, hrest, rfl⟩ |
        ⟨text, gap, gap', e, ending, l, hspells, ht, hb, hb', he⟩)
      · exact ⟨e, text, gap, ending, _, hspells, leaves_atEnd (Input.takes_all hrest) hb rfl,
          by simp [Input.after], .inl ⟨rfl, rfl⟩⟩
      · have hlt := ht.length_lt (by simp)
        obtain ⟨k', hk', hl⟩ := Input.takes_append.mp ht
        obtain ⟨k, hk, hcomma⟩ := Input.takes_append.mp hk'
        refine ⟨e, text, gap, ending, k, hspells,
          .of_delimiter hk hb hcomma.head (by decide) (by decide), ?_, .inr ⟨k', hcomma, gap', l,
            ⟨hl, hb', (he.mayStart (by simp) (by simp)).nextNot_isBlank⟩,
            (ih (by omega) (by omega)).mpr he⟩⟩
        rw [hcomma.head]
        decide

/-- The end comes within an argument, or where a comma or the closer is missed. -/
theorem runsOut_arguments (hx : ExactAtEnd bound inner) (hi : i.rest.length < bound + 1)
    (hb : i.rest.head? = some '(') :
    RunsOut (arguments inner (bound + 1) n) i h ↔ ∃ gap l, i.Takes (['('] ++ gap) l ∧ Blanks gap ∧
      l.EndsIn .arguments n h := by
  rw [arguments, runsOut_skip_blanks_bind hb]
  simp only [runsOut_eat_bind, if_true, not_runsOut_pure, and_false, exists_false, false_or,
    Bool.false_eq_true, if_false]
  constructor
  · rintro ⟨gap, l, ht, hblank, -, -, hr⟩
    have hlt := ht.length_lt (by simp)
    exact ⟨gap, l, ht, hblank, (runsOut_argumentRounds hx (by omega) (by omega)).mp hr⟩
  · rintro ⟨gap, l, ht, hblank, he⟩
    have hlt := ht.length_lt (by simp)
    have hstart := he.mayStart (by simp) (by simp)
    exact ⟨gap, l, ht, hblank, hstart.nextNot_isBlank, hstart.head?_ne (by decide),
      (runsOut_argumentRounds hx (by omega) (by omega)).mpr he⟩

/-! ### Operands -/

theorem runsOut_reference {scope : Scope} (hc : i.rest.head? = some scope.sigil) :
    RunsOut (reference scope) i h ↔
      ∃ l, i.Takes [scope.sigil] l ∧ UnfinishedName l.rest ∧ h = none := by
  rw [reference, runsOut_offset_bind, runsOut_skip_bind hc]
  simp only [runsOut_bind (x := ident), runsOut_ident, runsOut_spanFrom_bind, not_runsOut_pure,
    and_false, exists_false, or_false]

/-- A name that begins with a word character is read. -/
theorem not_runsOut_ident {c : Char} (hc : i.rest.head? = some c) (hw : isWordChar c = true) :
    ¬ RunsOut ident i h := by
  rw [runsOut_ident]
  rintro ⟨hname, -⟩
  generalize i.rest = text at hname hc
  cases hname with
  | nil => exact absurd hc (by simp)
  | quote hq =>
    obtain rfl := Option.some.inj hc
    exact absurd hq (by simp [isQuote_of_isWordChar hw])

/-- Names are told from the other operands by their first character. -/
theorem runsOut_named (hx : ExactAtEnd bound inner) (hi : i.rest.length < bound + 1) {c : Char}
    (hc : i.rest.head? = some c) (hw : isWordChar c = true) (hd : c.isDigit = false) :
    RunsOut (named inner (bound + 1) n) i h ↔
      (∃ name gap l, IsName name ∧ NextNot Char.isDigit name ∧ i.Takes (name ++ ['('] ++ gap) l ∧
        Blanks gap ∧ l.EndsIn .arguments n h) ∨
      ∃ name selection l, IsName name ∧ NextNot Char.isDigit name ∧
        i.Takes (name ++ Selection.opener selection) l ∧ l.EndsIn .enclosed n h := by
  constructor
  · intro hr
    obtain ⟨id, m, hid⟩ : ∃ id m, ident i = .ok id m := by
      rw [named, runsOut_offset_bind, runsOut_bind] at hr
      obtain hr | ⟨id, m, hid, -⟩ := hr
      · exact absurd hr (not_runsOut_ident hc hw)
      · exact ⟨id, m, hid⟩
    obtain ⟨name, hname, hnd, hm, hn, rfl⟩ := name_of_ident hc hw hd hid
    have hlt := hm.length_lt hname.1
    rcases behind_name_cases m with ⟨selection, k, hk, hdot⟩ | hp | ⟨hb, hp⟩
    · rw [runsOut_of_eq (named_of_opener hid hk hdot), runsOut_spanned] at hr
      have hlen := hk.length
      exact .inr ⟨name, selection, k, hname, hnd, hm.trans hk, (runsOut_enclosed hx (by omega)).mp hr⟩
    · rw [runsOut_of_eq (named_of_parenthesis hid hp), runsOut_spanned] at hr
      obtain ⟨gap, l, ht, hb, he⟩ := (runsOut_arguments hx (by omega) hp).mp hr
      refine .inl ⟨name, gap, l, hname, hnd, ?_, hb, he⟩
      rw [List.append_assoc]
      exact hm.trans ht
    · exact absurd hr (not_runsOut_of_ok (named_of_nothing hid hb hp))
  · rintro (⟨name, gap, l, hname, hnd, ht, hb, he⟩ | ⟨name, selection, k, hname, hnd, ht, he⟩)
    · rw [List.append_assoc] at ht
      obtain ⟨m, hm, hl⟩ := Input.takes_append.mp ht
      have hlt := hm.length_lt hname.1
      have hp : m.rest.head? = some '(' := hl.head
      have hid := ident_of_name hname hm (nextNot_of_head? hp (by decide))
      rw [runsOut_of_eq (named_of_parenthesis hid hp), runsOut_spanned]
      exact (runsOut_arguments hx (by omega) hp).mpr ⟨gap, l, hl, hb, he⟩
    · obtain ⟨m, hm, hk⟩ := Input.takes_append.mp ht
      have hlt := hm.length_lt hname.1
      have hlen := hk.length
      have hb : m.rest.head? = some '[' := by
        rw [hk.rest]
        cases selection <;> rfl
      have hid := ident_of_name hname hm (nextNot_of_head? hb (by decide))
      have hdot : k.rest.head? ≠ some '.' := he.head?_ne_of_enclosed (by decide) (by decide)
      rw [runsOut_of_eq (named_of_opener hid hk fun _ => hdot), runsOut_spanned]
      exact (runsOut_enclosed hx (by omega)).mpr he

/-- An operand that the source ends within is told by its first character, if there is one. -/
theorem runsOut_primary (hx : ExactAtEnd bound inner) (hi : i.rest.length < bound + 1) :
    RunsOut (primary inner (bound + 1) n) i h ↔ i.EndsIn .operand n h := by
  have hunexpected : RunsOut (unexpected .malformedExpression : Reader Expr) i h ↔
      i.rest = [] ∧ h = none := runsOut_unexpected .malformedExpression (by decide)
  have hvalue : RunsOut (value inner (bound + 1) n >>= fun v => pure (Expr.value v)) i h ↔
      i.EndsIn .value n h := by
    simp only [runsOut_bind (x := value _ _ _), runsOut_value hx hi, not_runsOut_pure, and_false,
      exists_false, or_false]
  rw [Input.endsIn_operand_iff]
  constructor
  · intro hr
    rcases head?_cases OperandStart i.rest with hother | ⟨c, hc, hstart⟩
    · rw [runsOut_of_eq (primary_of_other hother)] at hr
      exact .inl (hunexpected.mp hr)
    obtain ⟨m, hm⟩ := Input.exists_takes_head hc
    have hlt := hm.length_lt (by simp)
    cases hstart with
    | round =>
      rw [runsOut_of_eq (primary_of_round hm), runsOut_spanned] at hr
      exact .inr (.inr (.inr (.inl ⟨m, hm, (runsOut_enclosed hx (by omega)).mp hr⟩)))
    | digit hd =>
      rw [runsOut_of_eq (primary_of_isDigit hc hd)] at hr
      exact absurd hr not_runsOut_integer
    | value hv =>
      rw [runsOut_of_eq (primary_of_valueStart hc hv)] at hr
      exact .inr (.inr (.inl ⟨fun hnil => absurd hc (by simp [hnil]), hvalue.mp hr⟩))
    | word hw hd =>
      rw [runsOut_of_eq (primary_of_word hc hw hd)] at hr
      exact .inr (.inr (.inr (.inr ((runsOut_named hx hi hc hw hd).mp hr))))
    | sigil scope =>
      rw [runsOut_of_eq (primary_of_sigil hc)] at hr
      obtain ⟨l, hl, hname, rfl⟩ := (runsOut_reference hc).mp hr
      exact .inr (.inl ⟨scope, l, hl, hname, rfl⟩)
    | this => exact absurd hr (not_runsOut_of_ok (primary_of_tilde hm))
  · have hnamed : ∀ {name rest : List Char}, IsName name → NextNot Char.isDigit name →
        i.rest = name ++ rest → ∃ c, i.rest.head? = some c ∧ isWordChar c = true ∧ c.isDigit = false := by
      intro name rest hname hnd hrest
      obtain ⟨c, cs, rfl, hw⟩ := hname.exists_cons
      exact ⟨c, by rw [hrest]; rfl, hw, nextNot_cons.mp hnd⟩
    rintro (hnil | ⟨scope, l, hl, hname, rfl⟩ | ⟨hne, he⟩ | ⟨l, hl, he⟩ | hr)
    · rw [runsOut_of_eq (primary_of_other (by simp [hnil.1]))]
      exact hunexpected.mpr hnil
    · rw [runsOut_of_eq (primary_of_sigil hl.head)]
      exact (runsOut_reference hl.head).mpr ⟨l, hl, hname, rfl⟩
    · obtain ⟨c, hc, hv⟩ := he.head_of_value hne
      rw [runsOut_of_eq (primary_of_valueStart hc (.inr hv))]
      exact hvalue.mpr he
    · have hlt := hl.length_lt (by simp)
      rw [runsOut_of_eq (primary_of_round hl), runsOut_spanned]
      exact (runsOut_enclosed hx (by omega)).mpr he
    · obtain ⟨c, hc, hw, hd⟩ : ∃ c, i.rest.head? = some c ∧ isWordChar c = true ∧ c.isDigit = false := by
        rcases hr with ⟨name, gap, l, hname, hnd, ht, -⟩ | ⟨name, selection, l, hname, hnd, ht, -⟩
        · exact hnamed hname hnd (by rw [ht.rest, List.append_assoc, List.append_assoc])
        · exact hnamed hname hnd (by rw [ht.rest, List.append_assoc])
      rw [runsOut_of_eq (primary_of_word hc hw hd)]
      exact (runsOut_named hx hi hc hw hd).mpr hr

/-- By induction on the signs, each of which is a level of its own. -/
theorem runsOut_unary (hx : ExactAtEnd bound inner) {signs : Nat} (hs : i.rest.length < signs)
    (hi : i.rest.length < bound + 1) :
    RunsOut (unary inner (bound + 1) signs n) i h ↔ i.EndsIn (.operation 7) n h := by
  induction signs generalizing n i with
  | zero => omega
  | succ signs ih =>
    rw [unary, runsOut_offset_bind, runsOut_peek?_bind, Input.endsIn_unary_iff]
    cases hop : i.rest.head?.bind UnaryOp.ofChar? with
    | none =>
      refine (runsOut_primary hx hi).trans ⟨.inl, ?_⟩
      rintro (he | ⟨op, gap, l, -, ht, -⟩)
      · exact he
      · rw [ht.head, Option.bind_some, UnaryOp.ofChar?_token] at hop
        exact absurd hop (by simp)
    | some op =>
      obtain ⟨c, hc, hop⟩ := Option.bind_eq_some_iff.mp hop
      obtain rfl := UnaryOp.eq_token_of_ofChar? hop
      simp only [runsOut_skip_blanks_bind hc, runsOut_bind (x := nested _ _), runsOut_nested,
        not_runsOut_pure, and_false, exists_false, or_false]
      constructor
      · rintro ⟨gap, l, ht, hb, -, hroom, hr⟩
        have hlt := ht.length_lt (by simp)
        exact .inr ⟨op, gap, l, hroom, ht, hb, (ih (by omega) (by omega)).mp hr⟩
      · rintro (he | ⟨op', gap, l, hroom, ht, hb, he⟩)
        · exact absurd (he.ofChar?_eq_none _ hc) (by simp [hop])
        · have hlt := ht.length_lt (by simp)
          have hfresh := (he.mayStart (by simp) (by simp)).nextNot_isBlank
          obtain rfl : op' = op := by
            have hs := congrArg UnaryOp.ofChar? (Option.some.inj (ht.head.symm.trans hc))
            simpa [UnaryOp.ofChar?_token] using hs
          exact ⟨gap, l, ht, hb, hfresh, hroom, (ih (by omega) (by omega)).mpr he⟩

end Reader

end LocaleText
