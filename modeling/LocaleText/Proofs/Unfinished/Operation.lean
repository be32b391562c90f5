import LocaleText.Proofs.Unfinished.Expr

/-!
# Operations that the source ends within

The readers of operations, choices and whole expressions run out of input exactly on unfinished
texts. An operation that has an operand in front of each operator can break off in the last operand
alone.

* `Input.endsIn_operation_iff` and `Input.endsIn_choice_iff` take an unfinished operation apart
* `Reader.runsOut_operationRounds` is the induction over the operators of one level
* `Reader.runsOut_operations` is the equivalence for the operators of some levels, by induction on
  them
* `Reader.runsOut_branches` is about the two branches of a choice
* `Reader.exactAtEnd_expression` ties the knot: it holds of the readers of expressions for every
  bound
-/

namespace LocaleText

namespace Input

variable {i : Input} {n : Nesting} {h : Option Opening}

/-- The source ends within the first operand of a level, or behind an operator of the level. -/
theorem endsIn_operation_iff {rank : Nat} (hpos : 1 ≤ rank) (hle : rank ≤ 6) :
    i.EndsIn (.operation rank) n h ↔ i.EndsIn (.operation (rank + 1)) n h ∨
    ∃ op left gap gap' e ending l, BinaryOp.rank op = rank ∧
      SpellsOperation (rank + 1) n i.offset left e ending ∧ Blanks gap ∧ Blanks gap' ∧
      i.Takes (left ++ gap ++ op.token ++ gap') l ∧ l.EndsIn (.operation rank) n h := by
  constructor
  · rintro ⟨openings, hu, rfl⟩
    generalize htext : i.rest = text at hu
    cases hu with
    | looser _ hu => exact .inl ⟨openings, by rw [htext]; exact hu, rfl⟩
    | binary hop hspells hb hb' hu ht =>
      exact .inr ⟨_, _, _, _, _, _, _, hop, hspells, hb, hb', takes_after (htext.trans ht),
        openings, hu, rfl⟩
    | ofOperand | unary => exact absurd hle (by decide)
    | consequent | noAlternate | alternate => exact absurd hpos (by decide)
  · rintro (⟨openings, hu, rfl⟩ | ⟨_, _, _, _, _, _, l, hop, hspells, hb, hb', ht, openings, hu, rfl⟩)
    · exact ⟨openings, .looser (by omega) hu, rfl⟩
    · rw [ht.offset] at hu
      exact ⟨openings, .binary hop hspells hb hb' hu ht.rest, rfl⟩

/-- The source ends within an operation, or within one of the two branches behind a test. -/
theorem endsIn_choice_iff : i.EndsIn (.operation 0) n h ↔ i.EndsIn (.operation 1) n h ∨
    ∃ test gap₁ gap₂ t ending l, SpellsOperation 1 n i.offset test t ending ∧ Blanks gap₁ ∧
      Blanks gap₂ ∧ i.Takes (test ++ gap₁ ++ ['?'] ++ gap₂) l ∧
      (l.EndsIn .expr n h ∨ ∃ consequent gap₃ c ending', SpellsExpr n l.offset consequent c ending' ∧
        Blanks gap₃ ∧ ((l.rest = consequent ++ gap₃ ∧ h = none) ∨
          ∃ gap₄ l', Blanks gap₄ ∧ l.Takes (consequent ++ gap₃ ++ [':'] ++ gap₄) l' ∧
            l'.EndsIn .expr n h)) := by
  constructor
  · rintro ⟨openings, hu, rfl⟩
    generalize htext : i.rest = text at hu
    cases hu with
    | looser _ hu => exact .inl ⟨openings, by rw [htext]; exact hu, rfl⟩
    | consequent ht hb₁ hb₂ hu hrest =>
      exact .inr ⟨_, _, _, _, _, _, ht, hb₁, hb₂, takes_after (htext.trans hrest),
        .inl ⟨openings, hu, rfl⟩⟩
    | noAlternate ht hb₁ hb₂ hc hb₃ hrest =>
      rw [List.append_assoc _ _ (_ : List Char)] at hrest
      exact .inr ⟨_, _, _, _, _, _, ht, hb₁, hb₂, takes_after (htext.trans hrest),
        .inr ⟨_, _, _, _, hc, hb₃, .inl ⟨rfl, rfl⟩⟩⟩
    | @alternate _ _ test gap₁ gap₂ consequent gap₃ gap₄ rest _ _ _ _ _ _ ht hb₁ hb₂ hc hb₃ hb₄ hu
        hrest =>
      have hall : i.rest = test ++ gap₁ ++ ['?'] ++ gap₂ ++
          (consequent ++ gap₃ ++ [':'] ++ gap₄ ++ rest) := by
        rw [htext, hrest]
        simp
      refine .inr ⟨test, gap₁, gap₂, _, _, _, ht, hb₁, hb₂, takes_after hall,
        .inr ⟨consequent, gap₃, _, _, hc, hb₃, .inr ⟨gap₄, _, hb₄, takes_after rfl, openings, ?_, rfl⟩⟩⟩
      simpa [after, Nat.add_assoc] using hu
    | @binary _ _ _ op _ _ _ _ _ _ _ _ hop =>
      have := op.rank_pos
      omega
  · rintro (⟨openings, hu, rfl⟩ | ⟨test, gap₁, gap₂, t, ending, l, ht, hb₁, hb₂, hl,
      ⟨openings, hu, rfl⟩ | ⟨consequent, gap₃, c, ending', hc, hb₃, ⟨hrest, rfl⟩ |
        ⟨gap₄, l', hb₄, hl', openings, hu, rfl⟩⟩⟩)
    · exact ⟨openings, .looser (by decide) hu, rfl⟩
    · rw [hl.offset] at hu
      exact ⟨openings, .consequent ht hb₁ hb₂ hu hl.rest, rfl⟩
    · rw [hl.offset] at hc
      refine ⟨[], .noAlternate ht hb₁ hb₂ hc hb₃ ?_, rfl⟩
      rw [hl.rest, hrest, List.append_assoc _ consequent]
    · have hall := hl.trans hl'
      simp only [← List.append_assoc] at hall
      rw [hl.offset] at hc
      rw [hall.offset] at hu
      exact ⟨openings, .alternate ht hb₁ hb₂ hc hb₃ hb₄ hu hall.rest, rfl⟩

/-- An expression is one level further in, where there is room. -/
theorem endsIn_expr_iff : i.EndsIn .expr n h ↔ n.HasRoom ∧ i.EndsIn (.operation 0) n.deeper h := by
  constructor
  · rintro ⟨openings, hu, rfl⟩
    cases hu with
    | expr hroom hu => exact ⟨hroom, openings, hu, rfl⟩
  · rintro ⟨hroom, openings, hu, rfl⟩
    exact ⟨openings, .expr hroom hu, rfl⟩

end Input

namespace Reader

variable {inner : Nesting → Reader Expr} {bound rank : Nat} {n : Nesting} {i l : Input}
  {h : Option Opening}

/-! ### Operations -/

theorem runsOut_operator?_bind {α : Type} {level : List BinaryOp} {k : Option BinaryOp → Reader α} :
    RunsOut (operator? level >>= k) i h ↔
      RunsOut (k (level.find? fun op => op.token.isPrefixOf i.rest)) i h := by
  have hread : operator? level i =
      .ok (level.find? fun op => op.token.isPrefixOf i.rest) i := operator?_eq_ok.mpr ⟨rfl, rfl⟩
  rw [runsOut_bind]
  constructor
  · rintro (hr | ⟨op?, m, hop, hr⟩)
    · exact absurd hr (not_runsOut_of_ok hread)
    · obtain ⟨rfl, rfl⟩ := operator?_eq_ok.mp hop
      exact hr
  · intro hr
    exact .inr ⟨_, i, hread, hr⟩

/-- By induction on the rounds. An operand that the source ends within is the first one of the rest of
the level, whatever has been read before. -/
theorem runsOut_operationRounds {operand : Reader Expr} {level : List BinaryOp}
    (hx : ExactOperation bound (rank + 1) n operand)
    (hends : ∀ i h, i.rest.length < bound → (RunsOut operand i h ↔ i.EndsIn (.operation (rank + 1)) n h))
    (hlevels : level ∈ BinaryOp.levels) (hlevel : ∀ op, op ∈ level ↔ op.rank = rank)
    (hpos : 1 ≤ rank) (hle : rank ≤ 6) {rounds : Nat} :
    ∀ {f : Expr → Expr} {i : Input}, i.rest.length < bound → i.rest.length < rounds →
      (RunsOut (operand >>= fun first => repeatUpTo rounds (f first) (operationRound level operand)) i h ↔
        i.EndsIn (.operation rank) n h) := by
  induction rounds with
  | zero =>
    intro f i _ hr
    omega
  | succ rounds ih =>
    intro f i hi hr
    rw [runsOut_bind, hends i h hi, Input.endsIn_operation_iff hpos hle]
    refine or_congr_right ?_
    simp only [repeatUpTo_operationRound, runsOut_blanks_bind, runsOut_operator?_bind]
    constructor
    · rintro ⟨first, m, hfirst, gap, k, hk, hr⟩
      cases hfind : level.find? (fun op => op.token.isPrefixOf k.rest) with
      | none =>
        rw [hfind] at hr
        exact absurd hr not_runsOut_pure
      | some op =>
        rw [hfind] at hr
        have hprefix : op.token.isPrefixOf k.rest = true := by simpa using List.find?_some hfind
        obtain ⟨k', hk'⟩ := isPrefixOf_eq_true_iff.mp hprefix
        obtain ⟨gap', l, hl, hr⟩ := runsOut_blanks_bind.mp ((runsOut_take_bind hk').mp hr)
        obtain ⟨left, gap, ending, hspells, hleaves⟩ := (hx.iff i first k hi).mp ⟨m, gap, hfirst, hk⟩
        have ht := (hleaves.takes.trans hk').trans hl.takes
        have hlt := ht.length_lt (by simp [hspells.starts.ne_nil])
        exact ⟨op, left, gap, gap', first, ending, l, (hlevel op).mp (List.mem_of_find?_eq_some hfind),
          hspells, hleaves.blank, hl.blank, ht,
          (ih (f := fun right => .join op (f first) right) (by omega) (by omega)).mp hr⟩
    · rintro ⟨op, left, gap, gap', first, ending, l, hop, hspells, hb, hb', ht, he⟩
      have hlt := ht.length_lt (by simp [hspells.starts.ne_nil])
      have hstart := he.mayStart (by simp) (by simp)
      obtain ⟨k', ht', hl⟩ := Input.takes_append.mp ht
      obtain ⟨k, hk, hk'⟩ := Input.takes_append.mp ht'
      obtain ⟨m, gap₁, hfirst, hm⟩ := (hx.iff i first k hi).mpr ⟨left, gap, ending, hspells,
        .of_operator hk hb hk' (by omega)⟩
      have hfind : level.find? (fun o => o.token.isPrefixOf k.rest) = some op := by
        rw [hk'.rest]
        refine find?_level hlevels ((hlevel op).mpr hop) ?_
        rw [hl.rest]
        exact hstart.head?_gap_ne hb' (by decide) (by decide)
      refine ⟨first, m, hfirst, gap₁, k, hm, ?_⟩
      rw [hfind]
      exact (runsOut_take_bind hk').mpr (runsOut_blanks_bind.mpr ⟨gap', l,
        ⟨hl, hb', hstart.nextNot_isBlank⟩,
        (ih (f := fun right => .join op (f first) right) (by omega) (by omega)).mpr he⟩)

/-- By induction on the levels. -/
theorem runsOut_operations (hx : ExactAtEnd bound inner) {levels : List (List BinaryOp)}
    (hr : Ranked rank levels) (hpos : 1 ≤ rank) (hi : i.rest.length < bound + 1) :
    RunsOut (operations inner (bound + 1) n levels) i h ↔ i.EndsIn (.operation rank) n h := by
  induction levels generalizing rank i h with
  | nil =>
    rw [Ranked] at hr
    rw [hr]
    exact runsOut_unary hx hi hi
  | cons level tighter ih =>
    obtain ⟨hlevels, hlevel, hr⟩ := hr
    have hle := hr.le
    exact runsOut_operationRounds (exactOperation_operations hx.exact hr (by omega))
      (fun i h hi => ih hr (by omega) hi) hlevels hlevel hpos (by omega) hi hi

/-! ### Expressions -/

/-- The two branches behind a test and a question mark. -/
theorem runsOut_branches (hx : ExactAtEnd bound inner) (hi : i.rest.length < bound) {test : Expr} :
    RunsOut (branches inner n test) i h ↔
      i.EndsIn .expr n h ∨ ∃ consequent gap₃ c ending', SpellsExpr n i.offset consequent c ending' ∧
        Blanks gap₃ ∧ ((i.rest = consequent ++ gap₃ ∧ h = none) ∨
          ∃ gap₄ l, Blanks gap₄ ∧ i.Takes (consequent ++ gap₃ ++ [':'] ++ gap₄) l ∧
            l.EndsIn .expr n h) := by
  simp only [branches, runsOut_bind (x := inner n), hx.runsOut n i h hi, runsOut_blanks_bind,
    exists_leaves_iff hx.exact hi, runsOut_expect_bind .malformedExpression (by decide),
    not_runsOut_pure, and_false, exists_false, or_false]
  refine or_congr_right ⟨?_, ?_⟩
  · rintro ⟨c, consequent, gap, ending, k, hspells, hleaves, hr⟩
    refine ⟨consequent, gap, c, ending, hspells, hleaves.blank, ?_⟩
    rcases hr with ⟨hrest, rfl⟩ | ⟨k', hk', gap', l, hl, hr⟩
    · exact .inl ⟨hleaves.takes.eq_of_end hrest, rfl⟩
    · have ht := (hleaves.takes.trans hk').trans hl.takes
      have hlt := ht.length_lt (by simp)
      exact .inr ⟨gap', l, hl.blank, ht, (hx.runsOut n l h (by omega)).mp hr⟩
  · rintro ⟨consequent, gap, c, ending, hspells, hb, ⟨hrest, rfl⟩ | ⟨gap', l, hb', ht, he⟩⟩
    · exact ⟨c, consequent, gap, ending, _, hspells, leaves_atEnd (Input.takes_all hrest) hb rfl,
        .inl ⟨rfl, rfl⟩⟩
    · have hlt := ht.length_lt (by simp)
      obtain ⟨k', ht', hl⟩ := Input.takes_append.mp ht
      obtain ⟨k, hk, hcolon⟩ := Input.takes_append.mp ht'
      exact ⟨c, consequent, gap, ending, k, hspells,
        .of_delimiter hk hb hcolon.head (by decide) (by decide), .inr ⟨k', hcolon, gap', l,
          ⟨hl, hb', (he.mayStart (by simp) (by simp)).nextNot_isBlank⟩,
          (hx.runsOut n l h (by omega)).mpr he⟩⟩

/-- The end comes within the test, a branch, or where the colon is missed. -/
theorem runsOut_conditional (hx : ExactAtEnd bound inner) (hi : i.rest.length < bound + 1) :
    RunsOut (conditional inner (bound + 1) n) i h ↔ i.EndsIn (.operation 0) n h := by
  have htest := exactOperation_operations (n := n) hx.exact ranked_levels (Nat.le_refl 1)
  rw [conditional, runsOut_bind, runsOut_operations hx ranked_levels (Nat.le_refl 1) hi,
    Input.endsIn_choice_iff]
  refine or_congr_right ?_
  simp only [runsOut_blanks_bind, runsOut_eat_bind, if_true, Bool.false_eq_true, if_false,
    not_runsOut_pure, and_false, or_false]
  constructor
  · rintro ⟨t, m, ht, gap, k, hk, k', hk', gap', l, hl, hr⟩
    obtain ⟨test, gap, ending, hspells, hleaves⟩ := (htest.iff i t k hi).mp ⟨m, gap, ht, hk⟩
    have htakes := (hleaves.takes.trans hk').trans hl.takes
    have hlt := htakes.length_lt (by simp)
    exact ⟨test, gap, gap', t, ending, l, hspells, hleaves.blank, hl.blank, htakes,
      (runsOut_branches hx (by omega)).mp hr⟩
  · rintro ⟨test, gap, gap', t, ending, l, hspells, hb, hb', htakes, hr⟩
    have hlt := htakes.length_lt (by simp)
    have hfresh : NextNot isBlank l.rest := by
      rcases hr with he | ⟨consequent, gap₃, c, ending', hc, -, ⟨hrest, -⟩ | ⟨gap₄, l', -, ht, -⟩⟩
      · exact (he.mayStart (by simp) (by simp)).nextNot_isBlank
      · rw [hrest]
        exact (hc.starts.append _).nextNot_isBlank
      · rw [ht.rest]
        simp only [List.append_assoc]
        exact (hc.starts.append _).nextNot_isBlank
    obtain ⟨k', ht', hl⟩ := Input.takes_append.mp htakes
    obtain ⟨k, hk, hquestion⟩ := Input.takes_append.mp ht'
    obtain ⟨m, gap₁, ht, hm⟩ := (htest.iff i t k hi).mpr ⟨test, gap, ending, hspells,
      .of_delimiter hk hb hquestion.head (by decide) (fun _ => Nat.zero_lt_one)⟩
    exact ⟨t, m, ht, gap₁, k, hm, k', hquestion, gap', l, ⟨hl, hb', hfresh⟩,
      (runsOut_branches hx (by omega)).mpr hr⟩

/-- The readers of expressions are exact at the end of the source as well, whatever the bound is. -/
theorem exactAtEnd_expression (bound : Nat) : ExactAtEnd bound (expression bound) := by
  refine ⟨exact_expression bound, ?_⟩
  induction bound with
  | zero =>
    intro n i h hi
    omega
  | succ bound ih =>
    intro n i h hi
    rw [expression, runsOut_nested, runsOut_conditional ⟨exact_expression bound, ih⟩ hi,
      Input.endsIn_expr_iff]

end Reader

end LocaleText
