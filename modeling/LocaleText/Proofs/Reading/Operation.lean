import LocaleText.Proofs.Reading.Exact

/-!
# Exact readers of expressions

The readers of operands, operations and choices read exactly what the grammar spells. Operators of a
level are read in rounds, from left to right, and a round that finds no operator of the level is the
last.

* `Reader.primary_iff` is the equivalence for operands, `Reader.unary_iff` with signs before them
* `Reader.find?_level` and `Reader.find?_of_starts` tell which operator of a level comes next
* `operation_of_rounds` and `passes_of_operation` are the two directions for the operators of one
  level
* `Reader.exactOperation_operations` is the equivalence for the operators of some levels, by
  induction on them
* `Reader.conditional_of_test` and `Reader.conditional_of_branches` say how a choice goes on behind its
  question mark and behind its colon, and `Reader.conditional_iff` is the equivalence for choices
* `exact_expression` ties the knot: the readers of expressions are exact for every bound
-/

namespace LocaleText

namespace Reader

variable {inner : Nesting → Reader Expr} {bound : Nat} {n : Nesting} {i l : Input} {e : Expr}

/-! ### Operands -/

/-- A name that stands alone, without a quote and without a digit at its front. -/
theorem name_of_ident {c : Char} {id : Ident} (hc : i.rest.head? = some c)
    (hw : isWordChar c = true) (hd : c.isDigit = false) (hr : ident i = .ok id l) :
    ∃ name, IsName name ∧ NextNot Char.isDigit name ∧ i.Takes name l ∧
      NextNot isWordChar l.rest ∧ id = ⟨String.ofList name, extent i.offset name⟩ := by
  have hf : i.rest.head?.filter isQuote = none := by
    rw [hc]
    simp [isQuote_of_isWordChar hw]
  obtain ⟨name, hname, ht, hn, rfl⟩ := (ident_bare_eq_ok hf).mp hr
  refine ⟨name, hname, ?_, ht, hn, rfl⟩
  obtain ⟨d, ds, rfl, _⟩ := hname.exists_cons
  obtain rfl := Option.some.inj (hc.symm.trans ht.head)
  exact nextNot_cons.mpr hd

theorem ident_of_name {name : List Char} (hname : IsName name) (ht : i.Takes name l)
    (hn : NextNot isWordChar l.rest) :
    ident i = .ok ⟨String.ofList name, extent i.offset name⟩ l :=
  ident_eq_ok.mpr ⟨name, .word, ht, .bare hname, rfl, hn⟩

/-- A name that has been read with what is attached to it is an operand. -/
theorem operand_of_named (h : Exact bound inner) (hi : i.rest.length < bound + 1) {c : Char}
    (hc : i.rest.head? = some c) (hw : isWordChar c = true) (hd : c.isDigit = false)
    (hr : named inner (bound + 1) n i = .ok e l) :
    ∃ text ending, i.Takes text l ∧ SpellsOperand n i.offset text e ending ∧
      NextNot ending.continues l.rest := by
  have hclosed : NextNot (Ending.continues .closed) l.rest := fun _ _ => rfl
  obtain ⟨id, m, hid⟩ := ident_of_named hr
  obtain ⟨name, hname, hnd, hm, hn, rfl⟩ := name_of_ident hc hw hd hid
  have hlen := hm.length_lt hname.1
  rcases behind_name_cases m with ⟨selection, k, hk, hdot⟩ | hp | ⟨hb, hp⟩
  · rw [named_of_opener hid hk hdot] at hr
    obtain ⟨key, hkey, rfl⟩ := spanned_eq_ok.mp hr
    have hklen := hk.length
    obtain ⟨gap, text, gap', ending, ht, hg, hg', hspells⟩ :=
      (enclosed_iff h (by omega) (by decide) (by decide)).mp hkey
    have hall := (hm.trans hk).trans ht
    rw [(hm.trans hk).offset, Nat.add_assoc, ← byteLength_append] at hspells
    refine ⟨_, .closed, hall, ?_, hclosed⟩
    rw [hall.span]
    exact .select hname hnd hg hspells hg' (by simp)
  · rw [named_of_parenthesis hid hp] at hr
    obtain ⟨es, hes, rfl⟩ := spanned_eq_ok.mp hr
    obtain ⟨gap, text, ht, hg, hargs⟩ := (arguments_iff h (by omega) hp).mp hes
    have hall := hm.trans ht
    rw [hm.offset, Nat.add_assoc, ← byteLength_append, ← List.append_assoc] at hargs
    refine ⟨_, .closed, hall, ?_, hclosed⟩
    rw [hall.span]
    exact .call hname hnd hg hargs (by simp)
  · rw [named_of_nothing hid hb hp, ok_inj] at hr
    obtain ⟨rfl, rfl⟩ := hr
    refine ⟨name, .operand, hm, .ident hname hnd, ?_⟩
    intro d hdr
    have hdb : d ≠ '[' := fun hd => hb (by rw [← hd]; exact hdr)
    have hdp : d ≠ '(' := fun hd => hp (by rw [← hd]; exact hdr)
    simp [Ending.continues, hn d hdr, hdb, hdp]

section Named

variable {name gap : List Char} (hname : IsName name)
include hname

theorem named_of_ident (ht : i.Takes name l) (hn : NextNot (Ending.continues .operand) l.rest) :
    named inner (bound + 1) n i = .ok (.ident ⟨String.ofList name, extent i.offset name⟩) l := by
  have hword : NextNot isWordChar l.rest := by
    intro c hc
    have hcont := hn c hc
    simp only [Ending.continues, Bool.or_eq_false_iff] at hcont
    exact hcont.1.1
  refine named_of_nothing (ident_of_name hname ht hword) ?_ ?_
  · intro hb
    exact absurd (hn _ hb) (by decide)
  · intro hp
    exact absurd (hn _ hp) (by decide)

/-- A name with arguments behind it. -/
theorem named_of_call {args : List Char} {es : List Expr} (h : Exact bound inner)
    (hi : i.rest.length < bound + 1) (ht : i.Takes (name ++ ['('] ++ gap ++ args ++ [')']) l)
    (hg : Blanks gap) (hargs : SpellsArguments n (i.offset + byteLength (name ++ ['('] ++ gap)) args es) :
    named inner (bound + 1) n i =
      .ok (.call ⟨String.ofList name, extent i.offset name⟩ es ⟨i.offset, l.offset⟩) l := by
  have hassoc : name ++ ['('] ++ gap ++ args ++ [')'] = name ++ (['('] ++ gap ++ args ++ [')']) := by
    simp
  rw [hassoc] at ht
  obtain ⟨m, hm, ht⟩ := Input.takes_append.mp ht
  have hp : m.rest.head? = some '(' := by
    rw [ht.rest]
    rfl
  have hlen := hm.length_lt hname.1
  rw [List.append_assoc, byteLength_append, ← Nat.add_assoc, ← hm.offset] at hargs
  have hread := (arguments_iff h (by omega) hp).mpr ⟨gap, args, ht, hg, hargs⟩
  rw [named_of_parenthesis (ident_of_name hname hm (nextNot_of_head? hp (by decide))) hp]
  exact spanned_eq_ok.mpr ⟨es, hread, rfl⟩

/-- A name with a key in brackets behind it. -/
theorem named_of_select {selection : Selection} {key gap' : List Char} {ending : Ending}
    (h : Exact bound inner) (hi : i.rest.length < bound + 1)
    (ht : i.Takes (name ++ selection.opener ++ gap ++ key ++ gap' ++ [']']) l) (hg : Blanks gap)
    (hg' : Blanks gap')
    (hspells : SpellsExpr n (i.offset + byteLength (name ++ selection.opener ++ gap)) key e ending) :
    named inner (bound + 1) n i =
      .ok (.select selection ⟨String.ofList name, extent i.offset name⟩ e ⟨i.offset, l.offset⟩) l := by
  have hassoc : name ++ selection.opener ++ gap ++ key ++ gap' ++ [']'] =
      name ++ (selection.opener ++ (gap ++ key ++ gap' ++ [']'])) := by simp
  rw [hassoc] at ht
  obtain ⟨m, hm, ht⟩ := Input.takes_append.mp ht
  obtain ⟨k, hk, ht⟩ := Input.takes_append.mp ht
  have hb : m.rest.head? = some '[' := by
    rw [hk.rest]
    cases selection <;> rfl
  have hlen := hm.length_lt hname.1
  have hklen := hk.length
  rw [byteLength_append, ← Nat.add_assoc, ← (hm.trans hk).offset] at hspells
  have hread : enclosed inner n ']' k = .ok e l :=
    (enclosed_iff h (by omega) (by decide) (by decide)).mpr
      ⟨gap, key, gap', ending, ht, hg, hg', hspells⟩
  -- a key does not begin with a dot, so the bracket is not taken for that of an attribute
  have hdot : k.rest.head? ≠ some '.' := by
    rw [ht.rest, List.append_assoc, List.append_assoc, List.append_assoc]
    exact (hspells.starts.append _).head?_gap_ne hg (by decide) (by decide)
  rw [named_of_opener (ident_of_name hname hm (nextNot_of_head? hb (by decide))) hk fun _ => hdot]
  exact spanned_eq_ok.mpr ⟨e, hread, rfl⟩

/-- Where a name that is no integer comes next, the operand is the name with what is attached to it. -/
theorem primary_of_name {rest : List Char} (hnd : NextNot Char.isDigit name)
    (hr : i.rest = name ++ rest) : primary inner bound n i = named inner bound n i := by
  obtain ⟨c, cs, rfl, hw⟩ := hname.exists_cons
  have hc : i.rest.head? = some c := by
    rw [hr]
    rfl
  exact primary_of_word hc hw (nextNot_cons.mp hnd)

end Named

/-- Where a run of digits comes next, the operand is an integer or has a fault, whatever is read around
it. -/
theorem primary_of_digits {digits : List Char} (hne : digits ≠ [])
    (hdigits : ∀ c ∈ digits, c.isDigit = true) (ht : i.Takes digits l)
    (hn : NextNot Char.isDigit l.rest) : primary inner bound n i =
      if decimalValue digits < integerBound then
        .ok (.integer (decimalValue digits) (extent i.offset digits)) l
      else .error ⟨.malformedExpression, extent i.offset digits, some .integerRange, none⟩ l := by
  obtain ⟨c, cs, rfl⟩ := List.exists_cons_of_ne_nil hne
  rw [primary_of_isDigit ht.head (hdigits c (List.mem_cons_self ..))]
  exact integer_of_digits hdigits ht hn

/-- What has been read as an operand is one. -/
theorem operand_of_primary (h : Exact bound inner) (hi : i.rest.length < bound + 1)
    (hr : primary inner (bound + 1) n i = .ok e l) :
    ∃ text ending, i.Takes text l ∧ SpellsOperand n i.offset text e ending ∧
      NextNot ending.continues l.rest := by
  have hclosed : NextNot (Ending.continues .closed) l.rest := fun _ _ => rfl
  obtain ⟨c, hc, hstart⟩ := operandStart_of_primary hr
  cases hstart with
  | round =>
    obtain ⟨m, hm⟩ := Input.exists_takes_head hc
    rw [primary_of_round hm] at hr
    obtain ⟨e, he, rfl⟩ := spanned_eq_ok.mp hr
    have hlen := hm.length_lt (by simp)
    obtain ⟨gap, text, gap', ending, ht, hg, hg', hspells⟩ :=
      (enclosed_iff h (by omega) (by decide) (by decide)).mp he
    have hall := hm.trans ht
    rw [hm.offset, Nat.add_assoc, ← byteLength_append] at hspells
    refine ⟨_, .closed, hall, ?_, hclosed⟩
    rw [hall.span]
    exact .parenthesis hg hspells hg' (by simp)
  | digit hd =>
    rw [primary_of_isDigit hc hd] at hr
    obtain ⟨digits, ht, hdigits, hn, rfl⟩ := (integer_eq_ok hc hd).mp hr
    exact ⟨digits, .digits, ht, .integer hdigits, hn⟩
  | value hv =>
    rw [primary_of_valueStart hc hv, bind_eq_ok] at hr
    obtain ⟨v, m, hv, hr⟩ := hr
    obtain ⟨rfl, rfl⟩ := pure_eq_ok.mp hr
    obtain ⟨text, ht, hspells⟩ := (value_iff h hi).mp hv
    exact ⟨text, .closed, ht, .value hspells, hclosed⟩
  | word hw hd =>
    rw [primary_of_word hc hw hd] at hr
    exact operand_of_named h hi hc hw hd hr
  | sigil scope =>
    rw [primary_of_sigil hc] at hr
    obtain ⟨m, ⟨name, span⟩, hm, hid, rfl⟩ := (reference_eq_ok hc).mp hr
    obtain ⟨text, ending, ht, hname, hspan, hn⟩ := ident_eq_ok.mp hid
    have hall := hm.trans ht
    have hs : span = extent (i.offset + byteLength [scope.sigil]) text := by
      rw [← hm.offset]
      exact hspan
    refine ⟨_, ending, hall, ?_, hn⟩
    rw [hall.span, hs]
    exact .reference hname rfl
  | this =>
    obtain ⟨m, hm⟩ := Input.exists_takes_head hc
    rw [primary_of_tilde hm, ok_inj] at hr
    obtain ⟨rfl, rfl⟩ := hr
    refine ⟨_, .closed, hm, ?_, hclosed⟩
    rw [hm.span]
    exact .this

/-- An operand is read as one, if what is behind it does not go on with it. -/
theorem primary_of_operand (h : Exact bound inner) (hi : i.rest.length < bound + 1)
    {text : List Char} {ending : Ending} (ht : i.Takes text l)
    (hspells : SpellsOperand n i.offset text e ending) (hn : NextNot ending.continues l.rest) :
    primary inner (bound + 1) n i = .ok e l := by
  cases hspells with
  | integer hdigits =>
    obtain ⟨c, cs, rfl, hd⟩ := hdigits.exists_cons
    rw [primary_of_isDigit ht.head hd]
    exact (integer_eq_ok ht.head hd).mpr ⟨_, ht, hdigits, hn, rfl⟩
  | ident hname hnd => exact (primary_of_name hname hnd ht.rest).trans (named_of_ident hname ht hn)
  | @reference _ _ scope id _ name ending hname htext =>
    rw [htext] at ht ⊢
    obtain ⟨m, hm, hid⟩ := Input.takes_append.mp ht
    have hident : ident m = .ok ⟨name, extent m.offset id⟩ l :=
      ident_eq_ok.mpr ⟨id, ending, hid, hname, rfl, hn⟩
    have hread : reference scope i =
        .ok (.reference scope ⟨name, extent m.offset id⟩ ⟨i.offset, l.offset⟩) l :=
      (reference_eq_ok hm.head).mpr ⟨m, _, hm, hident, rfl⟩
    rw [ht.span, hm.offset] at hread
    rw [primary_of_sigil hm.head]
    exact hread
  | this =>
    rw [← ht.span]
    exact primary_of_tilde ht
  | value hv =>
    obtain ⟨c, cs, rfl, hc⟩ := hv.exists_cons
    rw [primary_of_valueStart ht.head hc, bind_of_eq_ok ((value_iff h hi).mpr ⟨_, ht, hv⟩)]
    rfl
  | @parenthesis _ _ gap text' gap' _ e ending hg hspells hg' htext =>
    have hassoc : ['('] ++ gap ++ text' ++ gap' ++ [')'] =
        ['('] ++ (gap ++ text' ++ gap' ++ [')']) := by simp
    rw [← ht.span]
    rw [htext, hassoc] at ht
    obtain ⟨m, hm, ht⟩ := Input.takes_append.mp ht
    have hlen := hm.length_lt (by simp)
    rw [byteLength_append, ← Nat.add_assoc, ← hm.offset] at hspells
    have hread : enclosed inner n ')' m = .ok e l :=
      (enclosed_iff h (by omega) (by decide) (by decide)).mpr
        ⟨gap, text', gap', ending, ht, hg, hg', hspells⟩
    rw [primary_of_round hm]
    exact spanned_eq_ok.mpr ⟨e, hread, rfl⟩
  | @call _ _ name gap args _ es hname hnd hg hargs htext =>
    rw [← ht.span]
    rw [htext] at ht
    have hrest : i.rest = name ++ (['('] ++ gap ++ args ++ [')'] ++ l.rest) := by
      rw [ht.rest]
      simp
    exact (primary_of_name hname hnd hrest).trans (named_of_call hname h hi ht hg hargs)
  | @select _ _ selection name gap key gap' _ e ending hname hnd hg hspells hg' htext =>
    rw [← ht.span]
    rw [htext] at ht
    have hrest : i.rest = name ++ (selection.opener ++ gap ++ key ++ gap' ++ [']'] ++ l.rest) := by
      rw [ht.rest]
      simp
    exact (primary_of_name hname hnd hrest).trans
      (named_of_select hname h hi ht hg hg' hspells)

/-- An operand is read exactly where it is spelled. -/
theorem primary_iff (h : Exact bound inner) (hi : i.rest.length < bound + 1) :
    primary inner (bound + 1) n i = .ok e l ↔ ∃ text ending, i.Takes text l ∧
      SpellsOperand n i.offset text e ending ∧ NextNot ending.continues l.rest := by
  constructor
  · intro hr
    exact operand_of_primary h hi hr
  · intro hr
    obtain ⟨text, ending, ht, hspells, hn⟩ := hr
    exact primary_of_operand h hi ht hspells hn

/-- An operand with the signs before it is read exactly where it is spelled. -/
theorem unary_iff (h : Exact bound inner) {signs : Nat} (hs : i.rest.length < signs)
    (hi : i.rest.length < bound + 1) :
    unary inner (bound + 1) signs n i = .ok e l ↔ ∃ text ending, i.Takes text l ∧
      SpellsOperation 7 n i.offset text e ending ∧ NextNot ending.continues l.rest := by
  induction signs generalizing n i e with
  | zero => omega
  | succ signs ih =>
    rw [unary_eq_ok]
    constructor
    · intro hr
      rcases hr with ⟨_, hr⟩ | ⟨op, m, gap, k, arg, hm, hg, hroom, harg, rfl⟩
      · obtain ⟨text, ending, ht, hspells, hn⟩ := (primary_iff h hi).mp hr
        exact ⟨text, ending, ht, .looser (.operand hspells), hn⟩
      · have hk := hm.trans hg.takes
        have hlen := hk.length_lt (by simp)
        obtain ⟨text, ending, ht, hspells, hn⟩ := (ih (by omega) (by omega)).mp harg
        have hall := hk.trans ht
        rw [hk.offset] at hspells
        refine ⟨_, ending, hall, ?_, hn⟩
        have hspan : (⟨i.offset, arg.span.stop⟩ : Span) =
            extent i.offset ([op.token] ++ gap ++ text) := by
          simp [hspells.span, extent, Nat.add_assoc]
        rw [hspan]
        exact .unary hroom hg.blank hspells rfl
    · intro hr
      obtain ⟨text, ending, ht, hspells, hn⟩ := hr
      cases hspells with
      | looser hspells =>
        have hoperand := hspells.operand_of_eight
        obtain ⟨c, cs, rfl, _, hc⟩ := hoperand.exists_cons
        exact .inl ⟨by rw [ht.head]; exact hc, (primary_iff h hi).mpr ⟨_, ending, ht, hoperand, hn⟩⟩
      | @unary _ _ op gap arg _ e _ hroom hg hspells htext =>
        rw [htext] at ht ⊢
        obtain ⟨k, hk, ht⟩ := Input.takes_append.mp ht
        obtain ⟨m, hm, hmk⟩ := Input.takes_append.mp hk
        have hlen := hk.length_lt (by simp)
        have hfresh : NextNot isBlank k.rest := by
          rw [ht.rest]
          exact (hspells.starts.append _).nextNot_isBlank
        rw [← hk.offset] at hspells
        refine .inr ⟨op, m, gap, k, e, hm, ⟨hmk, hg, hfresh⟩, hroom,
          (ih (by omega) (by omega)).mpr ⟨arg, ending, ht, hspells, hn⟩, ?_⟩
        simp [hspells.span, extent, hk.offset, Nat.add_assoc]
      | @binary _ _ _ op _ _ _ _ _ _ _ _ _ _ hr =>
        have := op.rank_le
        omega

/-! ### Operations -/

/-- What a reader of the operations of a rank is to read, with the blanks behind them. -/
def ReadsOperation (rank : Nat) (n : Nesting) (i : Input) (e : Expr) (l : Input) : Prop :=
  ∃ text gap ending, SpellsOperation rank n i.offset text e ending ∧ i.Leaves text gap ending rank l

/-- A reader that, with the blanks behind it, reads exactly the operations of a rank, on inputs with
fewer characters than a bound. -/
structure ExactOperation (bound rank : Nat) (n : Nesting) (operand : Reader Expr) : Prop where
  iff : ∀ i e l, i.rest.length < bound →
    ((∃ m gap, operand i = .ok e m ∧ m.Skips gap l) ↔ ReadsOperation rank n i e l)
  length_le : ∀ i e m, i.rest.length < bound → operand i = .ok e m → m.rest.length ≤ i.rest.length

/-- Operands with their signs are the operations of rank 7. -/
theorem exactOperation_unary (h : Exact bound inner) :
    ExactOperation (bound + 1) 7 n (unary inner (bound + 1) (bound + 1) n) := by
  have hstops : ∀ rest, Stops 7 rest := by
    intro rest
    refine ⟨fun op hop => ?_, fun h0 => absurd h0 (by decide)⟩
    have := op.rank_le
    omega
  constructor
  · intro i e l hi
    constructor
    · intro hr
      obtain ⟨m, gap, hr, hg⟩ := hr
      obtain ⟨text, ending, ht, hspells, hn⟩ := (unary_iff h hi hi).mp hr
      refine ⟨text, gap, ending, hspells, ht.trans hg.takes, hg.blank, hg.stop, fun he => ?_,
        hstops _⟩
      rw [hg.takes.rest, he] at hn
      exact hn
    · intro hr
      obtain ⟨text, gap, ending, hspells, hleaves⟩ := hr
      obtain ⟨m, hm, hg⟩ := Input.takes_append.mp hleaves.takes
      refine ⟨m, gap, (unary_iff h hi hi).mpr ⟨text, ending, hm, hspells, ?_⟩,
        ⟨hg, hleaves.blank, hleaves.fresh⟩⟩
      rw [hg.rest]
      exact hleaves.clear.nextNot hleaves.blank
  · intro i e m hi hr
    obtain ⟨text, ending, ht, _⟩ := (unary_iff h hi hi).mp hr
    have := ht.length
    omega

/-- Levels of operators from a rank on, up to the tightest. -/
def Ranked : Nat → List (List BinaryOp) → Prop
  | rank, [] => rank = 7
  | rank, level :: tighter =>
    level ∈ BinaryOp.levels ∧ (∀ op, op ∈ level ↔ op.rank = rank) ∧ Ranked (rank + 1) tighter

/-- The table of operators begins with the loosest level. -/
theorem ranked_levels : Ranked 1 BinaryOp.levels := by
  refine ⟨by simp [BinaryOp.levels], ?_, by simp [BinaryOp.levels], ?_, by simp [BinaryOp.levels],
    ?_, by simp [BinaryOp.levels], ?_, by simp [BinaryOp.levels], ?_, by simp [BinaryOp.levels], ?_,
    rfl⟩
  all_goals
    intro op
    cases op <;> decide

theorem isPrefixOf_equals {rest : List Char} (h : rest.head? ≠ some '=') :
    List.isPrefixOf ['='] rest = false := by
  rw [Bool.eq_false_iff]
  intro hp
  rw [List.isPrefixOf_iff_prefix, List.singleton_prefix_iff_head?_eq_some] at hp
  exact h hp

/-- Within a level, only the tokens that go on with `=` are to be told from the shorter ones. -/
theorem find?_level {level : List BinaryOp} (hlevel : level ∈ BinaryOp.levels) {op : BinaryOp}
    (hop : op ∈ level) {rest : List Char} (hrest : rest.head? ≠ some '=') :
    level.find? (fun o => o.token.isPrefixOf (op.token ++ rest)) = some op := by
  have heq := isPrefixOf_equals hrest
  simp only [BinaryOp.levels, List.mem_cons, List.not_mem_nil, or_false] at hlevel
  rcases hlevel with rfl | rfl | rfl | rfl | rfl | rfl
  all_goals
    cases op <;> simp_all [BinaryOp.token, List.isPrefixOf]

/-- The operator that stands in front of an operand is the one that is found. -/
theorem find?_of_starts {level : List BinaryOp} (hlevel : level ∈ BinaryOp.levels) {op : BinaryOp}
    (hop : op ∈ level) {i k l : Input} {gap : List Char} (htoken : i.Takes op.token k)
    (hblanks : k.Takes gap l) (hg : Blanks gap) (hs : Starts l.rest) :
    level.find? (fun o => o.token.isPrefixOf i.rest) = some op := by
  rw [htoken.rest, hblanks.rest]
  exact find?_level hlevel hop (hs.head?_gap_ne hg (by decide) (by decide))

section Rounds

variable {operand : Reader Expr} {rank : Nat} {level : List BinaryOp} {left : Expr}

theorem exists_skips (i : Input) : ∃ gap l, i.Skips gap l := by
  refine ⟨i.rest.takeWhile isBlank, i.after (i.rest.takeWhile isBlank) (i.rest.dropWhile isBlank), ?_⟩
  obtain ⟨ht, hb, hs⟩ := takeWhile_eq_ok.mp (rfl : takeWhile isBlank i = _)
  exact ⟨ht, hb, hs⟩

theorem skips_unique {gap gap' : List Char} {m m' : Input} (h : i.Skips gap m)
    (h' : i.Skips gap' m') : m = m' := by
  have hm := takeWhile_eq_ok.mpr ⟨h.takes, h.blank, h.stop⟩
  have hm' := takeWhile_eq_ok.mpr ⟨h'.takes, h'.blank, h'.stop⟩
  exact (ok_inj.mp (hm.symm.trans hm')).2

/-- The blanks before an operator make no difference to a round. -/
theorem operationRound_skips {gap : List Char} {k : Input} (hk : i.Skips gap k)
    {r : Round Expr Expr} :
    operationRound level operand left i = .ok r l ↔ operationRound level operand left k = .ok r l := by
  rw [operationRound_eq_ok, operationRound_eq_ok]
  constructor
  · intro h
    obtain ⟨_, m, hm, h⟩ := h
    obtain rfl := skips_unique hk hm
    exact ⟨[], k, .refl hk.stop, h⟩
  · intro h
    obtain ⟨_, m, hm, h⟩ := h
    obtain ⟨_, rfl⟩ := hm.eq_of_fresh hk.stop
    exact ⟨gap, m, hk, h⟩

/-- A round begins with the blanks before an operator, so that those may be taken before. -/
theorem rounds_skips {gap : List Char} {k : Input} (hk : i.Skips gap k)
    (h : Rounds (operationRound level operand) left k e l) :
    Rounds (operationRound level operand) left i e l := by
  cases h with
  | done hr => exact .done ((operationRound_skips hk).mpr hr)
  | again hr h => exact .again ((operationRound_skips hk).mpr hr) h

theorem fresh_of_rounds (h : Rounds (operationRound level operand) left i e l) :
    NextNot isBlank l.rest := by
  induction h with
  | done hr =>
    obtain ⟨gap, m, hm, hr⟩ := operationRound_eq_ok.mp hr
    rcases hr with ⟨_, rfl, _⟩ | ⟨_, _, _, _, _, _, _, _, _, he⟩
    · exact hm.stop
    · cases he
  | again _ _ ih => exact ih

/-- Once no operator of a level comes next, the operations of its rank stop where those of the
tighter rank do. -/
theorem stops_of_find?_eq_none {rest : List Char} (hlevel : ∀ op, op ∈ level ↔ op.rank = rank)
    (hpos : 1 ≤ rank) (hs : Stops (rank + 1) rest) :
    level.find? (fun op => op.token.isPrefixOf rest) = none ↔ Stops rank rest := by
  rw [List.find?_eq_none]
  constructor
  · intro hnone
    refine ⟨fun op hop hprefix => ?_, fun h0 => absurd h0 (by omega)⟩
    rcases Nat.lt_or_eq_of_le hop with hlt | heq
    · exact hs.operator op hlt hprefix
    · exact hnone op ((hlevel op).mpr heq.symm) (List.isPrefixOf_iff_prefix.mpr hprefix)
  · intro hstops op hop hprefix
    exact hstops.operator op (Nat.le_of_eq ((hlevel op).mp hop).symm)
      (List.isPrefixOf_iff_prefix.mp hprefix)

/-- What the rounds of a level have read, once an operation of its rank has been read before. -/
theorem operation_of_rounds (h : ExactOperation bound (rank + 1) n operand)
    (hlevel : ∀ op, op ∈ level ↔ op.rank = rank) (hpos : 1 ≤ rank) {start : Input}
    (hstart : start.rest.length < bound)
    (hr : Rounds (operationRound level operand) left i e l) :
    ∀ {text gap gap' ending k}, i.Skips gap' k →
      SpellsOperation rank n start.offset text left ending →
      start.Leaves text gap ending (rank + 1) k → ReadsOperation rank n start e l := by
  induction hr with
  | done hr =>
    intro text gap gap' ending k hk hspells hleaves
    obtain ⟨_, m, hm, hr⟩ := operationRound_eq_ok.mp hr
    obtain rfl := skips_unique hk hm
    rcases hr with ⟨hnone, rfl, he⟩ | ⟨_, _, _, _, _, _, _, _, _, he⟩
    · cases he
      exact ⟨text, gap, ending, hspells, hleaves.takes, hleaves.blank, hleaves.fresh, hleaves.clear,
        (stops_of_find?_eq_none hlevel hpos hleaves.stops).mp hnone⟩
    · cases he
  | @again left _ i k₂ e l hr _ ih =>
    intro text gap gap' ending k hk hspells hleaves
    obtain ⟨_, m, hm, hr⟩ := operationRound_eq_ok.mp hr
    obtain rfl := skips_unique hk hm
    rcases hr with ⟨_, _, he⟩ | ⟨op, k₃, gap₂, k₄, right, hfind, hop, hg₂, hright, he⟩
    · cases he
    · cases he
      have htaken := (hleaves.takes.trans hop).trans hg₂.takes
      have hlen := htaken.length
      obtain ⟨gap₅, k₅, hk₅⟩ := exists_skips k₂
      obtain ⟨text', gap₃, ending', hspells', hleaves'⟩ :=
        (h.iff k₄ right k₅ (by omega)).mp ⟨k₂, gap₅, hright, hk₅⟩
      rw [htaken.offset] at hspells'
      have hspan : left.span.cover right.span =
          extent start.offset (text ++ gap ++ op.token ++ gap₂ ++ text') := by
        rw [hspells.span, hspells'.span]
        simpa using extent_cover text (gap ++ op.token ++ gap₂) text'
      have hrank := (hlevel op).mp (List.mem_of_find?_eq_some hfind)
      have hjoined : SpellsOperation rank n start.offset (text ++ gap ++ op.token ++ gap₂ ++ text')
          (left.join op right) ending' := by
        rw [Expr.join, hspan]
        exact .binary hrank hspells hleaves.blank hg₂.blank hspells' rfl
      have hleft : start.Leaves (text ++ gap ++ op.token ++ gap₂ ++ text') gap₃ ending' (rank + 1)
          k₅ := by
        refine ⟨?_, hleaves'.blank, hleaves'.fresh, hleaves'.clear, hleaves'.stops⟩
        rw [List.append_assoc _ text']
        exact htaken.trans hleaves'.takes
      exact ih hk₅ hjoined hleft

/-- An operation of a rank is read by its first operand and rounds of its level that go on, up to the
blanks behind it. -/
theorem passes_of_operation (h : ExactOperation bound (rank + 1) n operand)
    (hlevels : level ∈ BinaryOp.levels) (hlevel : ∀ op, op ∈ level ↔ op.rank = rank)
    (hpos : 1 ≤ rank) (hle : rank ≤ 6) :
    ∀ {rank' n' o text e ending}, SpellsOperation rank' n' o text e ending → rank = rank' → n = n' →
      ∀ {i gap k}, i.offset = o → i.Leaves text gap ending (rank + 1) k → i.rest.length < bound →
      ∃ first m m' gap', operand i = .ok first m ∧
        Passes (operationRound level operand) first m e m' ∧ m'.Skips gap' k
  | _, _, _, _, _, _, .operand _, hr, _, _, _, _, _, _, _ => by omega
  | _, _, _, _, _, _, .unary .., hr, _, _, _, _, _, _, _ => by omega
  | _, _, _, _, _, _, .choice .., hr, _, _, _, _, _, _, _ => by omega
  | _, _, _, _, e, _, .looser hspells, hr, hn, i, gap, k, ho, hleaves, hi => by
    subst hr hn ho
    obtain ⟨m, gap', hm, hg⟩ := (h.iff i e k hi).mpr ⟨_, gap, _, hspells, hleaves⟩
    exact ⟨e, m, m, gap', hm, .refl, hg⟩
  | _, _, _, _, _, _, @SpellsOperation.binary _ _ _ op left gap₁ gap₂ right _ l r _ _ hop hleft hg₁
      hg₂ hright htext, hr, hn, i, gap, k, ho, hleaves, hi => by
    subst hr hn ho
    have ht := hleaves.takes
    rw [htext, List.append_assoc _ right] at ht
    obtain ⟨k₃, hk₃, hk⟩ := Input.takes_append.mp ht
    obtain ⟨k₂, hk₂, hg⟩ := Input.takes_append.mp hk₃
    obtain ⟨k₁, hk₁, htoken⟩ := Input.takes_append.mp hk₂
    have hlen := hk₃.length
    obtain ⟨first, m, m₁, g₁, hm, hpasses, hm₁⟩ := passes_of_operation h hlevels hlevel hpos hle hleft
      rfl rfl rfl (.of_operator hk₁ hg₁ htoken (by omega)) hi
    have hspan : l.span.cover r.span = extent i.offset (left ++ gap₁ ++ op.token ++ gap₂ ++ right) := by
      rw [hleft.span, hright.span]
      simpa using extent_cover left (gap₁ ++ op.token ++ gap₂) right
    rw [← hk₃.offset] at hright
    obtain ⟨m', g', hm', hg'⟩ := (h.iff k₃ r k (by omega)).mpr ⟨right, gap, _, hright, hk,
      hleaves.blank, hleaves.fresh, hleaves.clear, hleaves.stops⟩
    have hstarts : Starts k₃.rest := by
      rw [hk.rest, List.append_assoc]
      exact hright.starts.append (gap ++ k.rest)
    have hfind := find?_of_starts hlevels ((hlevel op).mpr hop) htoken hg hg₂ hstarts
    have hround : operationRound level operand l m₁ =
        .ok (.again (.binary op l r (extent i.offset (left ++ gap₁ ++ op.token ++ gap₂ ++ right))))
          m' := by
      rw [← hspan]
      exact operationRound_eq_ok.mpr ⟨g₁, k₁, hm₁,
        .inr ⟨op, k₂, gap₂, k₃, r, hfind, htoken, ⟨hg, hg₂, hstarts.nextNot_isBlank⟩, hm', rfl⟩⟩
    rw [htext]
    exact ⟨first, m, m', g', hm, hpasses.trans (.again hround .refl), hg'⟩

/-- A round that goes on has taken an operator. -/
theorem shortens_operationRound (h : ExactOperation bound rank n operand) :
    Shortens bound (operationRound level operand) := by
  intro left i left' m hi hr
  obtain ⟨_, k, hk, hr⟩ := operationRound_eq_ok.mp hr
  rcases hr with ⟨_, _, he⟩ | ⟨op, k₁, gap, k₂, right, _, hop, hg, hright, _⟩
  · cases he
  · obtain ⟨c, cs, htoken, _⟩ := op.token_head
    have hlt := hop.length_lt (by simp [htoken])
    have hk := hk.takes.length
    have hg := hg.takes.length
    have hle := h.length_le k₂ right m (by omega) hright
    omega

end Rounds

theorem Ranked.le {rank : Nat} {levels : List (List BinaryOp)} (h : Ranked rank levels) :
    rank ≤ 7 := by
  induction levels generalizing rank with
  | nil => exact Nat.le_of_eq h
  | cons level tighter ih => exact Nat.le_of_succ_le (ih h.2.2)

/-- The operations of a rank are read exactly where they are spelled. -/
theorem exactOperation_operations (h : Exact bound inner) {rank : Nat}
    {levels : List (List BinaryOp)} (hr : Ranked rank levels) (hpos : 1 ≤ rank) :
    ExactOperation (bound + 1) rank n (operations inner (bound + 1) n levels) := by
  induction levels generalizing rank with
  | nil =>
    rw [Ranked] at hr
    rw [hr]
    exact exactOperation_unary h
  | cons level tighter ih =>
    obtain ⟨hlevels, hlevel, hr⟩ := hr
    have hle := hr.le
    have ih := ih hr (by omega)
    have hforward : ∀ i e m, i.rest.length < bound + 1 →
        operations inner (bound + 1) n (level :: tighter) i = .ok e m →
        NextNot isBlank m.rest ∧ ReadsOperation rank n i e m := by
      intro i e m hi hm
      obtain ⟨first, k, hfirst, hm⟩ := bind_eq_ok.mp hm
      have hrounds := Rounds.of_repeatUpTo hm
      obtain ⟨gap, k', hk'⟩ := exists_skips k
      obtain ⟨text, gap', ending, hspells, hleaves⟩ :=
        (ih.iff i first k' hi).mp ⟨k, gap, hfirst, hk'⟩
      exact ⟨fresh_of_rounds hrounds,
        operation_of_rounds ih hlevel hpos hi hrounds hk' (.looser hspells) hleaves⟩
    constructor
    · intro i e l hi
      constructor
      · intro hread
        obtain ⟨m, gap, hm, hg⟩ := hread
        obtain ⟨hfresh, hreads⟩ := hforward i e m hi hm
        obtain ⟨_, rfl⟩ := hg.eq_of_fresh hfresh
        exact hreads
      · intro hreads
        obtain ⟨text, gap, ending, hspells, hleaves⟩ := hreads
        have hstops := hleaves.stops.mono (Nat.le_succ rank) (Nat.succ_pos rank)
        obtain ⟨first, m, m', gap', hm, hpasses, hm'⟩ := passes_of_operation ih hlevels hlevel hpos
          (by omega) hspells rfl rfl rfl ⟨hleaves.takes, hleaves.blank, hleaves.fresh, hleaves.clear, hstops⟩ hi
        have hdone : operationRound level (operations inner (bound + 1) n tighter) e l =
            .ok (.done e) l :=
          operationRound_eq_ok.mpr ⟨[], l, .refl hleaves.fresh, .inl
            ⟨(stops_of_find?_eq_none hlevel hpos hstops).mpr hleaves.stops, rfl, rfl⟩⟩
        have hmlen := ih.length_le i first m hi hm
        refine ⟨l, [], bind_eq_ok.mpr ⟨first, m, hm, ?_⟩, .refl hleaves.fresh⟩
        have hrounds := hpasses.rounds (rounds_skips hm' (.done hdone))
        exact hrounds.repeatUpTo (shortens_operationRound ih) (by omega) (by omega)
    · intro i e m hi hm
      obtain ⟨text, gap, ending, _, hleaves⟩ := (hforward i e m hi hm).2
      have := hleaves.takes.length
      omega

/-! ### Expressions -/

/-- A test that has been read with the two branches behind it is a choice. -/
theorem readsOperation_choice (h : Exact bound inner) (hi : i.rest.length < bound + 1)
    {text gap gap₁ gap₂ gap₃ : List Char} {ending : Ending} {k k₁ k₂ k₃ k₄ k₅ k₆ : Input}
    {test c a : Expr} (hspells : SpellsOperation 1 n i.offset text test ending)
    (hleaves : i.Leaves text gap ending 1 k) (h₁ : k.Takes ['?'] k₁) (h₂ : k₁.Skips gap₁ k₂)
    (hc : inner n k₂ = .ok c k₃) (h₄ : k₃.Skips gap₂ k₄) (h₅ : k₄.Takes [':'] k₅)
    (h₆ : k₅.Skips gap₃ k₆) (ha : inner n k₆ = .ok a l) :
    ReadsOperation 0 n i (.choice test c a) l := by
  have ht₁ := hleaves.takes.trans h₁
  have ht₂ := ht₁.trans h₂.takes
  have hlt := ht₁.length_lt (by simp)
  have hlen₂ := h₂.takes.length
  obtain ⟨ctext, cgap, cending, hcspells, hcleaves⟩ := (h n k₂ c k₃ (by omega)).mp hc
  obtain ⟨rfl, rfl⟩ := h₄.eq_of_fresh hcleaves.fresh
  have ht₆ := ((ht₂.trans hcleaves.takes).trans h₅).trans h₆.takes
  rw [← List.append_assoc _ ctext] at ht₆
  have hlen₆ := ((hcleaves.takes.trans h₅).trans h₆.takes).length
  obtain ⟨atext, agap, aending, haspells, haleaves⟩ := (h n k₆ a l (by omega)).mp ha
  rw [ht₂.offset] at hcspells
  rw [ht₆.offset] at haspells
  have hspan : test.span.cover a.span = extent i.offset (text ++ gap ++ ['?'] ++ gap₁ ++ ctext ++
      cgap ++ [':'] ++ gap₃ ++ atext) := by
    rw [hspells.span, haspells.span]
    simpa using extent_cover text (gap ++ ['?'] ++ gap₁ ++ ctext ++ cgap ++ [':'] ++ gap₃) atext
  refine ⟨text ++ gap ++ ['?'] ++ gap₁ ++ ctext ++ cgap ++ [':'] ++ gap₃ ++ atext, agap, aending,
    ?_, ?_, haleaves.blank, haleaves.fresh, haleaves.clear, haleaves.stops⟩
  · rw [Expr.choice, hspan]
    exact .choice hspells hleaves.blank h₂.blank hcspells hcleaves.blank h₆.blank haspells rfl
  · rw [List.append_assoc _ atext]
    exact ht₆.trans haleaves.takes

/-- What a choice is behind its question mark: two branches with a colon between them. -/
def branches (inner : Nesting → Reader Expr) (n : Nesting) (test : Expr) : Reader Expr := do
  let consequent ← inner n
  blanks
  expect ':' .malformedExpression
  blanks
  let alternate ← inner n
  pure (.choice test consequent alternate)

/-- A choice is read like its branches, once they come next. -/
theorem conditional_of_test (h : Exact bound inner) (hi : i.rest.length < bound + 1)
    {test gap₁ gap₂ : List Char} {t : Expr} {ending : Ending}
    (ht : SpellsOperation 1 n i.offset test t ending) (hg₁ : Blanks gap₁) (hg₂ : Blanks gap₂)
    (hl : i.Takes (test ++ gap₁ ++ ['?'] ++ gap₂) l) (hf : NextNot isBlank l.rest) :
    conditional inner (bound + 1) n i = branches inner n t l := by
  have htest := exactOperation_operations (n := n) h ranked_levels (Nat.le_refl 1)
  obtain ⟨k₁, hk₁, hblanks⟩ := Input.takes_append.mp hl
  obtain ⟨k, hk, hquestion⟩ := Input.takes_append.mp hk₁
  obtain ⟨m, g, hm, hg⟩ := (htest.iff i t k hi).mpr ⟨test, gap₁, _, ht,
    .of_delimiter hk hg₁ hquestion.head (by decide) (fun _ => Nat.zero_lt_one)⟩
  have heat : eat '?' k = .ok true k₁ := eat_eq_ok.mpr (.inl ⟨hquestion, rfl⟩)
  rw [conditional, bind_of_eq_ok hm, bind_of_eq_ok (blanks_eq_ok.mpr ⟨g, hg⟩), bind_of_eq_ok heat]
  show (blanks >>= _) k₁ = _
  rw [bind_of_eq_ok (blanks_eq_ok.mpr ⟨gap₂, hblanks, hg₂, hf⟩), branches]

/-- A choice is read like its alternate, once the alternate comes next. -/
theorem conditional_of_branches (h : Exact bound inner) (hi : i.rest.length < bound + 1)
    {test gap₁ gap₂ consequent gap₃ gap₄ : List Char} {t c : Expr} {tending cending : Ending}
    (ht : SpellsOperation 1 n i.offset test t tending) (hg₁ : Blanks gap₁) (hg₂ : Blanks gap₂)
    (hc : SpellsExpr n (i.offset + byteLength (test ++ gap₁ ++ ['?'] ++ gap₂)) consequent c cending)
    (hg₃ : Blanks gap₃) (hg₄ : Blanks gap₄)
    (hl : i.Takes (test ++ gap₁ ++ ['?'] ++ gap₂ ++ consequent ++ gap₃ ++ [':'] ++ gap₄) l)
    (hs : Starts l.rest) :
    conditional inner (bound + 1) n i = (inner n >>= fun a => pure (t.choice c a)) l := by
  obtain ⟨k₃, hk₃, hblanks⟩ := Input.takes_append.mp hl
  obtain ⟨k₂, hk₂, hcolon⟩ := Input.takes_append.mp hk₃
  rw [List.append_assoc _ consequent] at hk₂
  obtain ⟨k, hk, hk'⟩ := Input.takes_append.mp hk₂
  have hlt := hk.length_lt (by simp)
  have hcleaves : k.Leaves consequent gap₃ cending 0 k₂ :=
    .of_delimiter hk' hg₃ hcolon.head (by decide) (by decide)
  rw [← hk.offset] at hc
  have hcreads := (h n k c k₂ (by omega)).mpr ⟨consequent, gap₃, _, hc, hcleaves⟩
  have hfresh : NextNot isBlank k.rest := by
    rw [hk'.rest, List.append_assoc]
    exact (hc.starts.append _).nextNot_isBlank
  rw [conditional_of_test h hi ht hg₁ hg₂ hk hfresh, branches, bind_of_eq_ok hcreads,
    bind_of_eq_ok (blanks_eq_ok.mpr ⟨[], .refl hcleaves.fresh⟩),
    bind_of_eq_ok (expect_eq_ok.mpr hcolon),
    bind_of_eq_ok (blanks_eq_ok.mpr ⟨gap₄, hblanks, hg₄, hs.nextNot_isBlank⟩)]

/-- A choice is read where it is spelled. -/
theorem conditional_of_choice (h : Exact bound inner) (hi : i.rest.length < bound + 1)
    {test gap₁ gap₂ consequent gap₃ gap₄ alternate text gap : List Char} {t c a : Expr}
    {tending cending ending : Ending} (ht : SpellsOperation 1 n i.offset test t tending)
    (hg₁ : Blanks gap₁) (hg₂ : Blanks gap₂)
    (hc : SpellsExpr n (i.offset + byteLength (test ++ gap₁ ++ ['?'] ++ gap₂)) consequent c cending)
    (hg₃ : Blanks gap₃) (hg₄ : Blanks gap₄)
    (ha : SpellsExpr n (i.offset +
      byteLength (test ++ gap₁ ++ ['?'] ++ gap₂ ++ consequent ++ gap₃ ++ [':'] ++ gap₄)) alternate a
      ending)
    (htext : text =
      test ++ gap₁ ++ ['?'] ++ gap₂ ++ consequent ++ gap₃ ++ [':'] ++ gap₄ ++ alternate)
    (hleaves : i.Leaves text gap ending 0 l) :
    conditional inner (bound + 1) n i = .ok (.conditional t c a (extent i.offset text)) l := by
  have htaken := hleaves.takes
  rw [htext, List.append_assoc _ alternate] at htaken
  obtain ⟨k, hk, hl⟩ := Input.takes_append.mp htaken
  have hlt := hk.length_lt (by simp)
  rw [← hk.offset] at ha
  have hstarts : Starts k.rest := by
    rw [hl.rest, List.append_assoc]
    exact ha.starts.append _
  have hareads := (h n k a l (by omega)).mpr ⟨alternate, gap, ending, ha, hl, hleaves.blank,
    hleaves.fresh, hleaves.clear, hleaves.stops⟩
  have hspan : t.span.cover a.span = extent i.offset text := by
    rw [htext, ht.span, ha.span, hk.offset]
    simpa using extent_cover test
      (gap₁ ++ ['?'] ++ gap₂ ++ consequent ++ gap₃ ++ [':'] ++ gap₄) alternate
  rw [conditional_of_branches h hi ht hg₁ hg₂ hc hg₃ hg₄ hk hstarts]
  exact bind_eq_ok.mpr ⟨a, l, hareads, pure_eq_ok.mpr ⟨by rw [Expr.choice, hspan], rfl⟩⟩

/-- A choice or an operation is read exactly where it is spelled. -/
theorem conditional_iff (h : Exact bound inner) (hi : i.rest.length < bound + 1) :
    conditional inner (bound + 1) n i = .ok e l ↔ ReadsOperation 0 n i e l := by
  have htest := exactOperation_operations (n := n) h ranked_levels (Nat.le_refl 1)
  constructor
  · intro hr
    obtain ⟨test, m, gap, k, hm, hk, hr⟩ := conditional_eq_ok.mp hr
    obtain ⟨text, gap', ending, hspells, hleaves⟩ := (htest.iff i test k hi).mp ⟨m, gap, hm, hk⟩
    rcases hr with ⟨hne, rfl, rfl⟩ | ⟨k₁, gap₁, k₂, c, k₃, gap₂, k₄, k₅, gap₃, k₆, a, h₁, h₂, hc, h₄,
      h₅, h₆, ha, rfl⟩
    · refine ⟨text, gap', ending, .looser hspells, hleaves.takes, hleaves.blank, hleaves.fresh,
        hleaves.clear, fun op _ => ?_, fun _ => hne⟩
      exact hleaves.stops.operator op op.rank_pos
    · exact readsOperation_choice h hi hspells hleaves h₁ h₂ hc h₄ h₅ h₆ ha
  · intro hr
    obtain ⟨text, gap, ending, hspells, hleaves⟩ := hr
    cases hspells with
    | looser hspells =>
      have hstops := hleaves.stops.mono (Nat.zero_le 1) Nat.zero_lt_one
      obtain ⟨m, gap', hm, hg⟩ := (htest.iff i e l hi).mpr ⟨text, gap, ending, hspells,
        hleaves.takes, hleaves.blank, hleaves.fresh, hleaves.clear, hstops⟩
      exact conditional_eq_ok.mpr
        ⟨e, m, gap', l, hm, hg, .inl ⟨hleaves.stops.question rfl, rfl, rfl⟩⟩
    | @binary _ _ _ op _ _ _ _ _ _ _ _ _ _ hr =>
      have := op.rank_pos
      omega
    | choice ht hg₁ hg₂ hc hg₃ hg₄ ha htext =>
      exact conditional_of_choice h hi ht hg₁ hg₂ hc hg₃ hg₄ ha htext hleaves

/-- The readers of expressions are exact, whatever the bound is. -/
theorem exact_expression (bound : Nat) : Exact bound (expression bound) := by
  induction bound with
  | zero =>
    intro n i e l hi
    omega
  | succ bound ih =>
    intro n i e l hi
    rw [expression, nested_eq_ok, conditional_iff ih hi]
    constructor
    · intro hr
      obtain ⟨hroom, text, gap, ending, hspells, hleaves⟩ := hr
      exact ⟨text, gap, ending, .mk hroom hspells, hleaves⟩
    · intro hr
      obtain ⟨text, gap, ending, ⟨hroom, hspells⟩, hleaves⟩ := hr
      exact ⟨hroom, text, gap, ending, hspells, hleaves⟩

end Reader

end LocaleText
