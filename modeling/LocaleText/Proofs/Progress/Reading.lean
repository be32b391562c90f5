import LocaleText.Proofs.Progress.Basic
import LocaleText.Proofs.Reading.Rounds
import LocaleText.Proofs.Reading.Terminal

/-!
# Progress of the productions

Each lemma follows a reader of the grammar, in two copies that may have other bounds and other
readers of the expressions one level further in. Those are only run behind a character that is
taken, so it is enough that they are in step on shorter inputs.

* `string` and `opened` look for the opener of a string or of expressions, as their callers do;
  `string_eq` and `opened_eq` say that they are the readers `quoted` and `expressions` behind it
* `signed` is the step of the recursion through signs, by `unary_succ`
* `InStep.ident`, `.quoted` and `.integer` are about the readers without parts
* `InStep.value` to `InStep.conditional` are about values and expressions, under the hypothesis
  `InStepBelow` about the readers inside
* `InStep.expression` ties the knot, by induction on the bound
* `InStep.entry` and `InStep.items` are about entries and whole sources
-/

namespace LocaleText

namespace Reader

variable {α : Type} {i : Input} {c : Char}

/-- Two readers of the expressions one level further in are in step on inputs below a length. -/
def InStepBelow (k : Nat) (inner inner' : Nesting → Reader Expr) : Prop :=
  ∀ n i, i.rest.length < k → InStep (fun _ => True) (inner n) (inner' n) i

section Openers

variable {inner : Nesting → Reader Expr} {bound : Nat} {n : Nesting} {composite : Composite}

/-- Reads a string, if a quote comes next. A value looks for the quote itself. -/
def string : Reader Value := do
  match ← peek? with
  | some c => if isQuote c then quoted c else unexpected .unexpectedValueStart
  | none => unexpected .unexpectedValueStart

/-- Where a quote comes next, a string is what the reader of a value makes of it. -/
theorem string_eq (hc : i.rest.head? = some c) (hq : isQuote c = true) : string i = quoted c i := by
  rw [string, peek?_bind, hc]
  simp only [if_pos hq]

/-- Reads the expressions of an array or an index, if the opener comes next. -/
def opened (inner : Nesting → Reader Expr) (bound : Nat) (nesting : Nesting)
    (composite : Composite) : Reader (List Expr) := do
  let opener ← here
  expect composite.opener .unexpectedValueStart
  blanks
  repeatUpTo bound #[] (expressionRound inner nesting composite opener)

/-- Wherever they are read, the opener comes next. -/
theorem opened_eq (hc : i.rest.head? = some composite.opener) :
    opened inner bound n composite i = expressions inner bound n composite i := by
  obtain ⟨l, hl⟩ := Input.exists_takes_head hc
  rw [opened, expressions, here_bind, here_bind, bind_of_eq_ok (expect_eq_ok.mpr hl), skip_bind hl]

end Openers

/-- Reads an operand, or a sign and what is behind it. -/
def signed (operand signs : Nesting → Reader Expr) (nesting : Nesting) : Reader Expr := do
  let start ← offset
  match (← peek?).bind UnaryOp.ofChar? with
  | none => operand nesting
  | some op =>
    skip
    blanks
    let arg ← nested nesting signs
    pure (.unary op arg ⟨start, arg.span.stop⟩)

theorem unary_succ (inner : Nesting → Reader Expr) (bound signs : Nat) (n : Nesting) :
    unary inner bound (signs + 1) n =
      signed (primary inner bound) (unary inner bound signs) n := rfl

namespace InStep

variable {moves : α → Prop}

/-! ### Tokens -/

/-- A name has a character, whether it is quoted or not. -/
theorem ident : InStep (fun _ => True) ident ident i := by
  unfold Reader.ident
  refine .offset_bind (.peek?_bind ?_)
  cases hq : i.rest.head?.filter isQuote with
  | none =>
    refine (InStep.takeWhile isWordChar).bind fun name l _ _ => ?_
    refine .ite (fun _ => .unexpected) fun h => ?_
    have hname : name ≠ [] := fun hnil => h (by rw [hnil]; rfl)
    exact (InStep.spanFrom _).andThen fun _ _ _ => .pure _ fun h => h.2 hname
  | some quote =>
    refine InStep.skip.andThen fun _ m _ => ?_
    refine (InStep.takeWhile isWordChar).bind fun name l _ _ => ?_
    refine .ite (fun _ => .unexpected) fun h => ?_
    have hname : name ≠ [] := fun hnil => h (by rw [hnil]; rfl)
    have hdiscard : InStep (fun _ => False) (discard (Reader.eat quote))
        (discard (Reader.eat quote)) l := by
      show InStep _ (_ <$> _) (_ <$> _) l
      rw [map_eq_pure_bind]
      exact (InStep.eat quote).andThen fun _ _ _ => .result _
    exact hdiscard.andThen fun _ _ _ =>
      (InStep.spanFrom _).andThen fun _ _ _ => .pure _ fun h => h.2 hname

/-- A string has at least the quote that closes it. -/
theorem quoted (quote : Char) : InStep (fun _ => True) (quoted quote) (quoted quote) i := by
  refine .offset_bind (InStep.skip.andThen fun _ m _ => ?_)
  cases hsplit : splitAtQuote quote false m.rest with
  | some cut =>
    obtain ⟨content, rest⟩ := cut
    have heven : false = true ↔ 0 % 2 = 1 := by simp
    obtain ⟨ht, _⟩ := (splitAtQuote_eq_some_iff heven).mp hsplit
    have hl : m.Takes (content ++ [quote]) (m.after (content ++ [quote]) rest) :=
      Input.takes_after (by rw [ht, List.append_assoc]; rfl)
    refine .of_takes (by simp [hsplit]) fun a l hrun => ⟨content ++ [quote], ?_, by simp⟩
    obtain ⟨-, rfl⟩ : _ ∧ m.after (content ++ [quote]) rest = l := by simpa [hsplit] using hrun
    exact hl
  | none => exact .of_fault ⟨_, by simp only [hsplit]; rfl⟩

/-- Where no quote comes next, nothing is read. -/
theorem string : InStep (fun _ => True) string string i := by
  by_cases hq : ∃ c, i.rest.head? = some c ∧ isQuote c = true
  · obtain ⟨c, hc, hq⟩ := hq
    exact .of_eq (string_eq hc hq) (string_eq hc hq) (.quoted c)
  · refine .peek?_bind ?_
    cases hc : i.rest.head? with
    | none => exact .unexpected
    | some c => exact .ite (fun hquote => absurd ⟨c, hc, hquote⟩ hq) fun _ => .unexpected

theorem integer (hc : i.rest.head? = some c) (hd : c.isDigit = true) :
    InStep (fun _ => True) integer integer i := by
  refine .offset_bind ((InStep.takeWhile Char.isDigit).bind fun digits l hdigits _ => ?_)
  obtain ⟨ht, -, hnext⟩ := takeWhile_eq_ok.mp hdigits
  have hne := digits_ne_nil hc hd ht hnext
  refine (InStep.spanFrom _).andThen fun span _ _ => .ite (fun _ => ?_) fun _ => .fail
  exact .pure _ fun h => h.2 hne

/-! ### Composites -/

theorem optionalComma : InStep (fun _ => False) optionalComma optionalComma i :=
  .eat_bind (fun _ _ => .blanks) (.result ())

/-- What comes behind a part of a composite. -/
theorem separator (a : α) : InStep (fun _ => False)
    (Reader.blanks >>= fun _ => Reader.optionalComma >>= fun _ => Pure.pure a)
    (Reader.blanks >>= fun _ => Reader.optionalComma >>= fun _ => Pure.pure a) i :=
  InStep.blanks.andThen fun _ _ _ => InStep.optionalComma.andThen fun _ _ _ => .result a

theorem keyed {value value' : Reader α}
    (hv : ∀ m : Input, m.rest.length < i.rest.length → InStep (fun _ => True) value value' m) :
    InStep (fun _ => True) (keyed value) (keyed value') i := by
  refine InStep.ident.moved fun key l hl => InStep.blanks.andThen fun _ m hm => ?_
  refine (InStep.eat ':').andThen fun b o ho => .ite (fun _ => ?_) fun _ => .unexpected
  refine InStep.blanks.andThen fun _ p hp => ?_
  exact (hv p (by omega)).moved fun _ _ _ => .result _

section Composites

variable {inner inner' : Nesting → Reader Expr} {k b b' : Nat} {n : Nesting}
  {composite : Composite} {opener : Span}

/-- At the end, the expressions inside are not read. -/
theorem expressionRound (h : InStepBelow k inner inner')
    (hi : 0 < i.rest.length → i.rest.length < k) (items : Array Expr) :
    InStep (fun _ => True) (expressionRound inner n composite opener items)
      (expressionRound inner' n composite opener items) i := by
  refine .peek?_bind ?_
  cases hc : i.rest.head? with
  | none => exact .unterminated
  | some c =>
    have hne : i.rest ≠ [] := fun hnil => by simp [hnil] at hc
    have hlen := hi (List.length_pos_iff.mpr hne)
    refine .ite (fun _ => (InStep.skip_of_head hc).moved fun _ _ _ => .result _) fun _ => ?_
    exact (h n i hlen).within.moved fun item _ _ => .separator _

/-- At the end, the members inside are not read. -/
theorem memberRound (h : InStepBelow k inner inner')
    (hi : 0 < i.rest.length → i.rest.length < k) (read : Members) :
    InStep (fun _ => True) (memberRound inner n opener read) (memberRound inner' n opener read) i := by
  obtain ⟨entries, default⟩ := read
  refine .peek?_bind ?_
  cases hc : i.rest.head? with
  | none => exact .unterminated
  | some c =>
    have hne : i.rest ≠ [] := fun hnil => by simp [hnil] at hc
    have hlen := hi (List.length_pos_iff.mpr hne)
    refine .ite (fun _ => (InStep.skip_of_head hc).moved fun _ _ _ => .result _) fun _ => ?_
    refine .here_bind ((InStep.eat '*').andThen fun marked l hl => ?_)
    have hmember : InStep (fun _ => True) (Reader.keyed (inner n)) (Reader.keyed (inner' n)) l :=
      .keyed fun m hm => h n m (by omega)
    refine hmember.within.moved fun member m _ => ?_
    cases marked with
    | false => exact .separator _
    | true =>
      cases default with
      | none => exact .separator _
      | some first => exact .fail

/-- Behind the opener of a composite. There is less to read then, unless nothing is left. -/
theorem skip_bind {f g : Unit → Reader α} (h : ∀ l : Input, l.rest.length ≤ i.rest.length →
      (0 < l.rest.length → l.rest.length < i.rest.length) → InStep moves (f ()) (g ()) l) :
    InStep moves (Reader.skip >>= f) (Reader.skip >>= g) i := by
  refine InStep.skip.bind fun _ l hskip hle => (h l hle fun hpos => ?_).mono fun _ => And.left
  exact InStep.skip.length_lt hskip (List.length_pos_iff.mp (by omega))

theorem expressions (h : InStepBelow k inner inner') (hi : i.rest.length ≤ k)
    (hb : SameUpTo k b b') : InStep (fun _ => True) (expressions inner b n composite)
      (expressions inner' b' n composite) i := by
  refine .here_bind (.skip_bind fun l hle hlt => InStep.blanks.andThen fun _ m hm => ?_)
  refine .repeatUpTo_moving (hb.mono (by omega)) fun items o ho => ?_
  exact .expressionRound h (by omega) items

/-- Where another character comes next, nothing is read. -/
theorem opened (h : InStepBelow k inner inner') (hi : i.rest.length ≤ k) (hb : SameUpTo k b b') :
    InStep (fun _ => True) (opened inner b n composite) (opened inner' b' n composite) i := by
  by_cases hc : i.rest.head? = some composite.opener
  · exact .of_eq (opened_eq hc) (opened_eq hc) (.expressions h hi hb)
  · refine .here_bind (InStep.expect.bind fun _ l hl _ => ?_)
    exact absurd (expect_eq_ok.mp hl).head hc

/-- Each round takes something, so the bound on the rounds does not matter. -/
theorem members (h : InStepBelow k inner inner') (hi : i.rest.length ≤ k) (hb : SameUpTo k b b') :
    InStep (fun _ => True) (members inner b n) (members inner' b' n) i := by
  refine .here_bind (.skip_bind fun l hle hlt => InStep.blanks.andThen fun _ m hm => ?_)
  exact .repeatUpTo_moving (hb.mono (by omega)) fun read o ho => .memberRound h (by omega) read

theorem value (h : InStepBelow k inner inner') (hi : i.rest.length ≤ k) (hb : SameUpTo k b b') :
    InStep (fun _ => True) (value inner b n) (value inner' b' n) i := by
  refine .nested (.offset_bind (.peek?_bind ?_))
  split
  · exact (InStep.expressions h hi hb).moved fun items _ _ =>
      (InStep.spanFrom _).andThen fun _ _ _ => .result _
  · exact (InStep.members h hi hb).moved fun members _ _ =>
      (InStep.spanFrom _).andThen fun _ _ _ => .result _
  · exact .ite (fun _ => .quoted _) fun _ => .unexpected
  · exact .unexpected

/-! ### Operands -/

theorem enclosed (h : InStepBelow k inner inner') (hi : i.rest.length < k) (closer : Char) :
    InStep (fun _ => True) (enclosed inner n closer) (enclosed inner' n closer) i := by
  refine InStep.blanks.andThen fun _ l hl => (h n l (by omega)).moved fun e _ _ => ?_
  refine InStep.blanks.andThen fun _ _ _ => InStep.expect.moved fun _ _ _ => ?_
  exact .result e

theorem argumentRound (h : InStepBelow k inner inner') (hi : i.rest.length < k)
    (args : Array Expr) :
    InStep (fun _ => True) (argumentRound inner n args) (argumentRound inner' n args) i := by
  refine (h n i hi).moved fun arg _ _ => InStep.blanks.andThen fun _ _ _ => ?_
  refine (InStep.eat ')').andThen fun _ _ _ => .ite (fun _ => .result _) fun _ => ?_
  exact InStep.expect.moved fun _ _ _ => InStep.blanks.andThen fun _ _ _ => .result _

theorem arguments (h : InStepBelow k inner inner') (hi : i.rest.length < k)
    (hb : SameUpTo k b b') :
    InStep (fun _ => True) (arguments inner b n) (arguments inner' b' n) i := by
  refine InStep.skip.andThen fun _ l hl => InStep.blanks.andThen fun _ m hm => ?_
  refine .eat_bind (fun _ _ => .result []) ?_
  exact .repeatUpTo_moving (hb.mono (by omega)) fun args o ho => .argumentRound h (by omega) args

theorem named (h : InStepBelow k inner inner') (hi : i.rest.length ≤ k) (hb : SameUpTo k b b') :
    InStep (fun _ => True) (named inner b n) (named inner' b' n) i := by
  refine .offset_bind (InStep.ident.moved fun id l hl => ?_)
  refine .looksAt_bind _ (.ite (fun _ => ?_) fun _ =>
    .looksAt_bind _ (.ite (fun _ => ?_) fun _ => ?_))
  · refine (InStep.take 2).andThen fun _ m hm => ?_
    exact (InStep.enclosed h (by omega) ']').moved fun key _ _ =>
      (InStep.spanFrom _).andThen fun _ _ _ => .result _
  · refine InStep.skip.andThen fun _ m hm => ?_
    exact (InStep.enclosed h (by omega) ']').moved fun key _ _ =>
      (InStep.spanFrom _).andThen fun _ _ _ => .result _
  refine .looksAt_bind _ (.ite (fun _ => ?_) fun _ => .result _)
  exact (InStep.arguments h (by omega) hb).moved fun args _ _ =>
    (InStep.spanFrom _).andThen fun _ _ _ => .result _

theorem reference {scope : Scope} :
    InStep (fun _ => True) (reference scope) (reference scope) i :=
  .offset_bind (InStep.skip.andThen fun _ _ _ => InStep.ident.moved fun _ _ _ =>
    (InStep.spanFrom _).andThen fun _ _ _ => .result _)

/-- An operand is told by its first character, which is taken. -/
theorem primary (h : InStepBelow k inner inner') (hi : i.rest.length ≤ k) (hb : SameUpTo k b b') :
    InStep (fun _ => True) (primary inner b n) (primary inner' b' n) i := by
  refine .offset_bind (.peek?_bind ?_)
  cases hc : i.rest.head? with
  | none => exact .unexpected
  | some c =>
    refine .ite (fun _ => ?_) fun _ => ?_
    · refine (InStep.skip_of_head hc).moved fun _ l hl => ?_
      exact (InStep.enclosed h (by omega) ')').moved fun e _ _ =>
        (InStep.spanFrom _).andThen fun _ _ _ => .result _
    refine .ite (fun hd => .integer hc hd) fun _ => ?_
    refine .ite (fun _ => (InStep.value h hi hb).moved fun _ _ _ => .result _) fun _ => ?_
    refine .ite (fun _ => .named h hi hb) fun _ => .ite (fun _ => .reference) fun _ => ?_
    refine .ite (fun _ => .reference) fun _ => .ite (fun _ => ?_) fun _ => .unexpected
    exact (InStep.skip_of_head hc).moved fun _ _ _ =>
      (InStep.spanFrom _).andThen fun _ _ _ => .result _

/-- An operand is one without a sign, or a sign with an operand behind it, which is shorter. -/
theorem signed {operand operand' self self' : Nesting → Reader Expr}
    (ho : InStep (fun _ => True) (operand n) (operand' n) i)
    (hself : ∀ m : Input, m.rest.length < i.rest.length →
      InStep (fun _ => True) (self n.deeper) (self' n.deeper) m) :
    InStep (fun _ => True) (Reader.signed operand self n) (Reader.signed operand' self' n) i := by
  refine .offset_bind (.peek?_bind ?_)
  cases hc : i.rest.head? with
  | none => exact ho
  | some c =>
    cases hop : UnaryOp.ofChar? c with
    | none => simpa only [Option.bind_some, hop] using ho
    | some op =>
      simp only [Option.bind_some, hop]
      refine (InStep.skip_of_head hc).moved fun _ l hl => InStep.blanks.andThen fun _ m hm => ?_
      exact (InStep.nested (hself m (by omega))).moved fun arg _ _ => .result _

/-- By induction on the bound on the signs. -/
theorem unary (h : InStepBelow k inner inner') (hb : SameUpTo k b b') :
    ∀ {signs signs' : Nat} (n : Nesting) (i : Input), i.rest.length ≤ k →
      SameUpTo i.rest.length signs signs' →
      InStep (fun _ => True) (unary inner b signs n) (unary inner' b' signs' n) i := by
  intro signs
  induction signs with
  | zero =>
    intro signs' n i _ hs
    obtain ⟨-, rfl⟩ | ⟨_, _, h, -⟩ := hs.zero_or
    · exact .unexpected
    · exact absurd h.symm (Nat.succ_ne_zero _)
  | succ signs ih =>
    intro signs' n i hi hs
    obtain ⟨h, -⟩ | ⟨_, signs', h', rfl⟩ := hs.zero_or
    · exact absurd h (Nat.succ_ne_zero signs)
    obtain rfl := Nat.succ.inj h'
    exact .signed (.primary h hi hb) fun m hm => ih n.deeper m (by omega) (hs.pred hm)

/-! ### Operations -/

theorem operator? : ∀ (level : List BinaryOp) (i : Input),
    InStep (fun _ => False) (operator? level) (operator? level) i
  | [], _ => .result none
  | _ :: level, i => .looksAt_bind _ (.ite (fun _ => .result _) fun _ => .operator? level i)

/-- Only the round that finds no operator takes nothing. -/
theorem operationRound {operand operand' : Reader Expr} {level : List BinaryOp}
    (h : ∀ m : Input, m.rest.length ≤ i.rest.length → InStep (fun _ => True) operand operand' m)
    (left : Expr) : InStep Round.GoesOn (operationRound level operand left)
      (operationRound level operand' left) i := by
  refine InStep.blanks.andThen fun _ l hl => (InStep.operator? level l).andThen fun op? m hm => ?_
  cases op? with
  | none => exact .pure _ id
  | some op =>
    refine (InStep.take _).andThen fun _ o ho => InStep.blanks.andThen fun _ p hp => ?_
    exact (h p (by omega)).moved fun right _ _ => .result _

/-- By induction on the levels, the tightest first. -/
theorem operations (h : InStepBelow k inner inner') (hb : SameUpTo k b b')
    (levels : List (List BinaryOp)) : ∀ {i : Input}, i.rest.length ≤ k →
      SameUpTo i.rest.length b b' → InStep (fun _ => True) (operations inner b n levels)
        (operations inner' b' n levels) i := by
  induction levels with
  | nil => exact fun {i} hi hs => .unary h hb n i hi hs
  | cons level tighter ih =>
    intro i hi hs
    refine (ih hi hs).moved fun first l hl => ?_
    refine .repeatUpTo_going (hs.mono (by omega)) fun left m hm => ?_
    exact .operationRound (fun o ho => ih (by omega) (hs.mono (by omega))) left

theorem conditional (h : InStepBelow k inner inner') (hi : i.rest.length ≤ k)
    (hb : SameUpTo k b b') :
    InStep (fun _ => True) (conditional inner b n) (conditional inner' b' n) i := by
  refine (InStep.operations h hb _ hi (hb.mono hi)).moved fun test l hl => ?_
  refine InStep.blanks.andThen fun _ m hm => (InStep.eat '?').andThen fun _ o ho => ?_
  refine .ite (fun _ => ?_) fun _ => .result _
  refine InStep.blanks.andThen fun _ p hp => (h n p (by omega)).moved fun consequent q hq => ?_
  refine InStep.blanks.andThen fun _ r hr => InStep.expect.moved fun _ s hs => ?_
  refine InStep.blanks.andThen fun _ t ht => (h n t (by omega)).moved fun alternate _ _ => ?_
  exact .result _

end Composites

/-- By induction on the bound: an expression reads those inside it with a smaller one. -/
theorem expression : ∀ {b b' : Nat} (n : Nesting) (i : Input), SameUpTo i.rest.length b b' →
    InStep (fun _ => True) (expression b n) (expression b' n) i := by
  intro b
  induction b with
  | zero =>
    intro b' n i hb
    obtain ⟨-, rfl⟩ | ⟨_, _, h, -⟩ := hb.zero_or
    · exact .unexpected
    · exact absurd h.symm (Nat.succ_ne_zero _)
  | succ b ih =>
    intro b' n i hb
    obtain ⟨h, -⟩ | ⟨_, b', h', rfl⟩ := hb.zero_or
    · exact absurd h (Nat.succ_ne_zero b)
    obtain rfl := Nat.succ.inj h'
    have hinner : InStepBelow i.rest.length (Reader.expression b) (Reader.expression b') :=
      fun n m hm => ih n m (hb.pred hm)
    exact .nested (.conditional hinner (Nat.le_refl _) hb)

theorem below_expression {k b b' : Nat} (hb : SameUpTo k b b') :
    InStepBelow k (Reader.expression b) (Reader.expression b') :=
  fun n m hm => .expression n m (hb.mono (Nat.le_of_lt hm))

/-! ### Entries -/

section Entries

variable {b b' : Nat} {n : Nesting}

theorem entryValue (hb : SameUpTo i.rest.length b b') :
    InStep (fun _ => True) (entryValue b n) (entryValue b' n) i :=
  .value (below_expression hb) (Nat.le_refl _) hb

theorem attributeRound (hb : SameUpTo i.rest.length b b') (entries : Attributes) :
    InStep (fun _ => True) (attributeRound b n entries) (attributeRound b' n entries) i := by
  have hmember := InStep.keyed fun (m : Input) hm =>
    InStep.entryValue (n := n) (hb.mono (Nat.le_of_lt hm))
  refine hmember.moved fun member _ _ => InStep.blanks.andThen fun _ _ _ => .peek?_bind ?_
  split
  · exact .result _
  · exact InStep.skip.andThen fun _ _ _ => InStep.blanks.andThen fun _ _ _ => .result _
  · exact .unexpected

theorem attributes (hb : SameUpTo i.rest.length b b') :
    InStep (fun _ => True) (attributes b n) (attributes b' n) i :=
  .repeatUpTo_moving hb fun entries _ hm => .attributeRound (hb.mono hm) entries

theorem entryEnd (hb : SameUpTo i.rest.length b b') :
    InStep (fun _ => True) (entryEnd b n) (entryEnd b' n) i := by
  rw [entryEnd_eq, entryEnd_eq]
  refine InStep.blanks.andThen fun _ l hl => .peek?_bind ?_
  have hattrs : InStep (fun _ => False)
      (if l.rest.head? = some '>' then Pure.pure none else some <$> Reader.attributes b n)
      (if l.rest.head? = some '>' then Pure.pure none else some <$> Reader.attributes b' n) l :=
    .ite (fun _ => .result _) fun _ => (InStep.attributes (hb.mono hl)).map some
  exact hattrs.andThen fun _ _ _ => InStep.expect.moved fun _ _ _ => .result _

variable {start : Nat} {id : Ident}

theorem entity {index : Option (List Expr)} (hb : SameUpTo i.rest.length b b') :
    InStep (fun _ => True) (entity b n start id index) (entity b' n start id index) i := by
  refine InStep.gap.andThen fun before l hl => ?_
  refine (InStep.entryValue (hb.mono hl)).moved fun value m hm => ?_
  refine InStep.gap.andThen fun behind o ho => ?_
  refine (InStep.entryEnd (hb.mono (by omega))).moved fun attrs _ _ => ?_
  exact (InStep.spanFrom _).andThen fun _ _ _ => .result _

theorem parameterRound (params : Array Ident) :
    InStep (fun _ => True) (parameterRound params) (parameterRound params) i := by
  refine .eat_bind (fun _ _ => .result _) ?_
  refine InStep.expect.moved fun _ _ _ => InStep.ident.moved fun param _ _ => ?_
  refine InStep.blanks.andThen fun _ _ _ => .peek?_bind ?_
  split
  · exact InStep.skip.andThen fun _ _ _ => InStep.blanks.andThen fun _ _ _ => .result _
  · exact .result _
  · exact .unexpected

theorem parameters (hb : SameUpTo i.rest.length b b') :
    InStep (fun _ => True) (parameters b) (parameters b') i := by
  refine InStep.skip.andThen fun _ l hl => InStep.blanks.andThen fun _ m hm => ?_
  exact .repeatUpTo_moving (hb.mono (by omega)) fun params _ _ => .parameterRound params

theorem macroDef (hb : SameUpTo i.rest.length b b') :
    InStep (fun _ => True) (macroDef b n start id) (macroDef b' n start id) i := by
  refine (InStep.parameters hb).moved fun params l hl => InStep.blanks.andThen fun _ m hm => ?_
  refine InStep.expect.moved fun _ o ho => ?_
  refine (InStep.enclosed (below_expression hb) (by omega) '\x7d').moved fun body p hp => ?_
  refine (InStep.entryEnd (hb.mono (by omega))).moved fun attrs _ _ => ?_
  exact (InStep.spanFrom _).andThen fun _ _ _ => .result _

/-- An entry takes the character that it begins with. -/
theorem entry (hb : SameUpTo i.rest.length b b') :
    InStep (fun _ => True) (entry b n) (entry b' n) i := by
  refine .offset_bind (.looksAt_bind _ (.ite (fun _ => .fail) fun _ => ?_))
  refine .eat_bind (fun l hl => ?_) .unexpected
  refine InStep.ident.moved fun id m hm => .peek?_bind ?_
  split
  · exact (InStep.macroDef (hb.mono (by omega))).map _
  · have hb : SameUpTo m.rest.length b b' := hb.mono (by omega)
    exact (InStep.expressions (below_expression hb) (Nat.le_refl _) hb).moved fun index o ho =>
      (InStep.entity (hb.mono (by omega))).map _
  · exact (InStep.entity (hb.mono (by omega))).map _

/-- Only the round that comes to the end takes nothing. -/
theorem itemRound (hb : SameUpTo i.rest.length b b') (body : Array Item) :
    InStep Round.GoesOn (itemRound b n body) (itemRound b' n body) i := by
  refine InStep.gap.andThen fun blank l hl => .peek?_bind (.ite (fun _ => .pure _ id) fun _ => ?_)
  exact (InStep.entry (hb.mono hl)).moved fun e _ _ => .result _

theorem items (hb : SameUpTo i.rest.length b b') :
    InStep (fun _ => False) (items b n) (items b' n) i :=
  .repeatUpTo_going hb fun body _ hm => .itemRound (hb.mono hm) body

end Entries

end InStep

end Reader

end LocaleText
