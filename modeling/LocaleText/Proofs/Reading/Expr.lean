import LocaleText.Proofs.Reading.Dispatch
import LocaleText.Proofs.Reading.Terminal

/-!
# Steps of reading values and expressions

What each reader of values and expressions has done when it succeeds, in terms of the readers it
calls. Nothing is said yet about the text that is read.

* `Reader.keyed_eq_ok` is about a key with what it stands before
* `Reader.expressionRound_eq_ok`, `Reader.memberRound_eq_ok` and `Reader.argumentRound_eq_ok` are
  about one round of a list, which takes a part of it or its closer
* `Reader.marked_eq_ok` says what a mark does to the default of an object
* `Reader.unary_eq_ok`, `Reader.operationRound_eq_ok` and `Reader.conditional_eq_ok` are about
  operands and operators
-/

namespace LocaleText.Reader

variable {α : Type} {inner : Nesting → Reader Expr} {bound : Nat} {nesting : Nesting}
  {i l : Input} {c : Char}

/-! ### Composites -/

/-- A comma with the blanks behind it, or nothing. -/
theorem optionalComma_eq_ok : optionalComma i = .ok () l ↔
    (∃ m gap, i.Takes [','] m ∧ m.Skips gap l) ∨ (i.rest.head? ≠ some ',' ∧ l = i) := by
  simp only [optionalComma, eat_bind_eq_ok, if_true, blanks_eq_ok, Bool.false_eq_true, if_false,
    pure_eq_ok, true_and]
  constructor
  · intro h
    rcases h with ⟨m, hm, gap, hg⟩ | ⟨hc, rfl⟩
    · exact .inl ⟨m, gap, hm, hg⟩
    · exact .inr ⟨hc, rfl⟩
  · intro h
    rcases h with ⟨m, gap, hm, hg⟩ | ⟨hc, rfl⟩
    · exact .inl ⟨m, hm, gap, hg⟩
    · exact .inr ⟨hc, rfl⟩

/-- The parts of a pair in order, with blanks around the colon. -/
theorem keyed_eq_ok {value : Reader α} {p : Ident × α} :
    keyed value i = .ok p l ↔ ∃ m₁ gap m₂ m₃ gap' m₄, ident i = .ok p.1 m₁ ∧
      m₁.Skips gap m₂ ∧ m₂.Takes [':'] m₃ ∧ m₃.Skips gap' m₄ ∧ value m₄ = .ok p.2 l := by
  simp only [keyed, bind_eq_ok (x := ident), blanks_bind_eq_ok, eat_bind_eq_ok, if_true,
    Bool.false_eq_true, if_false, unexpected_ne_ok, and_false, or_false, bind_eq_ok (x := value),
    pure_eq_ok]
  constructor
  · intro h
    obtain ⟨key, m₁, hk, gap, m₂, h₂, m₃, h₃, gap', m₄, h₄, a, m, hv, rfl, rfl⟩ := h
    exact ⟨m₁, gap, m₂, m₃, gap', m₄, hk, h₂, h₃, h₄, hv⟩
  · intro h
    obtain ⟨m₁, gap, m₂, m₃, gap', m₄, hk, h₂, h₃, h₄, hv⟩ := h
    exact ⟨_, m₁, hk, gap, m₂, h₂, m₃, h₃, gap', m₄, h₄, _, l, hv, rfl, rfl⟩

/-- A round of an array or an index: the closer, or one more item. -/
theorem expressionRound_eq_ok {composite : Composite} {opener : Span} {items : Array Expr}
    {r : Round (Array Expr) (List Expr)} :
    expressionRound inner nesting composite opener items i = .ok r l ↔
      (i.Takes [composite.closer] l ∧ r = .done items.toList) ∨
      (∃ c e m gap m', (i.rest.head? = some c ∧ c ≠ composite.closer) ∧
        inner nesting i = .ok e m ∧ m.Skips gap m' ∧ optionalComma m' = .ok () l ∧
        r = .again (items.push e)) := by
  rw [expressionRound, peek?_bind]
  cases hc : i.rest.head? with
  | none =>
    constructor
    · intro h
      exact absurd h unterminated_ne_ok
    · intro h
      rcases h with ⟨h, _⟩ | ⟨_, _, _, _, _, ⟨h, _⟩, _⟩
      · exact absurd (h.head.symm.trans hc) (by simp)
      · exact absurd h (by simp)
  | some c =>
    simp only [ite_eq_ok, skip_bind_eq_ok hc, pure_eq_ok, bind_eq_ok (x := within _ _ _),
      within_eq_ok, blanks_bind_eq_ok, unit_bind_eq_ok (x := optionalComma)]
    constructor
    · intro h
      rcases h with ⟨rfl, m, hm, rfl, rfl⟩ | ⟨hne, e, m, he, gap, m', hg, k, hk, rfl, rfl⟩
      · exact .inl ⟨hm, rfl⟩
      · exact .inr ⟨c, e, m, gap, m', ⟨rfl, hne⟩, he, hg, hk, rfl⟩
    · intro h
      rcases h with ⟨hm, rfl⟩ | ⟨d, e, m, gap, m', ⟨hd, hne⟩, he, hg, hk, rfl⟩
      · have hcl : c = composite.closer := by
          rw [hm.head] at hc
          exact (Option.some.inj hc).symm
        exact .inl ⟨hcl, l, by rw [hcl]; exact hm, rfl, rfl⟩
      · rw [← Option.some.inj hd] at hne
        exact .inr ⟨hne, e, m, he, gap, m', hg, l, hk, rfl, rfl⟩

theorem expressions_eq_ok {composite : Composite} {es : List Expr} (hc : i.rest.head? = some c) :
    expressions inner bound nesting composite i = .ok es l ↔ ∃ m gap m', i.Takes [c] m ∧
      m.Skips gap m' ∧
      repeatUpTo bound #[] (expressionRound inner nesting composite i.here) m' = .ok es l := by
  simp only [expressions, here_bind, skip_blanks_bind_eq_ok hc]

/-- What a marked member makes of the default found so far. -/
def nextDefault (marked : Bool) (key : String) (marker : Span) (default : Option (String × Span)) :
    Option (String × Span) :=
  if marked then some (key, marker) else default

/-- A second marked member is a fault, whatever is read behind any other member. -/
theorem marked_eq_ok {marked : Bool} {default : Option (String × Span)} {x : Span → Reader α}
    {y : Reader α} {a : α} (hx : ∀ first, x first i ≠ .ok a l) :
    (match marked, default with
      | true, some (_, first) => x first
      | _, _ => y) i = .ok a l ↔ (marked = true → default = none) ∧ y i = .ok a l := by
  cases marked with
  | false => simp
  | true =>
    cases default with
    | none => simp
    | some first => simp [hx]

/-- A round of an object: the closer, or one more member, which is not the second one marked. -/
theorem memberRound_eq_ok {opener : Span} {ms : Members}
    {r : Round Members (Keyed Expr × Option String)} :
    memberRound inner nesting opener ms i = .ok r l ↔
      (i.Takes ['\x7d'] l ∧ r = .done (ms.1, ms.2.map Prod.fst)) ∨
      (∃ c marked m p k gap k', (i.rest.head? = some c ∧ c ≠ '\x7d') ∧
        eat '*' i = .ok marked m ∧ keyed (inner nesting) m = .ok p k ∧ k.Skips gap k' ∧
        optionalComma k' = .ok () l ∧ (marked = true → ms.2 = none) ∧
        r = .again (ms.1.insert p.1.name p.2, nextDefault marked p.1.name i.here ms.2)) := by
  obtain ⟨entries, default⟩ := ms
  rw [memberRound, peek?_bind]
  cases hc : i.rest.head? with
  | none =>
    constructor
    · intro h
      exact absurd h unterminated_ne_ok
    · intro h
      rcases h with ⟨h, _⟩ | ⟨_, _, _, _, _, _, _, ⟨h, _⟩, _⟩
      · exact absurd (h.head.symm.trans hc) (by simp)
      · exact absurd h (by simp)
  | some c =>
    simp only [ite_eq_ok, skip_bind_eq_ok hc, pure_eq_ok, here_bind, bind_eq_ok (x := within _ _ _),
      within_eq_ok, bind_eq_ok (x := eat _)]
    constructor
    · intro h
      rcases h with ⟨rfl, m, hm, rfl, rfl⟩ | ⟨hne, marked, m, hm, p, k, hp, h⟩
      · exact .inl ⟨hm, rfl⟩
      · have h := (marked_eq_ok fun _ => fail_ne_ok).mp h
        simp only [blanks_bind_eq_ok, unit_bind_eq_ok (x := optionalComma), pure_eq_ok] at h
        obtain ⟨hd, gap, k', hg, k'', hk, rfl, rfl⟩ := h
        exact .inr ⟨c, marked, m, p, k, gap, k', ⟨rfl, hne⟩, hm, hp, hg, hk, hd, rfl⟩
    · intro h
      rcases h with ⟨hm, rfl⟩ | ⟨d, marked, m, p, k, gap, k', ⟨hc', hne⟩, hm, hp, hg, hk, hd, rfl⟩
      · have hcl : c = '\x7d' := by
          rw [hm.head] at hc
          exact (Option.some.inj hc).symm
        exact .inl ⟨hcl, l, by rw [hcl]; exact hm, rfl, rfl⟩
      · rw [← Option.some.inj hc'] at hne
        refine .inr ⟨hne, marked, m, hm, p, k, hp, (marked_eq_ok fun _ => fail_ne_ok).mpr ⟨hd, ?_⟩⟩
        simp only [blanks_bind_eq_ok, unit_bind_eq_ok (x := optionalComma), pure_eq_ok]
        exact ⟨gap, k', hg, l, hk, rfl, rfl⟩

theorem members_eq_ok {r : Keyed Expr × Option String} (hc : i.rest.head? = some c) :
    members inner bound nesting i = .ok r l ↔ ∃ m gap m', i.Takes [c] m ∧ m.Skips gap m' ∧
      repeatUpTo bound ([], none) (memberRound inner nesting i.here) m' = .ok r l := by
  simp only [members, here_bind, skip_blanks_bind_eq_ok hc]

/-! ### Operands -/

theorem reference_eq_ok {scope : Scope} {e : Expr} (hc : i.rest.head? = some c) :
    reference scope i = .ok e l ↔ ∃ m id, i.Takes [c] m ∧ ident m = .ok id l ∧
      e = .reference scope id ⟨i.offset, l.offset⟩ := by
  simp only [reference, offset_bind, skip_bind_eq_ok hc, spanned_eq_ok, exists_and_left]

theorem enclosed_eq_ok {closer : Char} {e : Expr} :
    enclosed inner nesting closer i = .ok e l ↔ ∃ gap m k gap' k', i.Skips gap m ∧
      inner nesting m = .ok e k ∧ k.Skips gap' k' ∧ k'.Takes [closer] l := by
  simp only [enclosed, blanks_bind_eq_ok, bind_eq_ok (x := inner nesting), expect_bind_eq_ok,
    pure_eq_ok]
  constructor
  · intro h
    obtain ⟨gap, m, hm, e, k, he, gap', k', hk, l', hl, rfl, rfl⟩ := h
    exact ⟨gap, m, k, gap', k', hm, he, hk, hl⟩
  · intro h
    obtain ⟨gap, m, k, gap', k', hm, he, hk, hl⟩ := h
    exact ⟨gap, m, hm, e, k, he, gap', k', hk, l, hl, rfl, rfl⟩

/-- A round of arguments: an expression with the closer or with a comma behind it. -/
theorem argumentRound_eq_ok {args : Array Expr} {r : Round (Array Expr) (List Expr)} :
    argumentRound inner nesting args i = .ok r l ↔ ∃ e m gap k, inner nesting i = .ok e m ∧
      m.Skips gap k ∧
      ((k.Takes [')'] l ∧ r = .done (args.push e).toList) ∨
        ∃ k' gap', k.Takes [','] k' ∧ k'.Skips gap' l ∧ r = .again (args.push e)) := by
  simp only [argumentRound, bind_eq_ok (x := inner nesting), blanks_bind_eq_ok, eat_bind_eq_ok,
    if_true, Bool.false_eq_true, if_false, expect_bind_eq_ok, pure_eq_ok]
  constructor
  · intro h
    obtain ⟨e, m, he, gap, k, hk, h⟩ := h
    refine ⟨e, m, gap, k, he, hk, ?_⟩
    rcases h with ⟨l', hl, rfl, rfl⟩ | ⟨_, k', hk', gap', l', hl, rfl, rfl⟩
    · exact .inl ⟨hl, rfl⟩
    · exact .inr ⟨k', gap', hk', hl, rfl⟩
  · intro h
    obtain ⟨e, m, gap, k, he, hk, h⟩ := h
    refine ⟨e, m, he, gap, k, hk, ?_⟩
    rcases h with ⟨hl, rfl⟩ | ⟨k', gap', hk', hl, rfl⟩
    · exact .inl ⟨l, hl, rfl, rfl⟩
    · refine .inr ⟨?_, k', hk', gap', l, hl, rfl, rfl⟩
      rw [hk'.head]
      decide

/-- The closer comes next, or there is an argument. -/
theorem arguments_eq_ok {es : List Expr} (hc : i.rest.head? = some c) :
    arguments inner bound nesting i = .ok es l ↔ ∃ m gap k, i.Takes [c] m ∧ m.Skips gap k ∧
      ((k.Takes [')'] l ∧ es = []) ∨ (k.rest.head? ≠ some ')' ∧
        repeatUpTo bound #[] (argumentRound inner nesting) k = .ok es l)) := by
  simp only [arguments, skip_blanks_bind_eq_ok hc, eat_bind_eq_ok, if_true, Bool.false_eq_true,
    if_false, pure_eq_ok]
  refine exists_congr fun m => exists_congr fun gap => exists_congr fun k => ?_
  refine and_congr_right fun _ => and_congr_right fun _ => or_congr_left ?_
  constructor
  · intro h
    obtain ⟨_, hl, rfl, rfl⟩ := h
    exact ⟨hl, rfl⟩
  · intro h
    obtain ⟨hl, rfl⟩ := h
    exact ⟨l, hl, rfl, rfl⟩

/-- An operand with the signs before it, each of which counts as a level. -/
theorem unary_eq_ok {signs : Nat} {e : Expr} :
    unary inner bound (signs + 1) nesting i = .ok e l ↔
      (i.rest.head?.bind UnaryOp.ofChar? = none ∧ primary inner bound nesting i = .ok e l) ∨
      (∃ op m gap k arg, i.Takes [UnaryOp.token op] m ∧ m.Skips gap k ∧ nesting.HasRoom ∧
        unary inner bound signs nesting.deeper k = .ok arg l ∧
        e = .unary op arg ⟨i.offset, arg.span.stop⟩) := by
  rw [unary, offset_bind, peek?_bind]
  cases hop : i.rest.head?.bind UnaryOp.ofChar? with
  | none =>
    constructor
    · intro h
      exact .inl ⟨rfl, h⟩
    · intro h
      rcases h with ⟨-, h⟩ | ⟨op, m, _, _, _, hm, _⟩
      · exact h
      · rw [hm.head, Option.bind_some, UnaryOp.ofChar?_token] at hop
        exact absurd hop (by simp)
  | some op =>
    obtain ⟨c, hc, hop⟩ := Option.bind_eq_some_iff.mp hop
    obtain rfl := UnaryOp.eq_token_of_ofChar? hop
    simp only [skip_bind_eq_ok hc, blanks_bind_eq_ok, bind_eq_ok (x := nested _ _), nested_eq_ok,
      pure_eq_ok]
    constructor
    · intro h
      obtain ⟨m, hm, gap, k, hk, arg, _, ⟨hroom, harg⟩, rfl, rfl⟩ := h
      exact .inr ⟨op, m, gap, k, arg, hm, hk, hroom, harg, rfl⟩
    · intro h
      rcases h with ⟨h, _⟩ | ⟨op', m, gap, k, arg, hm, hk, hroom, harg, rfl⟩
      · exact absurd h (by simp)
      · obtain rfl : op' = op := by
          have hs := congrArg UnaryOp.ofChar? (Option.some.inj (hm.head.symm.trans hc))
          simpa [UnaryOp.ofChar?_token] using hs
        exact ⟨m, hm, gap, k, hk, arg, l, ⟨hroom, harg⟩, rfl, rfl⟩

/-! ### Operations -/

/-- The operator of a level that comes next. -/
theorem operator?_eq_ok {level : List BinaryOp} {r : Option BinaryOp} :
    operator? level i = .ok r l ↔ level.find? (fun op => op.token.isPrefixOf i.rest) = r ∧ i = l := by
  induction level with
  | nil => simp [operator?, pure_eq_ok]
  | cons op ops ih =>
    rw [operator?, looksAt_bind, List.find?_cons]
    cases op.token.isPrefixOf i.rest with
    | true => simp [pure_eq_ok]
    | false => simpa using ih

/-- A round of a level: no operator of the level, or one more with its operand. -/
theorem operationRound_eq_ok {level : List BinaryOp} {operand : Reader Expr} {left : Expr}
    {r : Round Expr Expr} :
    operationRound level operand left i = .ok r l ↔ ∃ gap m, i.Skips gap m ∧
      ((level.find? (fun op => op.token.isPrefixOf m.rest) = none ∧ m = l ∧ r = .done left) ∨
        ∃ op k gap' k' right, level.find? (fun op => op.token.isPrefixOf m.rest) = some op ∧
          m.Takes (BinaryOp.token op) k ∧ k.Skips gap' k' ∧ operand k' = .ok right l ∧
          r = .again (.join op left right)) := by
  simp only [operationRound, blanks_bind_eq_ok, bind_eq_ok (x := operator? _), operator?_eq_ok]
  constructor
  · intro h
    obtain ⟨gap, m, hm, op, _, ⟨hop, rfl⟩, h⟩ := h
    refine ⟨gap, m, hm, ?_⟩
    cases op with
    | none =>
      simp only [pure_eq_ok] at h
      exact .inl ⟨hop, h.2, h.1.symm⟩
    | some op =>
      have hprefix : op.token.isPrefixOf m.rest = true := by simpa using List.find?_some hop
      obtain ⟨k, hk⟩ := isPrefixOf_eq_true_iff.mp hprefix
      simp only [take_bind hk, blanks_bind_eq_ok, bind_eq_ok (x := operand), pure_eq_ok] at h
      obtain ⟨gap', k', hk', right, _, hright, rfl, rfl⟩ := h
      exact .inr ⟨op, k, gap', k', right, hop, hk, hk', hright, rfl⟩
  · intro h
    obtain ⟨gap, m, hm, h⟩ := h
    rcases h with ⟨hop, rfl, rfl⟩ | ⟨op, k, gap', k', right, hop, hk, hk', hright, rfl⟩
    · exact ⟨gap, m, hm, none, m, ⟨hop, rfl⟩, pure_eq_ok.mpr ⟨rfl, rfl⟩⟩
    · refine ⟨gap, m, hm, some op, m, ⟨hop, rfl⟩, ?_⟩
      simp only [take_bind hk, blanks_bind_eq_ok, bind_eq_ok (x := operand), pure_eq_ok]
      exact ⟨gap', k', hk', right, l, hright, rfl, rfl⟩

/-- An operation, and two branches if a question mark follows. -/
theorem conditional_eq_ok {e : Expr} : conditional inner bound nesting i = .ok e l ↔
    ∃ test m gap k, operations inner bound nesting BinaryOp.levels i = .ok test m ∧
      m.Skips gap k ∧
      ((k.rest.head? ≠ some '?' ∧ k = l ∧ e = test) ∨
        ∃ k₁ gap₁ k₂ c k₃ gap₂ k₄ k₅ gap₃ k₆ a, k.Takes ['?'] k₁ ∧ k₁.Skips gap₁ k₂ ∧
          inner nesting k₂ = .ok c k₃ ∧ k₃.Skips gap₂ k₄ ∧ k₄.Takes [':'] k₅ ∧
          k₅.Skips gap₃ k₆ ∧ inner nesting k₆ = .ok a l ∧ e = .choice test c a) := by
  simp only [conditional, bind_eq_ok (x := operations _ _ _ _), blanks_bind_eq_ok, eat_bind_eq_ok,
    if_true, Bool.false_eq_true, if_false, bind_eq_ok (x := inner nesting), expect_bind_eq_ok,
    pure_eq_ok]
  constructor
  · intro h
    obtain ⟨test, m, ht, gap, k, hk, h⟩ := h
    refine ⟨test, m, gap, k, ht, hk, ?_⟩
    rcases h with ⟨k₁, h₁, gap₁, k₂, h₂, c, k₃, hc, gap₂, k₄, h₄, k₅, h₅, gap₃, k₆, h₆, a, _, ha,
      rfl, rfl⟩ | ⟨hne, rfl, rfl⟩
    · exact .inr ⟨k₁, gap₁, k₂, c, k₃, gap₂, k₄, k₅, gap₃, k₆, a, h₁, h₂, hc, h₄, h₅, h₆, ha, rfl⟩
    · exact .inl ⟨hne, rfl, rfl⟩
  · intro h
    obtain ⟨test, m, gap, k, ht, hk, h⟩ := h
    refine ⟨test, m, ht, gap, k, hk, ?_⟩
    rcases h with ⟨hne, rfl, rfl⟩ | ⟨k₁, gap₁, k₂, c, k₃, gap₂, k₄, k₅, gap₃, k₆, a, h₁, h₂, hc, h₄,
      h₅, h₆, ha, rfl⟩
    · exact .inr ⟨hne, rfl, rfl⟩
    · exact .inl ⟨k₁, h₁, gap₁, k₂, h₂, c, k₃, hc, gap₂, k₄, h₄, k₅, h₅, gap₃, k₆, h₆, a, l, ha,
        rfl, rfl⟩

end LocaleText.Reader
