import LocaleText.Proofs.Grammar.Basic

/-!
# The fronts of texts

How the texts of the grammar begin, and where an operation stops. From the first characters of a
text it is seen which production it belongs to, and from the first character behind a text that it
ends.

* `Starts` says how every expression begins: with a character that no operator begins with, apart
  from the signs and from `!`, behind which no `=` comes
* `Stops rank` says that what is left does not go on with an operation of a rank
* `SpellsOperation.starts` and its companions: expressions and lists of them begin so
* `Parted` says what stands between the parts of a list as seen by a reader, and
  `SpellsItems.parted_iff` and `SpellsMembers.parted_iff` that the grammar means the same
* `SpellsExpr.span` and its companions: the span of a tree is the extent of its text
-/

namespace LocaleText

/-! ### Operators -/

namespace BinaryOp

def heads : List Char := ['|', '&', '=', '!', '<', '>', '+', '-', '*', '/', '%']

/-- The rank of the infix operators that begin with a character. -/
def rankOfHead : Char → Nat
  | '|' => 1
  | '&' => 2
  | '=' => 3
  | '!' => 3
  | '<' => 4
  | '>' => 4
  | '+' => 5
  | '-' => 5
  | _ => 6

/-- An infix operator is told, up to its level, by its first character. -/
theorem token_head (op : BinaryOp) :
    ∃ c cs, op.token = c :: cs ∧ c ∈ heads ∧ op.rank = rankOfHead c := by
  cases op <;> exact ⟨_, _, rfl, by decide, by decide⟩

theorem rank_pos (op : BinaryOp) : 1 ≤ op.rank := by
  cases op <;> decide

theorem rank_le (op : BinaryOp) : op.rank ≤ 6 := by
  cases op <;> decide

/-- Operators of which one comes next in the place of the other have the same rank. -/
theorem rank_eq_of_prefix {op op' : BinaryOp} {rest : List Char} (h : op.token <+: rest)
    (h' : op'.token <+: rest) : op.rank = op'.rank := by
  obtain ⟨c, cs, ht, _, hr⟩ := op.token_head
  obtain ⟨d, ds, ht', _, hr'⟩ := op'.token_head
  obtain ⟨s, hs⟩ := h
  obtain ⟨s', hs'⟩ := h'
  rw [ht] at hs
  rw [ht', ← hs, List.cons_append, List.cons_append, List.cons.injEq] at hs'
  rw [hr, hr', hs'.1]

end BinaryOp

/-- An infix operator ends the token before it. -/
theorem Ending.continues_of_mem_heads {c : Char} (h : c ∈ BinaryOp.heads) (ending : Ending) :
    ending.continues c = false := by
  have hall : ∀ d ∈ BinaryOp.heads,
      isWordChar d = false ∧ isQuote d = false ∧ d ≠ '[' ∧ d ≠ '(' := forall_mem_of_all (by decide)
  obtain ⟨hw, hq, hb, hp⟩ := hall c h
  exact continues_eq_false hw hq hb hp ending

/-! ### Where an operation stops -/

/-- What is left does not go on with an operation of a rank. -/
structure Stops (rank : Nat) (rest : List Char) : Prop where
  operator : ∀ op : BinaryOp, rank ≤ op.rank → ¬ op.token <+: rest
  question : rank = 0 → rest.head? ≠ some '?'

namespace Stops

variable {rank : Nat} {rest : List Char}

theorem nil (rank : Nat) : Stops rank [] := by
  refine ⟨fun op _ h => ?_, fun _ => by simp⟩
  obtain ⟨c, cs, ht, _⟩ := op.token_head
  rw [ht] at h
  exact absurd (List.prefix_nil.mp h) (by simp)

/-- A character that no operator begins with stops every operation. -/
theorem cons {c : Char} (hc : c ∉ BinaryOp.heads) (hq : c ≠ '?') : Stops rank (c :: rest) := by
  refine ⟨fun op _ h => ?_, fun _ => by simpa using hq⟩
  obtain ⟨d, ds, ht, hd, _⟩ := op.token_head
  rw [ht, List.cons_prefix_cons] at h
  exact hc (h.1 ▸ hd)

/-- What stops an operation stops one of a tighter rank. -/
theorem mono {rank' : Nat} (h : Stops rank rest) (hle : rank ≤ rank') (hpos : 0 < rank') :
    Stops rank' rest :=
  ⟨fun op hop => h.operator op (Nat.le_trans hle hop), fun h0 => absurd h0 (by omega)⟩

/-- An operator of a rank stops the operations of tighter ranks. -/
theorem of_operator {op : BinaryOp} (hop : op.token <+: rest) (h : op.rank < rank) :
    Stops rank rest := by
  refine ⟨fun op' hle h' => ?_, fun h0 => absurd h0 (by omega)⟩
  have := BinaryOp.rank_eq_of_prefix hop h'
  omega

/-- A question mark stops all operations but choices. -/
theorem of_question (hr : 0 < rank) : Stops rank ('?' :: rest) := by
  refine ⟨fun op _ h => ?_, fun h0 => absurd h0 (by omega)⟩
  obtain ⟨d, ds, ht, hd, _⟩ := op.token_head
  rw [ht, List.cons_prefix_cons] at h
  rw [h.1] at hd
  exact absurd hd (by decide)

end Stops

/-! ### How an expression begins -/

/-- A text begins as an expression does. -/
def Starts (text : List Char) : Prop :=
  ∃ c cs, text = c :: cs ∧ isOperandStart c = true ∧
    (c = '!' → ∃ d ds, cs = d :: ds ∧ d ≠ '=')

namespace Starts

variable {text : List Char}

theorem ne_nil (h : Starts text) : text ≠ [] := by
  obtain ⟨c, cs, rfl, _⟩ := h
  simp

theorem append (h : Starts text) (rest : List Char) : Starts (text ++ rest) := by
  obtain ⟨c, cs, rfl, hc, hn⟩ := h
  refine ⟨c, cs ++ rest, rfl, hc, fun he => ?_⟩
  obtain ⟨d, ds, rfl, hd⟩ := hn he
  exact ⟨d, ds ++ rest, rfl, hd⟩

/-- A character that can begin an operand, other than `!`. -/
theorem cons {c : Char} {cs : List Char} (hc : isOperandStart c = true) (hn : c ≠ '!') :
    Starts (c :: cs) :=
  ⟨c, cs, rfl, hc, fun he => absurd he hn⟩

/-- An expression does not begin with a blank. -/
theorem nextNot_isBlank (h : Starts text) : NextNot isBlank text := by
  obtain ⟨c, cs, rfl, hc, _⟩ := h
  rw [nextNot_cons, Bool.eq_false_iff]
  intro hb
  exact ne_of_class hc (isOperandStart_of_isBlank hb) rfl

theorem head?_ne {c : Char} (h : Starts text) (hc : isOperandStart c = false) :
    text.head? ≠ some c := by
  obtain ⟨d, cs, rfl, hd, _⟩ := h
  intro he
  exact ne_of_class hd hc (Option.some.inj he)

theorem head? (h : Starts text) : ∃ c, text.head? = some c ∧ isOperandStart c = true := by
  obtain ⟨c, cs, rfl, hc, _⟩ := h
  exact ⟨c, rfl, hc⟩

/-- Neither does a character that begins no expression come next behind a gap. -/
theorem head?_gap_ne {c : Char} {gap : List Char} (h : Starts text) (hg : Blanks gap)
    (hc : isOperandStart c = false) (hb : isBlank c = false) : (gap ++ text).head? ≠ some c := by
  cases gap with
  | nil => exact h.head?_ne hc
  | cons b bs =>
    intro he
    exact ne_of_class (hg b (List.mem_cons_self ..)) hb (Option.some.inj he)

/-- An expression that begins with no sign stops every operation before it. -/
theorem stops {rank : Nat} (h : Starts text) (hs : NextNot isSign text) : Stops rank text := by
  refine ⟨fun op _ hop => ?_, fun _ => h.head?_ne (by decide)⟩
  obtain ⟨c, cs, rfl, hc, hn⟩ := h
  rw [nextNot_cons] at hs
  have hp : ∀ d ∈ BinaryOp.heads, isOperandStart d = true → isSign d = false → d = '!' :=
    forall_mem_of_all (by decide)
  obtain ⟨d, ds, ht, hd, _⟩ := op.token_head
  rw [ht, List.cons_prefix_cons] at hop
  obtain ⟨rfl, hop⟩ := hop
  have hbang := hp d hd hc hs
  obtain ⟨e, es, rfl, he⟩ := hn hbang
  -- the only operator that begins with `!` goes on with `=`
  have ht' : op.token = ['!', '='] := by
    cases op <;> simp [BinaryOp.token, hbang] at ht ⊢
  rw [ht', List.cons.injEq] at ht
  rw [← ht.2, List.cons_prefix_cons] at hop
  exact he hop.1.symm

end Starts

section Texts

variable {rank o : Nat} {n : Nesting} {text : List Char} {e : Expr} {ending : Ending}

theorem IsName.exists_cons {name : List Char} (h : IsName name) :
    ∃ c cs, name = c :: cs ∧ isWordChar c = true := by
  obtain ⟨hne, hw⟩ := h
  cases name with
  | nil => exact absurd rfl hne
  | cons c cs => exact ⟨c, cs, rfl, hw c (List.mem_cons_self ..)⟩

theorem NameText.exists_cons {name : String} (h : NameText text name ending) :
    ∃ c cs, text = c :: cs ∧ (isWordChar c = true ∨ isQuote c = true) := by
  cases h with
  | bare hn =>
    obtain ⟨c, cs, rfl, hc⟩ := hn.exists_cons
    exact ⟨c, cs, rfl, .inl hc⟩
  | opened _ hq => exact ⟨_, _, rfl, .inr hq⟩
  | quoted _ hq => exact ⟨_, _, rfl, .inr hq⟩

/-- A value begins with what opens it. -/
theorem SpellsValue.exists_cons {v : Value} (h : SpellsValue n o text v) :
    ∃ c cs, text = c :: cs ∧ (isQuote c = true ∨ c = '[' ∨ c = '\x7b') := by
  cases h with
  | string _ hq _ ht => exact ⟨_, _, ht, .inl hq⟩
  | array _ _ _ ht => exact ⟨_, _, ht, .inr (.inl rfl)⟩
  | object _ _ _ _ ht => exact ⟨_, _, ht, .inr (.inr rfl)⟩

theorem IsInteger.exists_cons {digits : List Char} (h : IsInteger digits) :
    ∃ c cs, digits = c :: cs ∧ c.isDigit = true := by
  obtain ⟨hne, hd, _⟩ := h
  cases digits with
  | nil => exact absurd rfl hne
  | cons c cs => exact ⟨c, cs, rfl, hd c (List.mem_cons_self ..)⟩

/-- No sign is a word character or a quote. -/
theorem ofChar?_eq_none {c : Char} (h : isWordChar c = true ∨ isQuote c = true) :
    UnaryOp.ofChar? c = none := by
  cases hop : UnaryOp.ofChar? c with
  | none => rfl
  | some op =>
    have hall : isWordChar op.token = false ∧ isQuote op.token = false := by
      cases op <;> decide
    rw [UnaryOp.eq_token_of_ofChar? hop, hall.1, hall.2] at h
    exact absurd h (by decide)

/-- An operand begins with a character of its own, which is no sign. -/
theorem SpellsOperand.exists_cons (h : SpellsOperand n o text e ending) :
    ∃ c cs, text = c :: cs ∧ isOperandStart c = true ∧ UnaryOp.ofChar? c = none := by
  have hword : ∀ c, isWordChar c = true → isOperandStart c = true := by
    intro c hc
    simp [isOperandStart, hc]
  cases h with
  | integer hd =>
    obtain ⟨c, cs, rfl, hc⟩ := hd.exists_cons
    have hw := isWordChar_of_isDigit hc
    exact ⟨c, cs, rfl, hword c hw, ofChar?_eq_none (.inl hw)⟩
  | ident hn _ =>
    obtain ⟨c, cs, rfl, hc⟩ := hn.exists_cons
    exact ⟨c, cs, rfl, hword c hc, ofChar?_eq_none (.inl hc)⟩
  | @reference _ _ scope _ _ _ _ _ ht =>
    have hall : isOperandStart scope.sigil = true ∧ UnaryOp.ofChar? scope.sigil = none := by
      cases scope <;> decide
    exact ⟨_, _, ht, hall⟩
  | this => exact ⟨_, _, rfl, by decide, by decide⟩
  | value hv =>
    obtain ⟨c, cs, rfl, hq | rfl | rfl⟩ := hv.exists_cons
    · exact ⟨c, cs, rfl, by simp [isOperandStart, hq], ofChar?_eq_none (.inr hq)⟩
    · exact ⟨_, cs, rfl, by decide, by decide⟩
    · exact ⟨_, cs, rfl, by decide, by decide⟩
  | parenthesis _ _ _ ht => exact ⟨_, _, ht, by decide, by decide⟩
  | call hn _ _ _ ht =>
    obtain ⟨c, cs, rfl, hc⟩ := hn.exists_cons
    exact ⟨c, _, ht, hword c hc, ofChar?_eq_none (.inl hc)⟩
  | select hn _ _ _ _ ht =>
    obtain ⟨c, cs, rfl, hc⟩ := hn.exists_cons
    exact ⟨c, _, ht, hword c hc, ofChar?_eq_none (.inl hc)⟩

/-- By recursion on the operation, to its leftmost operand. -/
theorem SpellsOperation.starts :
    ∀ {rank o n text e ending}, SpellsOperation rank n o text e ending → Starts text
  | _, _, _, _, _, _, .operand h => by
    obtain ⟨c, cs, rfl, hc, hu⟩ := h.exists_cons
    refine .cons hc ?_
    intro he
    rw [he] at hu
    exact absurd hu (by decide)
  | _, _, _, _, _, _, .looser h => h.starts
  | _, _, _, _, _, _, @SpellsOperation.unary _ _ op gap _ _ _ _ _ hg harg ht => by
    refine ⟨op.token, gap ++ _, by rw [ht, List.append_assoc]; rfl, by cases op <;> decide, ?_⟩
    intro _
    obtain ⟨d, ds, rfl, hd, hn⟩ := harg.starts
    cases gap with
    | nil => exact ⟨d, ds, rfl, ne_of_class hd (by decide)⟩
    | cons b bs =>
      exact ⟨b, bs ++ d :: ds, rfl, ne_of_class (hg b (List.mem_cons_self ..)) (by decide)⟩
  | _, _, _, _, _, _, .binary _ hl _ _ _ ht => by
    rw [ht]
    simpa using hl.starts.append _
  | _, _, _, _, _, _, .choice h _ _ _ _ _ _ ht => by
    rw [ht]
    simpa using h.starts.append _

theorem SpellsExpr.starts : SpellsExpr n o text e ending → Starts text
  | .mk _ h => h.starts

theorem SpellsItems.starts {es : List Expr} (h : SpellsItems n o text es) (hne : text ≠ []) :
    Starts text := by
  cases h with
  | nil => exact absurd rfl hne
  | cons he _ _ _ ht =>
    rw [ht]
    simpa using he.starts.append _

theorem SpellsSequence.starts {es : List Expr} (h : SpellsSequence n o text es) : Starts text := by
  cases h with
  | last he _ ht =>
    rw [ht]
    exact he.starts.append _
  | cons he _ _ _ ht =>
    rw [ht]
    simpa using he.starts.append _

theorem KeyText.exists_cons {key : List Char} {name : String} (h : KeyText key name) :
    ∃ c cs, key = c :: cs ∧ (isWordChar c = true ∨ isQuote c = true) := by
  obtain ⟨hn, _, _⟩ := h
  obtain ⟨c, cs, rfl, hc⟩ := hn.exists_cons
  exact ⟨c, _, rfl, hc⟩

/-- The first member begins with its mark or with its key. -/
theorem SpellsMembers.exists_cons {ms : List Member} (h : SpellsMembers n o text ms) (hne : text ≠ []) :
    ∃ c cs, text = c :: cs ∧ (c = '*' ∨ isWordChar c = true ∨ isQuote c = true) := by
  cases h with
  | nil => exact absurd rfl hne
  | @cons _ _ m _ _ _ _ _ _ _ _ hkey _ _ _ _ ht =>
    obtain ⟨c, cs, rfl, hc⟩ := hkey.exists_cons
    cases hm : m.marked with
    | true => exact ⟨'*', _, by rw [ht, Member.mark, hm]; rfl, .inl rfl⟩
    | false => exact ⟨c, _, by rw [ht, Member.mark, hm]; rfl, .inr hc⟩

/-! ### Separators -/

/-- What stands between the gap behind a part of a list and what is left: a comma with blanks, or
nothing if what is left is told apart from the part. -/
inductive Parted (ending : Ending) (gap rest : List Char) : List Char → Prop
  | comma {blanks : List Char} : Blanks blanks → Parted ending gap rest ([','] ++ blanks)
  | omitted : ending.Clear gap rest → Stops 0 rest → rest.head? ≠ some ',' →
      Parted ending gap rest []

/-- A sign would be read as an operator. -/
theorem nextNot_isSign_of_stops {rest : List Char} (h : Stops 0 rest) : NextNot isSign rest := by
  intro c hc
  rw [Bool.eq_false_iff]
  intro hs
  have hop : ∃ op : BinaryOp, op.token = [c] := by
    have hm : c = '+' ∨ c = '-' ∨ c = '*' := by simpa [isSign] using hs
    rcases hm with rfl | rfl | rfl
    · exact ⟨.add, rfl⟩
    · exact ⟨.sub, rfl⟩
    · exact ⟨.mul, rfl⟩
  obtain ⟨op, hop⟩ := hop
  refine h.operator op (Nat.zero_le _) ?_
  rw [hop]
  exact List.singleton_prefix_iff_head?_eq_some.mpr hc

/-- What is left begins with the next part or, if there is none, with the closer of the list. -/
theorem parted_iff {ending : Ending} {gap next separator rest : List Char}
    (hc : c = ']' ∨ c = '\x7d')
    (hnext : next ≠ [] → NextNot isSign next → Stops 0 (next ++ c :: rest))
    (hne : next.head? ≠ some ',') :
    Parted ending gap (next ++ c :: rest) separator ↔ Separator ending gap next separator := by
  constructor
  · intro h
    cases h with
    | comma hb => exact .comma hb
    | omitted hclear hstops _ =>
      exact .omitted ⟨fun hg => nextNot_of_append (hclear hg),
        nextNot_of_append (nextNot_isSign_of_stops hstops)⟩
  · intro h
    cases h with
    | comma hb => exact .comma hb
    | omitted hapart =>
      cases next with
      | nil =>
        have hd : c ∈ delimiters ∧ c ∉ BinaryOp.heads ∧ c ≠ '?' ∧ c ≠ ',' := by
          rcases hc with rfl | rfl <;> decide
        refine .omitted (fun _ => ?_) (.cons hd.2.1 hd.2.2.1) (by simpa using hd.2.2.2)
        exact nextNot_cons.mpr (ending.continues_of_mem_delimiters hd.1)
      | cons d ds => exact .omitted hapart.clear (hnext (by simp) hapart.sign) hne

theorem SpellsItems.parted_iff {gap next separator rest : List Char} {es : List Expr}
    (h : SpellsItems n o next es) :
    Parted ending gap (next ++ ']' :: rest) separator ↔ Separator ending gap next separator := by
  refine LocaleText.parted_iff (.inl rfl) (fun hne hsign => ?_) ?_
  · have hstarts := h.starts hne
    refine (hstarts.append _).stops ?_
    obtain ⟨c, cs, rfl, _⟩ := hstarts
    exact hsign
  · by_cases hne : next = []
    · simp [hne]
    · exact (h.starts hne).head?_ne (by decide)

theorem SpellsItems.nextNot_isBlank {next rest : List Char} {es : List Expr}
    (h : SpellsItems n o next es) : NextNot isBlank (next ++ ']' :: rest) := by
  by_cases hne : next = []
  · rw [hne]
    exact nextNot_cons.mpr (by decide)
  · exact ((h.starts hne).append _).nextNot_isBlank

/-- No character that begins a key is a blank, an operator or a comma. -/
theorem key_head {c : Char} (h : isWordChar c = true ∨ isQuote c = true) :
    isBlank c = false ∧ c ∉ BinaryOp.heads ∧ c ≠ '?' ∧ c ≠ ',' ∧ c ≠ '\x7d' ∧ c ≠ '*' := by
  have hall : ∀ d ∈ ['?', ',', '\x7d', '*'] ++ BinaryOp.heads,
      isWordChar d = false ∧ isQuote d = false := forall_mem_of_all (by decide)
  have hnot : c ∉ ['?', ',', '\x7d', '*'] ++ BinaryOp.heads := by
    intro hc
    rw [(hall c hc).1, (hall c hc).2] at h
    exact absurd h (by decide)
  have hblank : isBlank c = false := by
    rw [Bool.eq_false_iff]
    intro hb
    rw [isWordChar_of_isBlank hb, isQuote_of_isBlank hb] at h
    exact absurd h (by decide)
  simp only [List.mem_append, List.mem_cons, List.not_mem_nil, or_false, not_or] at hnot
  exact ⟨hblank, hnot.2, hnot.1⟩

/-- What stands in front of another member, or of the closing brace. -/
theorem SpellsMembers.parted_iff {gap next separator rest : List Char} {ms : List Member}
    (h : SpellsMembers n o next ms) :
    Parted ending gap (next ++ '\x7d' :: rest) separator ↔ Separator ending gap next separator := by
  refine LocaleText.parted_iff (.inr rfl) (fun hne hsign => ?_) ?_
  · obtain ⟨c, cs, rfl, hc⟩ := h.exists_cons hne
    rcases hc with rfl | hc
    · exact absurd (nextNot_cons.mp hsign) (by decide)
    · obtain ⟨_, hops, hq, _⟩ := key_head hc
      exact .cons hops hq
  · by_cases hne : next = []
    · simp [hne]
    · obtain ⟨c, cs, rfl, hc⟩ := h.exists_cons hne
      rcases hc with rfl | hc
      · simp
      · obtain ⟨_, _, _, hcomma, _⟩ := key_head hc
        simpa using hcomma

theorem SpellsMembers.nextNot_isBlank {next rest : List Char} {ms : List Member}
    (h : SpellsMembers n o next ms) : NextNot isBlank (next ++ '\x7d' :: rest) := by
  by_cases hne : next = []
  · rw [hne]
    exact nextNot_cons.mpr (by decide)
  · obtain ⟨c, cs, rfl, hc⟩ := h.exists_cons hne
    rcases hc with rfl | hc
    · exact nextNot_cons.mpr (by decide)
    · exact nextNot_cons.mpr (key_head hc).1

/-! ### Spans -/

theorem extent_cover {o : Nat} (s mid t : List Char) :
    (extent o s).cover (extent (o + byteLength (s ++ mid)) t) = extent o (s ++ mid ++ t) := by
  simp [extent, Span.cover, Nat.add_assoc]

theorem SpellsValue.span {v : Value} (h : SpellsValue n o text v) : v.span = extent o text := by
  cases h with
  | string => rfl
  | array => rfl
  | object => rfl

theorem SpellsOperand.span (h : SpellsOperand n o text e ending) : e.span = extent o text := by
  cases h with
  | value hv => exact hv.span
  | _ => rfl

theorem SpellsOperation.span :
    ∀ {rank o n text e ending}, SpellsOperation rank n o text e ending → e.span = extent o text
  | _, _, _, _, _, _, .operand h => h.span
  | _, _, _, _, _, _, .looser h => h.span
  | _, _, _, _, _, _, .unary .. => rfl
  | _, _, _, _, _, _, .binary .. => rfl
  | _, _, _, _, _, _, .choice .. => rfl

/-- By recursion on the tree: operators cover what stands between the ends of their operands. -/
theorem SpellsExpr.span : SpellsExpr n o text e ending → e.span = extent o text
  | .mk _ h => h.span

/-- The rank of signs is 7, and that of operands 8. -/
theorem SpellsOperation.rank_le :
    ∀ {rank o n text e ending}, SpellsOperation rank n o text e ending → rank ≤ 8
  | _, _, _, _, _, _, .operand _ => Nat.le_refl 8
  | _, _, _, _, _, _, .looser h => Nat.le_of_succ_le h.rank_le
  | _, _, _, _, _, _, .unary .. => by decide
  | _, _, _, _, _, _, .binary hr .. => by
    rw [← hr]
    exact Nat.le_trans (BinaryOp.rank_le _) (by decide)
  | _, _, _, _, _, _, .choice .. => by decide

/-- Beyond the signs there are operands only. -/
theorem SpellsOperation.operand_of_eight (h : SpellsOperation 8 n o text e ending) :
    SpellsOperand n o text e ending := by
  cases h with
  | operand h => exact h
  | looser h => exact absurd h.rank_le (by decide)
  | @binary _ _ _ op _ _ _ _ _ _ _ _ _ hr =>
    have := op.rank_le
    omega

end Texts

end LocaleText
