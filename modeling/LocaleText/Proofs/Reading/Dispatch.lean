import LocaleText.Proofs.Grammar.Basic

/-!
# What the next character decides

Values and operands are handed on by their first character, and a name by the character behind it. The
readers make their tests one after another, so each class of characters has to be told from those that
are asked for before it. That is done here, with one equation for each class.

* `OperandStart` sorts the characters that an operand can begin with
* `Reader.primary_of_round` and those after it say what is run for each class
* `Reader.value_of_bracket` and those after it do so for values, where there is room for one
* `Reader.named_of_opener` and those after it do so for what is attached to a name
-/

namespace LocaleText

/-- The characters that an operand without a sign begins with, by what they lead to. -/
inductive OperandStart : Char → Prop
  | round : OperandStart '('
  | digit {c : Char} : c.isDigit = true → OperandStart c
  | value {c : Char} : isQuote c = true ∨ c = '[' ∨ c = '\x7b' → OperandStart c
  | word {c : Char} : isWordChar c = true → c.isDigit = false → OperandStart c
  | sigil (scope : Scope) : OperandStart scope.sigil
  | this : OperandStart '~'

/-- No value begins as a parenthesis or as a number does. -/
theorem valueStart_told {c : Char} (h : isQuote c = true ∨ c = '[' ∨ c = '\x7b') :
    c ≠ '(' ∧ c.isDigit = false := by
  rcases h with hq | rfl | rfl
  · rcases isQuote_iff.mp hq with rfl | rfl <;> decide
  · decide
  · decide

/-- No word begins as a parenthesis or as a value does. -/
theorem word_told {c : Char} (h : isWordChar c = true) :
    c ≠ '(' ∧ ¬ (isQuote c || c = '[' || c = '\x7b') = true := by
  have hne : ∀ {d : Char}, isWordChar d = false → c ≠ d := ne_of_class h
  refine ⟨hne (by decide), ?_⟩
  simp [isQuote_of_isWordChar h, hne (d := '[') (by decide), hne (d := '\x7b') (by decide)]

/-- Either no character of a class comes next or one does. -/
theorem head?_cases (p : Char → Prop) (text : List Char) :
    (∀ c ∈ text.head?, ¬ p c) ∨ ∃ c, text.head? = some c ∧ p c := by
  cases text with
  | nil => exact .inl (by simp)
  | cons c cs =>
    by_cases hc : p c
    · exact .inr ⟨c, rfl, hc⟩
    · exact .inl (by simpa using hc)

namespace Reader

variable {inner : Nesting → Reader Expr} {bound : Nat} {n : Nesting} {i l m : Input} {c : Char}

/-! ### Operands -/

/-- An opening parenthesis. -/
theorem primary_of_round (ht : i.Takes ['('] m) : primary inner bound n i =
    (do
      let e ← enclosed inner n ')'
      pure (.parenthesis e (← spanFrom i.offset)) : Reader Expr) m := by
  rw [primary, offset_bind, peek?_bind, ht.head]
  exact skip_bind ht _

/-- A digit begins an integer, though it is a word character as well. -/
theorem primary_of_isDigit (hc : i.rest.head? = some c) (hd : c.isDigit = true) :
    primary inner bound n i = integer i := by
  have hround : c ≠ '(' := ne_of_class hd (by decide)
  rw [primary, offset_bind, peek?_bind, hc]
  simp only [if_neg hround, if_pos hd]

theorem primary_of_valueStart (hc : i.rest.head? = some c)
    (hv : isQuote c = true ∨ c = '[' ∨ c = '\x7b') :
    primary inner bound n i = (value inner bound n >>= fun v => pure (.value v)) i := by
  obtain ⟨hround, hdigit⟩ := valueStart_told hv
  have htest : (isQuote c || c = '[' || c = '\x7b') = true := by simpa [or_assoc] using hv
  rw [primary, offset_bind, peek?_bind, hc]
  simp only [if_neg hround, hdigit, Bool.false_eq_true, if_false, if_pos htest]

/-- Any other word character begins a name. -/
theorem primary_of_word (hc : i.rest.head? = some c) (hw : isWordChar c = true)
    (hd : c.isDigit = false) : primary inner bound n i = named inner bound n i := by
  obtain ⟨hround, hvalue⟩ := word_told hw
  rw [primary, offset_bind, peek?_bind, hc]
  simp only [if_neg hround, hd, Bool.false_eq_true, if_false, if_neg hvalue, if_pos hw]

theorem primary_of_sigil {scope : Scope} (hc : i.rest.head? = some scope.sigil) :
    primary inner bound n i = reference scope i := by
  rw [primary, offset_bind, peek?_bind, hc]
  cases scope <;> rfl

theorem primary_of_tilde (ht : i.Takes ['~'] m) :
    primary inner bound n i = .ok (.this ⟨i.offset, m.offset⟩) m := by
  rw [primary, offset_bind, peek?_bind, ht.head]
  exact skip_bind ht _

/-- No other operand is read. -/
theorem primary_of_other (h : ∀ c ∈ i.rest.head?, ¬ OperandStart c) :
    primary inner bound n i = unexpected .malformedExpression i := by
  rw [primary, offset_bind, peek?_bind]
  cases hc : i.rest.head? with
  | none => rfl
  | some c =>
    have hc := h c hc
    have hround : c ≠ '(' := fun he => hc (he ▸ .round)
    have hdigit : ¬ c.isDigit = true := fun hd => hc (.digit hd)
    have hvalue : ¬ (isQuote c || c = '[' || c = '\x7b') = true :=
      fun hv => hc (.value (by simpa [or_assoc] using hv))
    have hword : ¬ isWordChar c = true := fun hw => hc (.word hw (by simpa using hdigit))
    have hsigil : ∀ scope, c ≠ Scope.sigil scope := fun scope he => hc (he ▸ .sigil scope)
    have hthis : c ≠ '~' := fun he => hc (he ▸ .this)
    simp only [if_neg hround, if_neg hdigit, if_neg hvalue, if_neg hword, if_neg (hsigil _),
      if_neg hthis]

/-- What is read as an operand began with one of the classes. -/
theorem operandStart_of_primary {e : Expr} (h : primary inner bound n i = .ok e l) :
    ∃ c, i.rest.head? = some c ∧ OperandStart c := by
  rcases head?_cases OperandStart i.rest with hother | hstart
  · exact absurd ((primary_of_other hother).symm.trans h) unexpected_ne_ok
  · exact hstart

/-! ### Values -/

section Values

variable (hn : n.HasRoom)
include hn

theorem value_of_bracket (hc : i.rest.head? = some '[') : value inner bound n i =
    (do
      let items ← expressions inner bound n.deeper .array
      pure (.array items (← spanFrom i.offset)) : Reader Value) i := by
  rw [value, nested, hn]
  show (offset >>= _) i = _
  rw [offset_bind, peek?_bind, hc]
  rfl

theorem value_of_brace (hc : i.rest.head? = some '\x7b') : value inner bound n i =
    (do
      let r ← members inner bound n.deeper
      pure (.object r.1 r.2 (← spanFrom i.offset)) : Reader Value) i := by
  rw [value, nested, hn]
  show (offset >>= _) i = _
  rw [offset_bind, peek?_bind, hc]
  rfl

theorem value_of_isQuote (hc : i.rest.head? = some c) (hq : isQuote c = true) :
    value inner bound n i = quoted c i := by
  have hbracket : c ≠ '[' := ne_of_class hq (by decide)
  have hbrace : c ≠ '\x7b' := ne_of_class hq (by decide)
  rw [value, nested, hn]
  show (offset >>= _) i = _
  rw [offset_bind, peek?_bind, hc]
  simp only [if_pos hq]

/-- Nothing else begins a value. -/
theorem value_of_other
    (h : ∀ c ∈ i.rest.head?, ¬ (isQuote c = true ∨ c = '[' ∨ c = '\x7b')) :
    value inner bound n i = unexpected .unexpectedValueStart i := by
  rw [value, nested, hn]
  show (offset >>= _) i = _
  rw [offset_bind, peek?_bind]
  cases hc : i.rest.head? with
  | none => rfl
  | some c =>
    obtain ⟨hq, hbracket, hbrace⟩ := not_or.mp (h c hc) |>.imp_right not_or.mp
    simp only [if_neg hq]

omit hn

theorem valueStart_of_value {v : Value} (h : value inner bound n i = .ok v l) :
    n.HasRoom ∧ ∃ c, i.rest.head? = some c ∧ (isQuote c = true ∨ c = '[' ∨ c = '\x7b') := by
  have hn : n.HasRoom := (nested_eq_ok.mp h).1
  refine ⟨hn, ?_⟩
  rcases head?_cases (fun c => isQuote c = true ∨ c = '[' ∨ c = '\x7b') i.rest with hother | hstart
  · exact absurd ((value_of_other hn hother).symm.trans h) unexpected_ne_ok
  · exact hstart

end Values

/-! ### Names -/

section Names

variable {id : Ident}

theorem ident_of_named {e : Expr} (h : named inner bound n i = .ok e l) :
    ∃ id m, ident i = .ok id m := by
  rw [named, offset_bind, bind_eq_ok] at h
  obtain ⟨id, m, hid, -⟩ := h
  exact ⟨id, m, hid⟩

variable (hid : ident i = .ok id m)
include hid

/-- A bracket behind a name, with a dot behind it or without one, opens a key. -/
theorem named_of_opener {selection : Selection} (hl : m.Takes selection.opener l)
    (hdot : selection = .member → l.rest.head? ≠ some '.') : named inner bound n i =
    (do
      let key ← enclosed inner n ']'
      pure (.select selection id key (← spanFrom i.offset)) : Reader Expr) l := by
  rw [named, offset_bind, bind_of_eq_ok hid, looksAt_bind]
  cases selection with
  | «attribute» =>
    have hopen : ['[', '.'].isPrefixOf m.rest = true := by
      rw [hl.rest]
      rfl
    rw [hopen]
    exact take_bind hl _
  | member =>
    have hclosed : ['[', '.'].isPrefixOf m.rest = false := by
      rw [hl.rest]
      exact isPrefixOf_pair_of_head?_ne (hdot rfl)
    have hopen : ['['].isPrefixOf m.rest = true := by
      rw [hl.rest]
      rfl
    simp only [hclosed, Bool.false_eq_true, if_false, looksAt_bind, hopen, if_true]
    exact skip_bind hl _

theorem named_of_parenthesis (hc : m.rest.head? = some '(') : named inner bound n i =
    (do
      let args ← arguments inner bound n
      pure (.call id args (← spanFrom i.offset)) : Reader Expr) m := by
  have hb : m.rest.head? ≠ some '[' := by
    rw [hc]
    decide
  simp only [named, offset_bind, bind_of_eq_ok hid, looksAt_bind, isPrefixOf_of_head?_ne hb,
    isPrefixOf_singleton, hc, beq_self_eq_true, Bool.false_eq_true, if_false, if_true]

/-- A name stands alone unless an opener follows at once. -/
theorem named_of_nothing (hb : m.rest.head? ≠ some '[') (hp : m.rest.head? ≠ some '(') :
    named inner bound n i = .ok (.ident id) m := by
  simp only [named, offset_bind, bind_of_eq_ok hid, looksAt_bind, isPrefixOf_of_head?_ne hb,
    isPrefixOf_of_head?_ne hp, Bool.false_eq_true, if_false]
  rfl

end Names

/-- What can be behind a name: the opener of a key, that of arguments, or neither. -/
theorem behind_name_cases (m : Input) :
    (∃ selection l, m.Takes (Selection.opener selection) l ∧
      (selection = .member → l.rest.head? ≠ some '.')) ∨
    m.rest.head? = some '(' ∨ (m.rest.head? ≠ some '[' ∧ m.rest.head? ≠ some '(') := by
  by_cases hb : m.rest.head? = some '['
  · obtain ⟨l, hl⟩ := Input.exists_takes_head hb
    by_cases hdot : l.rest.head? = some '.'
    · obtain ⟨k, hk⟩ := Input.exists_takes_head hdot
      exact .inl ⟨.attribute, k, hl.trans hk, fun hs => absurd hs (by decide)⟩
    · exact .inl ⟨.member, l, hl, fun _ => hdot⟩
  · by_cases hp : m.rest.head? = some '('
    · exact .inr (.inl hp)
    · exact .inr (.inr ⟨hb, hp⟩)

end Reader

end LocaleText
