import LocaleText.Proofs.Reading.Step

/-!
# Tokens of the grammar

The parts of a text that have no parts of their own, apart from how they are read. A token ends
where a character follows that cannot be read as part of it, and blanks end every token.

* `NameText` are the three ways in which a name is written
* `StringContent` says what may stand between the quotes of a string
* `Ending` says how the last token of a text could go on, and `Ending.Clear` that it does not
* `isOperandStart` are the characters that an expression can begin with
* `isWordChar_of_isBlank` and its companions tell the classes of characters apart
-/

namespace LocaleText

/-! ### Names, strings and integers -/

def IsName (name : List Char) : Prop := name ≠ [] ∧ ∀ c ∈ name, isWordChar c = true

instance (name : List Char) : Decidable (IsName name) :=
  decidable_of_iff (name ≠ [] ∧ name.all isWordChar = true) (and_congr Iff.rfl List.all_eq_true)

def IsInteger (digits : List Char) : Prop :=
  digits ≠ [] ∧ (∀ c ∈ digits, c.isDigit = true) ∧ decimalValue digits < integerBound

/-- The number of backslashes at the end of a text, once one more character stands there. -/
def backslashesBehind (count : Nat) (c : Char) : Nat := if c = '\\' then count + 1 else 0

/-- The number of backslashes at the end of a text that comes behind `count` backslashes. -/
def backslashes (count : Nat) (text : List Char) : Nat := text.foldl backslashesBehind count

/-- What may stand between two quotes of a kind when it comes behind `count` backslashes: such a
quote only behind an odd number of backslashes, and no odd number of them at the end. -/
structure StringContent (quote : Char) (count : Nat) (content : List Char) : Prop where
  escaped : ∀ before behind, content = before ++ quote :: behind →
    backslashes count before % 2 = 1
  closed : backslashes count content % 2 = 0

/-- What could be read as part of the last token of a text, if it followed at once. -/
inductive Ending
  /-- Nothing: the token has a character that closes it. -/
  | closed
  | digits
  | word
  /-- A name behind a quote, which has not been closed by the same quote. -/
  | opened (quote : Char)
  /-- A name as an operand, to which brackets may be attached. -/
  | operand

namespace Ending

/-- Whether a character would be read as part of the last token. -/
def continues : Ending → Char → Bool
  | closed, _ => false
  | digits, c => c.isDigit
  | word, c => isWordChar c
  | opened quote, c => isWordChar c || (isQuote c && c == quote)
  | operand, c => isWordChar c || c == '[' || c == '('

/-- What follows the last token, with a gap between them, is not part of it. -/
def Clear (ending : Ending) (gap rest : List Char) : Prop :=
  gap = [] → NextNot ending.continues rest

end Ending

/-- A text that writes a name: bare, behind a quote, or between two quotes of a kind. -/
inductive NameText : List Char → String → Ending → Prop
  | bare {name : List Char} : IsName name → NameText name (String.ofList name) .word
  | opened {name : List Char} {quote : Char} : IsName name → isQuote quote = true →
      NameText (quote :: name) (String.ofList name) (.opened quote)
  | quoted {name : List Char} {quote : Char} : IsName name → isQuote quote = true →
      NameText (quote :: (name ++ [quote])) (String.ofList name) .closed

/-! ### Classes of characters -/

/-- The characters that an expression can begin with. -/
def isOperandStart (c : Char) : Bool :=
  isWordChar c || isQuote c || ['(', '[', '\x7b', '$', '@', '~', '!', '+', '-'].contains c

/-- The characters that stand behind an expression without being an operator. -/
def delimiters : List Char := [')', ']', '\x7d', ',', ':', '?']

theorem isQuote_iff {c : Char} : isQuote c = true ↔ c = '"' ∨ c = '\'' := by
  simp [isQuote]

theorem isWordChar_of_isDigit {c : Char} (h : c.isDigit = true) : isWordChar c = true := by
  apply isWordChar_of_isAlphanum
  · simp only [Char.isDigit, Bool.and_eq_true, decide_eq_true_eq, UInt32.le_iff_toNat_le] at h
    have h57 : c.val.toNat ≤ 57 := h.2
    show c.val.toNat < 0x80
    omega
  · simp [Char.isAlphanum, h]

/-- The tables of blanks and of letters and digits have no code point in common. -/
theorem blankRanges_disjoint : ∀ b ∈ blankRanges, ∀ a ∈ alphanumericRanges,
    b.2 < a.1 ∨ a.2 < b.1 := by
  decide +kernel

/-- The blanks among the first 128 code points come before the digits and the letters. -/
theorem isAlphanum_of_toNat_lt {c : Char} (h : c.toNat < 48) : c.isAlphanum = false := by
  have hv : c.val.toNat < 48 := h
  show (decide (c.val ≥ 'A'.val ∧ c.val ≤ 'Z'.val) ||
    (decide (c.val ≥ 'a'.val) && decide (c.val ≤ 'z'.val)) ||
    decide (c.val ≥ '0'.val) && decide (c.val ≤ '9'.val)) = false
  simp only [Bool.or_eq_false_iff, Bool.and_eq_false_imp, decide_eq_true_eq,
    decide_eq_false_iff_not, not_and, UInt32.le_iff_toNat_le, ge_iff_le]
  have h0 : '0'.val.toNat = 48 := rfl
  have hA : 'A'.val.toNat = 65 := rfl
  have ha : 'a'.val.toNat = 97 := rfl
  omega

theorem isWordChar_of_isBlank {c : Char} (h : isBlank c = true) : isWordChar c = false := by
  have hb : ∃ b ∈ blankRanges, b.1 ≤ c.toNat ∧ c.toNat ≤ b.2 := by
    simpa [isBlank, List.any_eq_true] using h
  have hu : c ≠ '_' := ne_of_class h (by decide)
  obtain ⟨b, hm, h1, h2⟩ := hb
  have ha : isAlphanumeric c = false := by
    rw [isAlphanumeric]
    split
    · apply isAlphanum_of_toNat_lt
      have hcases : ∀ b ∈ blankRanges, b.2 < 48 ∨ 0x80 ≤ b.1 := by decide
      have := hcases b hm
      omega
    · rw [List.any_eq_false]
      intro a hma
      have := blankRanges_disjoint b hm a hma
      simp only [Bool.and_eq_true, decide_eq_true_eq, not_and]
      omega
  simp [isWordChar, ha, hu]

theorem isQuote_of_isBlank {c : Char} (h : isBlank c = true) : isQuote c = false := by
  rw [Bool.eq_false_iff]
  intro hq
  rcases isQuote_iff.mp hq with rfl | rfl
  · exact absurd h (by decide)
  · exact absurd h (by decide)

theorem isWordChar_of_isQuote {c : Char} (h : isQuote c = true) : isWordChar c = false := by
  rcases isQuote_iff.mp h with rfl | rfl
  · decide
  · decide

theorem isQuote_of_isWordChar {c : Char} (h : isWordChar c = true) : isQuote c = false := by
  rw [Bool.eq_false_iff]
  intro hq
  rw [isWordChar_of_isQuote hq] at h
  exact absurd h (by decide)

theorem isOperandStart_of_isBlank {c : Char} (h : isBlank c = true) :
    isOperandStart c = false := by
  have hs : ['(', '[', '\x7b', '$', '@', '~', '!', '+', '-'].contains c = false := by
    rw [Bool.eq_false_iff]
    intro hc
    have hall : ∀ d ∈ ['(', '[', '\x7b', '$', '@', '~', '!', '+', '-'], isBlank d = false :=
      forall_mem_of_all (by decide)
    exact ne_of_class h (hall c (List.contains_iff_mem.mp hc)) rfl
  rw [isOperandStart, isWordChar_of_isBlank h, isQuote_of_isBlank h, hs]
  rfl

theorem UnaryOp.eq_token_of_ofChar? {c : Char} {op : UnaryOp} (h : ofChar? c = some op) :
    c = op.token := by
  unfold ofChar? at h
  split at h
  · cases h
    rfl
  · cases h
    rfl
  · cases h
    rfl
  · exact absurd h (by simp)

/-! ### What follows a token -/

namespace Ending

/-- A character that is no part of any token that could go on. -/
theorem continues_eq_false {c : Char} (hw : isWordChar c = false) (hq : isQuote c = false)
    (hb : c ≠ '[') (hp : c ≠ '(') (ending : Ending) : ending.continues c = false := by
  cases ending with
  | closed => rfl
  | digits =>
    rw [continues, Bool.eq_false_iff]
    intro hd
    rw [isWordChar_of_isDigit hd] at hw
    exact absurd hw (by decide)
  | word => exact hw
  | opened quote => simp [continues, hw, hq]
  | operand => simp [continues, hw, hb, hp]

/-- A blank ends every token. -/
theorem continues_of_isBlank {c : Char} (h : isBlank c = true) (ending : Ending) :
    ending.continues c = false :=
  continues_eq_false (isWordChar_of_isBlank h) (isQuote_of_isBlank h) (ne_of_class h (by decide))
    (ne_of_class h (by decide)) ending

theorem continues_of_mem_delimiters {c : Char} (h : c ∈ delimiters) (ending : Ending) :
    ending.continues c = false := by
  have hall : ∀ d ∈ delimiters,
      isWordChar d = false ∧ isQuote d = false ∧ d ≠ '[' ∧ d ≠ '(' := forall_mem_of_all (by decide)
  obtain ⟨hw, hq, hb, hp⟩ := hall c h
  exact continues_eq_false hw hq hb hp ending

theorem nextNot_opened {quote : Char} (hq : isQuote quote = true) {rest : List Char} :
    NextNot (opened quote).continues rest ↔
      NextNot isWordChar rest ∧ rest.head? ≠ some quote := by
  cases rest with
  | nil => simp [nextNot_nil]
  | cons c cs =>
    simp only [nextNot_cons, continues, Bool.or_eq_false_iff, List.head?_cons, ne_eq,
      Option.some.injEq, Bool.and_eq_false_imp, beq_eq_false_iff_ne]
    constructor
    · intro h
      refine ⟨h.1, fun hc => ?_⟩
      exact h.2 (by rw [hc]; exact hq) hc
    · intro h
      exact ⟨h.1, fun _ => h.2⟩

/-- The text behind a token, from its gap on, does not go on with the token. -/
theorem Clear.nextNot {ending : Ending} {gap rest : List Char} (hg : Blanks gap)
    (h : ending.Clear gap rest) : NextNot ending.continues (gap ++ rest) := by
  cases gap with
  | nil => exact h rfl
  | cons c cs =>
    rw [List.cons_append, nextNot_cons]
    exact continues_of_isBlank (hg c (List.mem_cons_self ..)) ending

end Ending

end LocaleText
