import LocaleText.Json
import LocaleText.Proofs.Writing.Basic

/-!
# JSON texts are told apart

The text of a JSON document tells the whole document: fields in their order, strings with every
character, and where one document ends and the next begins.

* `Json.readEscape` takes back what `Json.escape` writes for one character
* `Json.form` and `Json.formOf`: the form of a document is told by the first character of its text
* `Json.quote_unique` cuts off a string, `Json.prettyChars_unique` a document, by recursion on the
  document together with `Json.prettyItems_unique` and `Json.prettyFields_unique`
* `Json.pretty_injective` is the result
-/

namespace LocaleText

namespace Json

/-! ### Strings -/

def hexValue (c : Char) : Nat := ("0123456789abcdef".toList).idxOf c

/-- Reads one character of a string with its escape. -/
def readEscape : List Char → Option (Char × List Char)
  | '\\' :: 'u' :: '0' :: '0' :: high :: low :: rest =>
    some (Char.ofNat (16 * hexValue high + hexValue low), rest)
  | '\\' :: 'b' :: rest => some ('\x08', rest)
  | '\\' :: 't' :: rest => some ('\t', rest)
  | '\\' :: 'n' :: rest => some ('\n', rest)
  | '\\' :: 'f' :: rest => some ('\x0c', rest)
  | '\\' :: 'r' :: rest => some ('\r', rest)
  | '\\' :: c :: rest => some (c, rest)
  | c :: rest => some (c, rest)
  | [] => none

theorem hexValue_hexDigit (n : Nat) (h : n < 32) :
    16 * hexValue (hexDigit (n / 16)) + hexValue (hexDigit n) = n := by
  have hall : ∀ n < 32, 16 * hexValue (hexDigit (n / 16)) + hexValue (hexDigit n) = n := by
    decide
  exact hall n h

/-- By cases on the character: it is escaped by a letter, by its code point, or not at all. -/
theorem readEscape_escape (c : Char) (rest : List Char) :
    readEscape (escape c ++ rest) = some (c, rest) := by
  by_cases hnamed : c ∈ ['"', '\\', '\x08', '\t', '\n', '\x0c', '\r']
  · simp only [List.mem_cons, List.not_mem_nil, or_false] at hnamed
    rcases hnamed with rfl | rfl | rfl | rfl | rfl | rfl | rfl <;> rfl
  · simp only [List.mem_cons, List.not_mem_nil, or_false, not_or] at hnamed
    obtain ⟨hquote, hslash, hb, ht, hn, hf, hr⟩ := hnamed
    by_cases hcontrol : c.toNat < 0x20
    · simp only [escape, hquote, hslash, hb, ht, hn, hf, hr, if_false, hcontrol, if_true,
        List.cons_append, List.nil_append, readEscape]
      rw [hexValue_hexDigit c.toNat hcontrol, Char.ofNat_toNat]
    · simp [escape, hquote, hslash, hb, ht, hn, hf, hr, hcontrol, readEscape]

variable {s s' : List Char}

theorem escape_unique {c c' : Char} (h : escape c ++ s = escape c' ++ s') : c = c' ∧ s = s' := by
  have hread := readEscape_escape c s
  rw [h, readEscape_escape] at hread
  simpa [eq_comm] using hread

/-- No character within a string is written as the quote that ends it. -/
theorem head?_escape_ne (c : Char) : (escape c ++ s).head? ≠ some '"' := by
  have hread := readEscape_escape c s
  intro hhead
  cases hs : escape c ++ s with
  | nil => simp [hs] at hhead
  | cons d rest =>
    obtain rfl : d = '"' := by simpa [hs] using hhead
    rw [hs] at hread
    obtain ⟨rfl, rfl⟩ : '"' = c ∧ rest = s := by simpa [readEscape] using hread
    simp [escape] at hs

/-- A string ends at the first quote that is not part of an escape. -/
theorem escapes_unique : ∀ text text' : List Char,
    text.flatMap escape ++ '"' :: s = text'.flatMap escape ++ '"' :: s' → text = text' ∧ s = s'
  | [], [], h => ⟨rfl, List.tail_eq_of_cons_eq h⟩
  | [], c :: text, h => by
    rw [List.flatMap_cons, List.append_assoc] at h
    exact absurd (congrArg List.head? h).symm (head?_escape_ne c)
  | c :: text, [], h => by
    rw [List.flatMap_cons, List.append_assoc] at h
    exact absurd (congrArg List.head? h) (head?_escape_ne c)
  | c :: text, c' :: text', h => by
    rw [List.flatMap_cons, List.flatMap_cons, List.append_assoc, List.append_assoc] at h
    obtain ⟨rfl, hrest⟩ := escape_unique h
    obtain ⟨rfl, hs⟩ := escapes_unique text text' hrest
    exact ⟨rfl, hs⟩

theorem quote_unique {text text' : String} (h : quote text ++ s = quote text' ++ s') :
    text = text' ∧ s = s' := by
  simp only [quote, List.cons_append, List.append_assoc, List.cons.injEq, true_and,
    List.nil_append] at h
  obtain ⟨htext, hs⟩ := escapes_unique _ _ h
  exact ⟨String.toList_injective htext, hs⟩

/-! ### Documents -/

/-- The forms of documents. -/
inductive Form
  | null
  | number
  | string
  | array
  | object

def form : Json → Form
  | null => .null
  | number _ => .number
  | string _ => .string
  | array _ => .array
  | object _ => .object

/-- The form of the documents whose texts begin with a character. -/
def formOf : Char → Form
  | 'n' => .null
  | '"' => .string
  | '[' => .array
  | '\x7b' => .object
  | _ => .number

theorem formOf_of_isDigit {c : Char} (h : c.isDigit = true) : formOf c = .number := by
  unfold formOf
  split
  · exact absurd h (by decide)
  · exact absurd h (by decide)
  · exact absurd h (by decide)
  · exact absurd h (by decide)
  · rfl

/-- The first character of a text tells the form of the document. -/
theorem exists_cons (j : Json) (depth : Nat) :
    ∃ c cs, j.prettyChars depth = c :: cs ∧ formOf c = j.form := by
  cases j with
  | null => exact ⟨_, _, rfl, rfl⟩
  | number n =>
    cases hn : Nat.toDigits 10 n with
    | nil => exact absurd hn Nat.toDigits_ne_nil
    | cons c cs =>
      have hc : c.isDigit = true :=
        Nat.isDigit_of_mem_toDigits (by decide) (by decide) (hn ▸ List.mem_cons_self ..)
      exact ⟨c, cs, by rw [prettyChars, hn], formOf_of_isDigit hc⟩
  | string text => exact ⟨_, _, rfl, rfl⟩
  | array items => cases items <;> exact ⟨_, _, rfl, rfl⟩
  | object fields => cases fields <;> exact ⟨_, _, rfl, rfl⟩

theorem form_eq {j j' : Json} {depth : Nat}
    (h : j.prettyChars depth ++ s = j'.prettyChars depth ++ s') : j.form = j'.form := by
  obtain ⟨c, cs, hj, hc⟩ := j.exists_cons depth
  obtain ⟨c', cs', hj', hc'⟩ := j'.exists_cons depth
  rw [hj, hj', List.cons_append, List.cons_append, List.cons.injEq] at h
  rw [← hc, ← hc', h.1]

/-- What may follow a document within another one: no digit, so that a number ends there. -/
theorem nextNot_newline {depth : Nat} : NextNot Char.isDigit (newline depth ++ s) :=
  nextNot_cons.mpr (by decide)

theorem nextNot_prettyItems {depth : Nat} (items : List Json) (hs : NextNot Char.isDigit s) :
    NextNot Char.isDigit (prettyItems depth items ++ s) := by
  cases items with
  | nil => exact hs
  | cons => exact nextNot_cons.mpr (by decide)

theorem nextNot_prettyFields {depth : Nat} (fields : List (String × Json))
    (hs : NextNot Char.isDigit s) : NextNot Char.isDigit (prettyFields depth fields ++ s) := by
  cases fields with
  | nil => exact hs
  | cons => exact nextNot_cons.mpr (by decide)

mutual

/-- A document is cut off where it ends, by induction on the first of two documents that begin equal
texts. -/
theorem prettyChars_unique : ∀ {depth : Nat} {s s' : List Char} (j j' : Json),
    NextNot Char.isDigit s → NextNot Char.isDigit s' →
    j.prettyChars depth ++ s = j'.prettyChars depth ++ s' → j = j' ∧ s = s'
  | depth, s, s', null, j', _, _, h => by
    cases j' with
    | null => exact ⟨rfl, List.append_cancel_left h⟩
    | _ => nomatch form_eq h
  | depth, s, s', number n, j', hs, hs', h => by
    cases j' with
    | number n' =>
      obtain ⟨rfl, hrest⟩ := toDigits_unique hs hs' h
      exact ⟨rfl, hrest⟩
    | _ => nomatch form_eq h
  | depth, s, s', string text, j', _, _, h => by
    cases j' with
    | string text' =>
      obtain ⟨rfl, hrest⟩ := quote_unique h
      exact ⟨rfl, hrest⟩
    | _ => nomatch form_eq h
  | depth, s, s', array items, j', _, _, h => by
    cases j' with
    | array items' =>
      obtain ⟨rfl, hrest⟩ := array_unique items items' h
      exact ⟨rfl, hrest⟩
    | _ => nomatch form_eq h
  | depth, s, s', object fields, j', _, _, h => by
    cases j' with
    | object fields' =>
      obtain ⟨rfl, hrest⟩ := object_unique fields fields' h
      exact ⟨rfl, hrest⟩
    | _ => nomatch form_eq h
termination_by structural _ _ _ j => j

theorem array_unique : ∀ {depth : Nat} {s s' : List Char} (items items' : List Json),
    (array items).prettyChars depth ++ s = (array items').prettyChars depth ++ s' →
    items = items' ∧ s = s'
  | _, _, _, [], [], h => ⟨rfl, List.append_cancel_left h⟩
  | _, _, _, [], _ :: _, h => by simp [prettyChars, newline] at h
  | _, _, _, _ :: _, [], h => by simp [prettyChars, newline] at h
  | depth, s, s', item :: items, item' :: items', h => by
    simp only [prettyChars, List.cons_append, List.append_assoc, List.cons.injEq, true_and,
      List.append_cancel_left_eq, List.nil_append] at h
    obtain ⟨rfl, hrest⟩ := prettyChars_unique item item'
      (nextNot_prettyItems items nextNot_newline) (nextNot_prettyItems items' nextNot_newline) h
    obtain ⟨rfl, hs⟩ := prettyItems_unique items items' hrest
    exact ⟨rfl, List.tail_eq_of_cons_eq hs⟩
termination_by structural _ _ _ items => items

/-- Fields in their order, by recursion on them. -/
theorem object_unique : ∀ {depth : Nat} {s s' : List Char} (fields fields' : List (String × Json)),
    (object fields).prettyChars depth ++ s = (object fields').prettyChars depth ++ s' →
    fields = fields' ∧ s = s'
  | _, _, _, [], [], h => ⟨rfl, List.append_cancel_left h⟩
  | _, _, _, [], _ :: _, h => by simp [prettyChars, newline] at h
  | _, _, _, _ :: _, [], h => by simp [prettyChars, newline] at h
  | depth, s, s', (key, value) :: fields, (key', value') :: fields', h => by
    simp only [prettyChars, List.cons_append, List.append_assoc, List.cons.injEq, true_and,
      List.append_cancel_left_eq, List.nil_append] at h
    obtain ⟨rfl, hvalue⟩ := quote_unique h
    simp only [List.cons.injEq, true_and] at hvalue
    obtain ⟨rfl, hfields⟩ := prettyChars_unique value value'
      (nextNot_prettyFields fields nextNot_newline) (nextNot_prettyFields fields' nextNot_newline)
      hvalue
    obtain ⟨rfl, hs⟩ := prettyFields_unique fields fields' hfields
    exact ⟨rfl, List.tail_eq_of_cons_eq hs⟩
termination_by structural _ _ _ fields => fields

/-- The items behind the first end where a new line comes without a comma. -/
theorem prettyItems_unique : ∀ {depth outer : Nat} {s s' : List Char} (items items' : List Json),
    prettyItems depth items ++ (newline outer ++ s) =
      prettyItems depth items' ++ (newline outer ++ s') → items = items' ∧ s = s'
  | _, _, _, _, [], [], h => ⟨rfl, List.append_cancel_left h⟩
  | _, _, _, _, [], _ :: _, h => by simp [prettyItems, newline] at h
  | _, _, _, _, _ :: _, [], h => by simp [prettyItems, newline] at h
  | depth, outer, s, s', item :: items, item' :: items', h => by
    simp only [prettyItems, List.cons_append, List.append_assoc, List.cons.injEq, true_and,
      List.append_cancel_left_eq] at h
    obtain ⟨rfl, hrest⟩ := prettyChars_unique item item'
      (nextNot_prettyItems items nextNot_newline) (nextNot_prettyItems items' nextNot_newline) h
    obtain ⟨rfl, hs⟩ := prettyItems_unique items items' hrest
    exact ⟨rfl, hs⟩
termination_by structural _ _ _ _ items => items

theorem prettyFields_unique : ∀ {depth outer : Nat} {s s' : List Char}
    (fields fields' : List (String × Json)),
    prettyFields depth fields ++ (newline outer ++ s) =
      prettyFields depth fields' ++ (newline outer ++ s') → fields = fields' ∧ s = s'
  | _, _, _, _, [], [], h => ⟨rfl, List.append_cancel_left h⟩
  | _, _, _, _, [], _ :: _, h => by simp [prettyFields, newline] at h
  | _, _, _, _, _ :: _, [], h => by simp [prettyFields, newline] at h
  | depth, outer, s, s', (key, value) :: fields, (key', value') :: fields', h => by
    simp only [prettyFields, List.cons_append, List.append_assoc, List.cons.injEq, true_and,
      List.append_cancel_left_eq, List.nil_append] at h
    obtain ⟨rfl, hvalue⟩ := quote_unique h
    simp only [List.cons.injEq, true_and] at hvalue
    obtain ⟨rfl, hfields⟩ := prettyChars_unique value value'
      (nextNot_prettyFields fields nextNot_newline) (nextNot_prettyFields fields' nextNot_newline)
      hvalue
    obtain ⟨rfl, hs⟩ := prettyFields_unique fields fields' hfields
    exact ⟨rfl, hs⟩
termination_by structural _ _ _ _ fields => fields

end

/-- Documents of the same text are the same. -/
theorem pretty_injective : Function.Injective pretty := by
  intro j j' h
  have hchars : j.prettyChars 0 ++ [] = j'.prettyChars 0 ++ [] := by
    rw [List.append_nil, List.append_nil]
    exact String.ofList_injective h
  exact (prettyChars_unique j j' (nextNot_nil _) (nextNot_nil _) hchars).1

end Json

end LocaleText
