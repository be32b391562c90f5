import LocaleText.Proofs.Reading.Expr

/-!
# Escapes in strings

A string is closed by the first quote with an even number of backslashes before it. That is how its
characters are counted; whoever reads a string takes the characters in units instead, a backslash
together with the character behind it or any other character alone, and stops at the first quote that
is not taken so.

* `readUnits` takes the units at the front of a text, `IsUnit` says what a unit is
* `splitAtQuote_eq_readUnits` says that both ways find the same quote
* `Reader.value_of_quote` is the result for strings where a value is read
-/

namespace LocaleText

/-- One unit of a string between quotes of a kind. -/
inductive IsUnit (quote : Char) : List Char → Prop
  | escape (c : Char) : IsUnit quote ['\\', c]
  | plain {c : Char} : c ≠ '\\' → c ≠ quote → IsUnit quote [c]

/-- Takes units from the front of a text as long as there are any. A backslash with nothing behind it
is none. -/
def readUnits (quote : Char) : List Char → List (List Char) × List Char
  | [] => ([], [])
  | c :: text =>
    if c = '\\' then
      match text with
      | [] => ([], [c])
      | d :: rest => ([c, d] :: (readUnits quote rest).1, (readUnits quote rest).2)
    else if c = quote then ([], c :: text)
    else ([c] :: (readUnits quote text).1, (readUnits quote text).2)

def closeAt (quote : Char) : List (List Char) × List Char → Option (List Char × List Char)
  | (_, []) => none
  | (units, c :: behind) => if c = quote then some (units.flatten, behind) else none

section Units

variable {quote : Char}

/-- Only units are taken. -/
theorem isUnit_of_mem_readUnits (text : List Char) :
    ∀ u ∈ (readUnits quote text).1, IsUnit quote u := by
  fun_induction readUnits quote text with
  | case1 => simp
  | case2 => simp
  | case3 d rest ih => exact List.forall_mem_cons.mpr ⟨.escape d, ih⟩
  | case4 => simp
  | case5 c text hb hq ih => exact List.forall_mem_cons.mpr ⟨.plain hb hq, ih⟩

/-- The units and what they leave are the text. -/
theorem flatten_readUnits (text : List Char) :
    (readUnits quote text).1.flatten ++ (readUnits quote text).2 = text := by
  fun_induction readUnits quote text with
  | case1 => rfl
  | case2 => rfl
  | case3 d rest ih => exact congrArg ('\\' :: d :: ·) ih
  | case4 => rfl
  | case5 c text hb hq ih => exact congrArg (c :: ·) ih

/-- A unit in front is part of the content. -/
theorem closeAt_cons (u : List Char) (units : List (List Char)) (left : List Char) :
    closeAt quote (u :: units, left) =
      (closeAt quote (units, left)).map fun (content, behind) => (u ++ content, behind) := by
  cases left with
  | nil => rfl
  | cons c behind =>
    rw [closeAt, closeAt]
    split
    · rfl
    · rfl

theorem closeAt_eq_some_iff {units : List (List Char)} {left content behind : List Char} :
    closeAt quote (units, left) = some (content, behind) ↔
      left = quote :: behind ∧ content = units.flatten := by
  cases left with
  | nil => simp [closeAt]
  | cons c rest =>
    rw [closeAt]
    by_cases hc : c = quote
    · simp [hc, eq_comm, and_comm]
    · simp [hc]

/-- The quote behind an even number of backslashes is the first one that no unit takes. By induction
on the units: the number of backslashes is even before each of them. -/
theorem splitAtQuote_eq_readUnits (hq : quote ≠ '\\') (text : List Char) :
    splitAtQuote quote false text = closeAt quote (readUnits quote text) := by
  fun_induction readUnits quote text with
  | case1 => rfl
  | case2 =>
    rw [splitAtQuote, if_neg (by simp [Ne.symm hq])]
    simp [splitAtQuote, closeAt, Ne.symm hq]
  | case3 d rest ih =>
    have hodd : splitAtQuote quote true (d :: rest) =
        (splitAtQuote quote false rest).map fun (content, behind) => (d :: content, behind) := by
      simp [splitAtQuote]
    rw [splitAtQuote, if_neg (by simp [Ne.symm hq]), closeAt_cons, ← ih]
    simp [hodd, Function.comp_def]
  | case4 text hb => simp [splitAtQuote, closeAt]
  | case5 c text hb hc ih =>
    have heven : (c == '\\' && !false) = false := by simp [hb]
    rw [splitAtQuote, if_neg (by simp [hc]), closeAt_cons, ← ih, heven]
    rfl

end Units

namespace Reader

variable {quote : Char} {inner : Nesting → Reader Expr} {bound : Nat} {n : Nesting} {o : Nat}
  {rest content behind : List Char}

theorem quoted_of_split (h : splitAtQuote quote false rest = some (content, behind)) :
    quoted quote ⟨o, quote :: rest⟩ =
      .ok (.string (String.ofList content) quote (extent o ([quote] ++ content ++ [quote])))
        ⟨o + byteLength ([quote] ++ content ++ [quote]), behind⟩ := by
  have hskip : (⟨o, quote :: rest⟩ : Input).Takes [quote] ⟨o + byteLength [quote], rest⟩ := ⟨rfl, rfl⟩
  rw [quoted, offset_bind]
  simp only [bind, EStateM.bind, skip_eq_ok hskip, h, Input.after, extent, byteLength_append,
    Nat.add_assoc]

/-- Without a quote that closes it, a string is blamed up to the end of the source. -/
theorem quoted_of_not_split (h : splitAtQuote quote false rest = none) :
    ∃ left, quoted quote ⟨o, quote :: rest⟩ = .error
      ⟨.unterminatedString, extent o (quote :: rest), some (.missingQuote quote), none⟩ left := by
  have hskip : (⟨o, quote :: rest⟩ : Input).Takes [quote] ⟨o + byteLength [quote], rest⟩ := ⟨rfl, rfl⟩
  refine ⟨⟨o + byteLength [quote], rest⟩, ?_⟩
  rw [quoted, offset_bind]
  simp only [bind, EStateM.bind, skip_eq_ok hskip, h, Input.finish, extent, byteLength_cons,
    byteLength_nil, Nat.add_zero, Nat.add_assoc]

/-- A string is read by its units. Behind the quote that opens it, wherever a value is read, it is
closed by a quote that the units leave: then its content is the text of the units, and reading goes on
behind that quote. If they leave none, the string is unterminated, from its quote to the end. -/
theorem value_of_quote (inner : Nesting → Reader Expr) (bound o : Nat) (hq : isQuote quote = true)
    (hn : n.HasRoom) (rest : List Char) :
    (∀ u ∈ (readUnits quote rest).1, IsUnit quote u) ∧
    (readUnits quote rest).1.flatten ++ (readUnits quote rest).2 = rest ∧
    (∀ behind, (readUnits quote rest).2 = quote :: behind →
      value inner bound n ⟨o, quote :: rest⟩ =
        .ok (.string (String.ofList (readUnits quote rest).1.flatten) quote
            (extent o ([quote] ++ (readUnits quote rest).1.flatten ++ [quote])))
          ⟨o + byteLength ([quote] ++ (readUnits quote rest).1.flatten ++ [quote]), behind⟩) ∧
    ((∀ behind, (readUnits quote rest).2 ≠ quote :: behind) →
      ∃ left, value inner bound n ⟨o, quote :: rest⟩ = .error
        ⟨.unterminatedString, extent o (quote :: rest), some (.missingQuote quote), none⟩ left) := by
  have hquote : quote ≠ '\\' := by
    rcases isQuote_iff.mp hq with rfl | rfl <;> decide
  have hsplit := splitAtQuote_eq_readUnits hquote rest
  have hc : (⟨o, quote :: rest⟩ : Input).rest.head? = some quote := rfl
  rw [value_of_isQuote hn hc hq]
  refine ⟨isUnit_of_mem_readUnits rest, flatten_readUnits rest, fun behind hleft => ?_, fun hleft => ?_⟩
  · exact quoted_of_split (hsplit.trans (closeAt_eq_some_iff.mpr ⟨hleft, rfl⟩))
  · refine quoted_of_not_split (hsplit.trans (Option.eq_none_iff_forall_not_mem.mpr ?_))
    rintro ⟨content, behind⟩ hmem
    exact hleft behind (closeAt_eq_some_iff.mp hmem).1

/-- An escaped quote and an escaped backslash are units, and so is a character of two bytes. A backslash
at the end is none. -/
theorem value_of_quote_escapes :
    isQuote '"' = true ∧ Nesting.HasRoom ⟨some 1, 0⟩ ∧
    readUnits '"' "é\\\"\\\\\">".toList = ([['é'], ['\\', '"'], ['\\', '\\']], ['"', '>']) ∧
    value (expression 9) 9 ⟨some 1, 0⟩ ⟨3, "\"é\\\"\\\\\">".toList⟩ =
      .ok (.string "é\\\"\\\\" '"' ⟨3, 11⟩) ⟨11, ['>']⟩ ∧
    ∃ left, value (expression 9) 9 ⟨some 1, 0⟩ ⟨3, "\"\\\"\\".toList⟩ =
      .error ⟨.unterminatedString, ⟨3, 7⟩, some (.missingQuote '"'), none⟩ left := by
  have hq : isQuote '"' = true := rfl
  have hn : Nesting.HasRoom ⟨some 1, 0⟩ := rfl
  obtain ⟨-, -, hclosed, -⟩ := value_of_quote (expression 9) 9 3 hq hn "é\\\"\\\\\">".toList
  obtain ⟨-, -, -, hopen⟩ := value_of_quote (expression 9) 9 3 hq hn "\\\"\\".toList
  have hunits : readUnits '"' "é\\\"\\\\\">".toList =
      ([['é'], ['\\', '"'], ['\\', '\\']], ['"', '>']) := by decide +kernel
  have hleft : (readUnits '"' "\\\"\\".toList).2 = ['\\'] := by decide +kernel
  rw [hunits] at hclosed
  refine ⟨hq, hn, hunits, hclosed ['>'] rfl, hopen fun behind he => ?_⟩
  rw [hleft] at he
  exact absurd he (by simp)

end Reader

end LocaleText
