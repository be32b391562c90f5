import LocaleText.Proofs.Awaiting.Entry
import LocaleText.Proofs.Unfinished.Blame
import Mathlib.Data.List.Induction
import Mathlib.Data.Nat.Digits.Defs

/-!
# Integer literals

A run of digits stands for the number that it is in positional notation, whatever its length, and it
is either read as exactly that number or refused as a whole. There is no other way for it to go:
digits are not cut short, and a number that is too large is not rounded or wrapped around.

Where a run stands for a number at all is told by the text before it, without a word about numbers:
an operand is to follow that text, so that a source could go on there with any other operand as
well.

That a number is read is said of the reader of operands, and not of the tree, which need not hold it:
of two members or attributes with one key the tree keeps the value of the last.

* `decimalValue_eq_ofDigits` compares the value of a run with the one that `Nat.ofDigits` gives
* `Resource.awaitsOperand_iff` decides by reading whether an operand is to follow a text
* `Resource.primary_of_run` is what the reader of operands does at a run of digits
* `Resource.ofChars_eq_integerRange` is the error of a source with a run that is out of range
* `Resource.read_integer` is the result: a run below `2 ^ 64` is read as its value with its own span
  and the source is read on behind it, and any other run is the error of the source, whatever
  composites, calls, brackets, choices, operators, attributes and entries are around it
-/

namespace LocaleText

/-- The value of a run of digits is that of its positional notation, the last digit first. -/
theorem decimalValue_eq_ofDigits (digits : List Char) :
    decimalValue digits = Nat.ofDigits 10 (digits.reverse.map digitValue) := by
  induction digits using List.reverseRecOn with
  | nil => rfl
  | append_singleton digits c ih =>
    have hlast : decimalValue (digits ++ [c]) = 10 * decimalValue digits + digitValue c := by
      rw [decimalValue, List.foldl_append]
      rfl
    rw [hlast, ih, List.reverse_append, List.reverse_singleton, List.singleton_append, List.map_cons,
      Nat.ofDigits_cons]
    exact Nat.add_comm _ _

/-- More digits in front of a run do not make it smaller. -/
theorem decimalValue_le_append (digits more : List Char) :
    decimalValue more ≤ decimalValue (digits ++ more) := by
  rw [decimalValue_eq_ofDigits, decimalValue_eq_ofDigits, List.reverse_append, List.map_append,
    Nat.ofDigits_append]
  exact Nat.le_add_right _ _

namespace Resource

variable {limit : Option Nat} {before digits rest : List Char}

/-- An operand is to follow a text if reading it with the sigil of a reference behind it stops at its
end, and it does not end within a word. -/
theorem awaitsOperand_iff : AwaitsOperand limit before ↔
    (∃ e, read limit (String.ofList (before ++ [Scope.global.sigil])) = .error e ∧
      e.kind ∈ [FaultKind.endOfInput, .unterminatedComposite]) ∧
    ∀ c ∈ before.getLast?, isWordChar c = false := by
  rw [read_stops_at_end_iff, String.toList_ofList]
  exact ⟨fun h => ⟨h.reference, h.word⟩, fun h => ⟨h.1, h.2⟩⟩

section Run

variable (hne : digits ≠ []) (hdigits : ∀ c ∈ digits, c.isDigit = true)
  (hrest : NextNot Char.isDigit rest)
include hne hdigits hrest

/-- What is read from a run of digits, whatever is around it. -/
theorem primary_of_run (inner : Nesting → Reader Expr) (bound : Nat) (n : Nesting) :
    Reader.primary inner bound n ⟨byteLength before, digits ++ rest⟩ =
      if decimalValue digits < integerBound then
        .ok (.integer (decimalValue digits) (extent (byteLength before) digits))
          ⟨byteLength (before ++ digits), rest⟩
      else .error ⟨.malformedExpression, extent (byteLength before) digits, some .integerRange, none⟩
        ⟨byteLength (before ++ digits), rest⟩ :=
  Reader.primary_of_digits hne hdigits ⟨rfl, byteLength_append before digits⟩ hrest

/-- A run that is too large is the fault of the source. -/
theorem ofChars_eq_integerRange (hbefore : AwaitsOperand limit before)
    (hbound : integerBound ≤ decimalValue digits) :
    ofChars limit (before ++ (digits ++ rest)) = .error ⟨.malformedExpression,
      extent (byteLength before) digits, some .integerRange, none⟩ := by
  obtain ⟨c, cs, hcons⟩ := List.exists_cons_of_ne_nil hne
  refine hbefore.ofChars_eq_error (l := ⟨byteLength (before ++ digits), rest⟩) ⟨⟨c, ?_, ?_⟩, ?_, by simp⟩
  · rw [hcons]
    rfl
  · exact hdigits c (hcons ▸ List.mem_cons_self ..)
  · intro inner bound n
    rw [primary_of_run hne hdigits hrest, if_neg (Nat.not_lt.mpr hbound)]

end Run

/-- Behind a text that an operand is to follow, digits are read as far as they go. With enough nines
behind them they are too large, and the fault of that source ends behind the nines: so no other fault
ends before them. -/
theorem le_stop_of_digits {e : Fault} (hbefore : AwaitsOperand limit before)
    (hdigits : ∀ c ∈ digits, c.isDigit = true)
    (he : ofChars limit (before ++ digits ++ rest) = .error e) (hk : e.kind ≠ .duplicateDefault) :
    byteLength (before ++ digits) ≤ e.span.stop := by
  by_contra hstop
  have hnines : ∀ c ∈ List.replicate 20 '9', c.isDigit = true := List.all_eq_true.mp (by decide)
  have hlarge : integerBound ≤ decimalValue (digits ++ List.replicate 20 '9') :=
    Nat.le_trans (by decide) (decimalValue_le_append digits _)
  have hall : ∀ c ∈ digits ++ List.replicate 20 '9', c.isDigit = true := fun c hc =>
    (List.mem_append.mp hc).elim (hdigits c) (hnines c)
  have hend : NextNot Char.isDigit [] := nextNot_nil _
  have hfault := ofChars_eq_integerRange (by simp) hall hend hbefore hlarge
  have hsame := ofChars_eq_error_of_front he hk (Nat.lt_of_not_le hstop) (List.replicate 20 '9')
  rw [List.append_nil, ← List.append_assoc] at hfault
  obtain rfl := Except.error.inj (hsame.symm.trans hfault)
  refine hstop ?_
  rw [byteLength_append]
  exact Nat.add_le_add_left (byteLength_append .. ▸ Nat.le_add_right _ _) _

/-- Integers are exact or refused. Behind a text that an operand is to follow stand digits, up to a
character that is none or to the end. If their value is below `2 ^ 64`, the operand that is read there
is that value, with the span of the run, and the source has no fault before the end of the run but a
second default, which is found late. Otherwise the run is the error of the whole source, with its span
too. -/
theorem read_integer (hne : digits ≠ []) (hdigits : ∀ c ∈ digits, c.isDigit = true)
    (hrest : NextNot Char.isDigit rest) (hbefore : AwaitsOperand limit before) :
    (Nat.ofDigits 10 (digits.reverse.map digitValue) < 2 ^ 64 →
      (∀ inner bound n, Reader.primary inner bound n ⟨byteLength before, digits ++ rest⟩ =
        .ok (.integer (Nat.ofDigits 10 (digits.reverse.map digitValue))
          (extent (byteLength before) digits)) ⟨byteLength (before ++ digits), rest⟩) ∧
      ∀ error, read limit (String.ofList (before ++ digits ++ rest)) = .error error →
        error.kind ≠ .duplicateDefault → byteLength (before ++ digits) ≤ error.span.stop) ∧
    (2 ^ 64 ≤ Nat.ofDigits 10 (digits.reverse.map digitValue) →
      read limit (String.ofList (before ++ digits ++ rest)) = .error ⟨.malformedExpression,
        extent (byteLength before) digits, Place.of (before ++ digits ++ rest) (byteLength before),
        "malformed expression: integer literal out of range", none⟩) := by
  rw [← decimalValue_eq_ofDigits]
  refine ⟨fun hlt => ⟨fun inner bound n => ?_, fun error herror hk => ?_⟩, fun hle => ?_⟩
  · rw [primary_of_run hne hdigits hrest]
    exact if_pos hlt
  · obtain ⟨e, he, rfl⟩ := read_eq_error_iff.mp herror
    rw [String.toList_ofList] at he
    exact le_stop_of_digits hbefore hdigits he hk
  · have herror := ofChars_eq_integerRange hne hdigits hrest hbefore hle
    rw [← List.append_assoc] at herror
    refine read_eq_error_iff.mpr ⟨_, by rw [String.toList_ofList]; exact herror, ?_⟩
    rw [Fault.toError, SyntaxError.report, String.toList_ofList]
    rfl

/-- What stands before the operand: an array, an object, a call, an index, an operation and parentheses
behind a sign, none of which is closed. -/
def openEverything : String := "<x [0 \x7ba: f(b, c[1 + -("

/-- In the middle of everything, the last number that has room and the first one that has none. -/
theorem read_integer_at_bound :
    AwaitsOperand none openEverything.toList ∧
    (∀ inner bound n, Reader.primary inner bound n ⟨23, "18446744073709551615".toList⟩ =
      .ok (.integer 18446744073709551615 ⟨23, 43⟩) ⟨43, []⟩) ∧
    read none "<x [0 \x7ba: f(b, c[1 + -(18446744073709551616" = .error ⟨.malformedExpression, ⟨23, 43⟩,
      ⟨1, 24⟩, "malformed expression: integer literal out of range", none⟩ := by
  have hsigil : read none (String.ofList (openEverything.toList ++ [Scope.global.sigil])) =
      .error ⟨.unterminatedComposite, ⟨24, 24⟩, ⟨1, 25⟩, "unterminated composite: expected `\x7d`",
        some ⟨⟨6, 7⟩, "object started here"⟩⟩ := read_eq_error_iff_error?.mpr (by decide +kernel)
  have hparenthesis : openEverything.toList.getLast? = some '(' := by decide +kernel
  have hword : ∀ c ∈ openEverything.toList.getLast?, isWordChar c = false := fun c hc =>
    Option.some.inj (hparenthesis.symm.trans hc) ▸ by decide
  have hbefore : AwaitsOperand none openEverything.toList :=
    awaitsOperand_iff.mpr ⟨⟨_, hsigil, by decide⟩, hword⟩
  have hlast : ∀ c ∈ "18446744073709551615".toList, c.isDigit = true :=
    List.all_eq_true.mp (by decide +kernel)
  have hfirst : ∀ c ∈ "18446744073709551616".toList, c.isDigit = true :=
    List.all_eq_true.mp (by decide +kernel)
  have hroom := (read_integer (by decide) hlast (nextNot_nil _) hbefore).1 (by decide +kernel)
  have hnone := (read_integer (by decide) hfirst (nextNot_nil _) hbefore).2 (by decide +kernel)
  exact ⟨hbefore, hroom.1, hnone⟩

end Resource

end LocaleText
