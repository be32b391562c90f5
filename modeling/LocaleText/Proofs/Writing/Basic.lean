import LocaleText.Proofs.Reading.Terminal
import Mathlib.Data.List.Basic

/-!
# Texts that are told apart

Two texts that begin with a token each, and go on in any way, are equal only if their tokens are: the
first token can be cut off in one way only.

* `run_unique` cuts off a maximal run of characters of a class
* `toDigits_unique` cuts off a number, `quoted_unique` a string in its quotes
-/

namespace LocaleText

variable {s s' : List Char}

/-- A run of characters of a class is cut off where the class ends. -/
theorem run_unique {p : Char → Bool} {run run' : List Char} (hrun : ∀ c ∈ run, p c = true)
    (hrun' : ∀ c ∈ run', p c = true) (hs : NextNot p s) (hs' : NextNot p s')
    (h : run ++ s = run' ++ s') : run = run' ∧ s = s' := by
  have hcut : ∀ {run s : List Char}, (∀ c ∈ run, p c = true) → NextNot p s →
      (run ++ s).takeWhile p = run := by
    intro run s hrun hs
    have hstop : s.takeWhile p = [] := by
      cases s with
      | nil => rfl
      | cons c cs => rw [List.takeWhile_cons, nextNot_cons.mp hs]; rfl
    rw [List.takeWhile_append_of_pos hrun, hstop, List.append_nil]
  have hruns : run = run' := by rw [← hcut hrun hs, h, hcut hrun' hs']
  rw [hruns] at h
  exact ⟨hruns, List.append_cancel_left h⟩

/-- A number is cut off where its digits end. -/
theorem toDigits_unique {n n' : Nat} (hs : NextNot Char.isDigit s) (hs' : NextNot Char.isDigit s')
    (h : Nat.toDigits 10 n ++ s = Nat.toDigits 10 n' ++ s') : n = n' ∧ s = s' := by
  have hdigits : ∀ n, ∀ c ∈ Nat.toDigits 10 n, c.isDigit = true := fun n c hc =>
    Nat.isDigit_of_mem_toDigits (by decide) (by decide) hc
  obtain ⟨hn, hrest⟩ := run_unique (hdigits n) (hdigits n') hs hs' h
  refine ⟨?_, hrest⟩
  rw [← Nat.ofDigitChars_ten_toDigits (n := n), hn, Nat.ofDigitChars_ten_toDigits]

/-- A string is cut off at the quote that closes it. -/
theorem quoted_unique {quote : Char} {content content' : List Char}
    (hc : StringContent quote 0 content) (hc' : StringContent quote 0 content')
    (h : content ++ quote :: s = content' ++ quote :: s') : content = content' ∧ s = s' := by
  have hodd : false = true ↔ 0 % 2 = 1 := by decide
  have hcut : splitAtQuote quote false (content ++ quote :: s) = some (content, s) :=
    (splitAtQuote_eq_some_iff hodd).mpr ⟨rfl, hc⟩
  have hcut' := (splitAtQuote_eq_some_iff hodd).mpr ⟨h, hc'⟩
  rw [hcut] at hcut'
  simpa using hcut'

end LocaleText
