import LocaleText.Proofs.Grammar.Token

/-!
# Reading tokens

Names, strings and integers are read exactly where they are written. Each statement is an
equivalence between a run of a reader that succeeds and a text at the front of the input.

* `Reader.ident_eq_ok` is about names: a quote that opens one is closed if the same quote comes next
* `Reader.quoted_eq_ok` is about strings, and `splitAtQuote_eq_some_iff` about the cut of a string
  at the quote that closes it
* `Reader.integer_eq_ok` is about integers, and `Reader.integer_of_digits` says what any run of
  digits comes to
-/

namespace LocaleText

/-! ### The quote that closes a string -/

section StringContent

variable {quote c : Char} {count : Nat} {odd : Bool} {text content rest : List Char}

theorem backslashes_cons : backslashes count (c :: text) =
    backslashes (backslashesBehind count c) text := rfl

theorem stringContent_nil : StringContent quote count [] ↔ count % 2 = 0 := by
  constructor
  · intro h
    exact h.closed
  · intro h
    exact ⟨fun before behind he => absurd he (by simp), h⟩

/-- The first character of a string, with what it leaves for the others. -/
theorem stringContent_cons : StringContent quote count (c :: content) ↔
    (c = quote → count % 2 = 1) ∧ StringContent quote (backslashesBehind count c) content := by
  constructor
  · intro h
    refine ⟨fun hc => h.escaped [] content (by rw [hc]; rfl), ?_, h.closed⟩
    intro before behind he
    exact h.escaped (c :: before) behind (by rw [he]; rfl)
  · intro h
    obtain ⟨hc, hs⟩ := h
    refine ⟨?_, hs.closed⟩
    intro before behind he
    cases before with
    | nil =>
      rw [List.nil_append, List.cons.injEq] at he
      exact hc he.1
    | cons d ds =>
      rw [List.cons_append, List.cons.injEq] at he
      rw [← he.1, backslashes_cons]
      exact hs.escaped ds behind he.2

/-- The flag of the cut is the parity of the backslashes. -/
theorem odd_backslashesBehind (hodd : odd = true ↔ count % 2 = 1) :
    (c == '\\' && !odd) = true ↔ backslashesBehind count c % 2 = 1 := by
  by_cases hc : c = '\\'
  · cases odd with
    | true =>
      have := hodd.mp rfl
      simp [backslashesBehind, hc]
      omega
    | false =>
      have : count % 2 ≠ 1 := fun h => absurd (hodd.mpr h) (by decide)
      simp [backslashesBehind, hc]
      omega
  · simp [backslashesBehind, hc]

/-- A text is cut at the first quote that is not escaped. -/
theorem splitAtQuote_eq_some_iff (hodd : odd = true ↔ count % 2 = 1) :
    splitAtQuote quote odd text = some (content, rest) ↔
      text = content ++ quote :: rest ∧ StringContent quote count content := by
  induction text generalizing count odd content with
  | nil => simp [splitAtQuote]
  | cons c cs ih =>
    rw [splitAtQuote]
    split
    · rename_i hclose
      simp only [Bool.and_eq_true, decide_eq_true_eq, Bool.not_eq_true'] at hclose
      obtain ⟨rfl, rfl⟩ := hclose
      have hcount : ¬ count % 2 = 1 := fun h => absurd (hodd.mpr h) (by decide)
      cases content with
      | nil => simpa [stringContent_nil, eq_comm] using fun _ => by omega
      | cons d ds =>
        -- the quote would stand unescaped at the front of the content
        simp only [stringContent_cons, List.cons_append, List.cons.injEq]
        constructor
        · intro h
          exact absurd h (by simp)
        · intro h
          exact absurd (h.2.1 h.1.1.symm) hcount
    · rename_i hclose
      cases content with
      | nil =>
        have hcount : c = quote → count % 2 = 1 := by
          intro hc
          rw [← hodd]
          simpa [hc] using hclose
        simp only [stringContent_nil, List.nil_append, List.cons.injEq, Option.map_eq_some_iff]
        constructor
        · intro h
          obtain ⟨_, _, h⟩ := h
          exact absurd h (by simp)
        · intro h
          have := hcount h.1.1
          omega
      | cons d ds =>
        have hd : splitAtQuote quote (c == '\\' && !odd) cs = some (ds, rest) ↔
            cs = ds ++ quote :: rest ∧ StringContent quote (backslashesBehind count c) ds :=
          ih (odd_backslashesBehind hodd)
        simp only [stringContent_cons, List.cons_append, List.cons.injEq, Option.map_eq_some_iff,
          Prod.exists, Prod.mk.injEq]
        constructor
        · intro h
          obtain ⟨_, _, hs, ⟨rfl, rfl⟩, rfl⟩ := h
          obtain ⟨ht, hs⟩ := hd.mp hs
          refine ⟨⟨rfl, ht⟩, fun hc => ?_, hs⟩
          rw [← hodd]
          simpa [hc] using hclose
        · intro h
          obtain ⟨⟨rfl, ht⟩, _, hs⟩ := h
          exact ⟨ds, rest, hd.mpr ⟨ht, hs⟩, ⟨rfl, rfl⟩, rfl⟩

end StringContent

namespace Reader

variable {i l : Input}

/-! ### Names -/

/-- Both ways of writing a name take its characters in this way. -/
theorem name_bind_eq_ok {α : Type} {k : List Char → Reader α} {a : α} {kind : FaultKind} :
    (takeWhile isWordChar >>= fun name =>
      if name.isEmpty = true then unexpected kind else k name) i = .ok a l ↔
      ∃ name m, IsName name ∧ i.Takes name m ∧ NextNot isWordChar m.rest ∧ k name m = .ok a l := by
  simp only [bind_eq_ok, takeWhile_eq_ok, ite_eq_ok, unexpected_ne_ok, and_false, false_or,
    List.isEmpty_iff]
  constructor
  · intro h
    obtain ⟨name, m, ⟨ht, hw, hn⟩, hne, hk⟩ := h
    exact ⟨name, m, ⟨hne, hw⟩, ht, hn, hk⟩
  · intro h
    obtain ⟨name, m, hname, ht, hn, hk⟩ := h
    exact ⟨name, m, ⟨ht, hname.2, hn⟩, hname.1, hk⟩

/-- A name without a quote before it. -/
theorem ident_bare_eq_ok {id : Ident} (h : i.rest.head?.filter isQuote = none) :
    ident i = .ok id l ↔ ∃ name, IsName name ∧ i.Takes name l ∧ NextNot isWordChar l.rest ∧
      id = ⟨String.ofList name, extent i.offset name⟩ := by
  simp only [ident, offset_bind, peek?_bind, h, Option.isSome_none, Bool.false_eq_true, if_false,
    name_bind_eq_ok, spanFrom_bind, pure_eq_ok]
  constructor
  · intro h
    obtain ⟨name, m, hname, ht, hn, rfl, rfl⟩ := h
    exact ⟨name, hname, ht, hn, by rw [ht.span]⟩
  · intro h
    obtain ⟨name, hname, ht, hn, rfl⟩ := h
    exact ⟨name, l, hname, ht, hn, by rw [ht.span], rfl⟩

/-- A name behind a quote. -/
theorem ident_behind_quote_eq_ok {id : Ident} {quote : Char} {m : Input}
    (hq : isQuote quote = true) (hm : i.Takes [quote] m) :
    ident i = .ok id l ↔ ∃ name k, IsName name ∧ m.Takes name k ∧ NextNot isWordChar k.rest ∧
      (k.Takes [quote] l ∨ (k.rest.head? ≠ some quote ∧ l = k)) ∧
      id = ⟨String.ofList name, ⟨i.offset, l.offset⟩⟩ := by
  have hf : i.rest.head?.filter isQuote = some quote := by
    rw [hm.head]
    simp [hq]
  simp only [ident, offset_bind, peek?_bind, hf, Option.isSome_some, if_true, skip_bind hm,
    name_bind_eq_ok, unit_bind_eq_ok, discard_eq_ok, eat_eq_ok, spanFrom_bind, pure_eq_ok]
  constructor
  · intro h
    obtain ⟨name, k, hname, ht, hn, k', ⟨b, hk⟩, rfl, rfl⟩ := h
    refine ⟨name, k, hname, ht, hn, ?_, rfl⟩
    rcases hk with ⟨hk, _⟩ | ⟨hne, hk, _⟩
    · exact .inl hk
    · exact .inr ⟨hne, hk⟩
  · intro h
    obtain ⟨name, k, hname, ht, hn, hk, rfl⟩ := h
    refine ⟨name, k, hname, ht, hn, l, ?_, rfl, rfl⟩
    rcases hk with hk | ⟨hne, hk⟩
    · exact ⟨true, .inl ⟨hk, rfl⟩⟩
    · exact ⟨false, .inr ⟨hne, hk, rfl⟩⟩

theorem head?_filter_isQuote_eq_none {name : List Char} {l : Input} (hn : IsName name)
    (ht : i.Takes name l) : i.rest.head?.filter isQuote = none := by
  obtain ⟨hne, hw⟩ := hn
  cases name with
  | nil => exact absurd rfl hne
  | cons c cs =>
    rw [ht.head]
    simp [isQuote_of_isWordChar (hw c (List.mem_cons_self ..))]

/-- A name ends where a character follows that is no part of it. -/
theorem ident_eq_ok {id : Ident} :
    ident i = .ok id l ↔ ∃ text ending, i.Takes text l ∧ NameText text id.name ending ∧
      id.span = extent i.offset text ∧ NextNot ending.continues l.rest := by
  constructor
  · intro h
    cases hf : i.rest.head?.filter isQuote with
    | none =>
      obtain ⟨name, hname, ht, hn, rfl⟩ := (ident_bare_eq_ok hf).mp h
      exact ⟨name, .word, ht, .bare hname, rfl, hn⟩
    | some quote =>
      obtain ⟨hd, hq⟩ := Option.filter_eq_some_iff.mp hf
      obtain ⟨m, hm⟩ := Input.exists_takes_head hd
      obtain ⟨name, k, hname, ht, hn, hk, rfl⟩ := (ident_behind_quote_eq_ok hq hm).mp h
      rcases hk with hk | ⟨hne, rfl⟩
      · have hall := hm.trans (ht.trans hk)
        exact ⟨_, .closed, hall, .quoted hname hq, hall.span, fun _ _ => rfl⟩
      · have hall := hm.trans ht
        exact ⟨_, .opened quote, hall, .opened hname hq, hall.span,
          (Ending.nextNot_opened hq).mpr ⟨hn, hne⟩⟩
  · intro h
    obtain ⟨text, ending, ht, hname, hs, hn⟩ := h
    obtain ⟨name, span⟩ := id
    subst hs
    cases hname with
    | bare hname =>
      exact (ident_bare_eq_ok (head?_filter_isQuote_eq_none hname ht)).mpr
        ⟨_, hname, ht, hn, rfl⟩
    | opened hname hq =>
      obtain ⟨m, hm, hk⟩ := Input.takes_cons.mp ht
      obtain ⟨hw, hne⟩ := (Ending.nextNot_opened hq).mp hn
      exact (ident_behind_quote_eq_ok hq hm).mpr
        ⟨_, l, hname, hk, hw, .inr ⟨hne, rfl⟩, by rw [ht.span]; rfl⟩
    | quoted hname hq =>
      obtain ⟨m, hm, hk⟩ := Input.takes_cons.mp ht
      obtain ⟨k, hk, hc⟩ := Input.takes_append.mp hk
      have hw : NextNot isWordChar k.rest := by
        rw [hc.rest]
        exact nextNot_cons.mpr (isWordChar_of_isQuote hq)
      exact (ident_behind_quote_eq_ok hq hm).mpr
        ⟨_, k, hname, hk, hw, .inl hc, by rw [ht.span]; rfl⟩

/-! ### Strings and integers -/

/-- A string ends at the first quote that is not escaped. -/
theorem quoted_eq_ok {quote : Char} {v : Value} (hq : i.rest.head? = some quote) :
    quoted quote i = .ok v l ↔ ∃ content, i.Takes (quote :: (content ++ [quote])) l ∧
      StringContent quote 0 content ∧
      v = .string (String.ofList content) quote (extent i.offset (quote :: (content ++ [quote]))) := by
  obtain ⟨m, hm⟩ := Input.exists_takes_head hq
  have heven : false = true ↔ 0 % 2 = 1 := by simp
  rw [quoted, offset_bind]
  simp only [bind, EStateM.bind, skip_eq_ok hm]
  constructor
  · intro h
    split at h
    · exact absurd h (by simp)
    · rename_i content rest hsplit
      obtain ⟨ht, hc⟩ := (splitAtQuote_eq_some_iff heven).mp hsplit
      have hl : m.Takes (content ++ [quote]) (m.after (content ++ [quote]) rest) :=
        Input.takes_after (by rw [ht, List.append_assoc]; rfl)
      simp only [EStateM.Result.ok.injEq] at h
      obtain ⟨rfl, rfl⟩ := h
      have hall := hm.trans hl
      exact ⟨content, hall, hc, by rw [hall.span]; rfl⟩
  · intro h
    obtain ⟨content, ht, hc, rfl⟩ := h
    obtain ⟨m', hm', hl⟩ := Input.takes_cons.mp ht
    rw [hm.unique hm']
    have hsplit : splitAtQuote quote false m'.rest = some (content, l.rest) := by
      rw [splitAtQuote_eq_some_iff heven]
      exact ⟨by rw [hl.rest, List.append_assoc]; rfl, hc⟩
    rw [hsplit]
    have hafter : m'.after (content ++ [quote]) l.rest = l := (Input.takes_after hl.rest).unique hl
    simp only [hafter, ht.span]

/-- The whole run is taken before its value is compared with the bound. -/
theorem integer_of_digits {digits : List Char} (hdigits : ∀ c ∈ digits, c.isDigit = true)
    (ht : i.Takes digits l) (hn : NextNot Char.isDigit l.rest) : integer i =
      if decimalValue digits < integerBound then
        .ok (.integer (decimalValue digits) (extent i.offset digits)) l
      else .error ⟨.malformedExpression, extent i.offset digits, some .integerRange, none⟩ l := by
  have hrun : takeWhile Char.isDigit i = .ok digits l := takeWhile_eq_ok.mpr ⟨ht, hdigits, hn⟩
  rw [integer, offset_bind, bind_of_eq_ok hrun, spanFrom_bind, ht.span]
  split <;> rfl

/-- Where a digit comes next, a run of digits that goes as far as it can has one. -/
theorem digits_ne_nil {digits : List Char} {c : Char} (hc : i.rest.head? = some c)
    (hd : c.isDigit = true) (ht : i.Takes digits l) (hn : NextNot Char.isDigit l.rest) :
    digits ≠ [] := by
  intro hnil
  rw [hnil, Input.takes_nil] at ht
  rw [ht] at hn
  exact ne_of_class hd (hn c hc) rfl

/-- An integer whose first digit comes next. -/
theorem integer_eq_ok {e : Expr} {c : Char} (hc : i.rest.head? = some c)
    (hd : c.isDigit = true) :
    integer i = .ok e l ↔ ∃ digits, i.Takes digits l ∧ IsInteger digits ∧
      NextNot Char.isDigit l.rest ∧
      e = .integer (decimalValue digits) (extent i.offset digits) := by
  constructor
  · intro h
    obtain ⟨digits, m, hrun⟩ := exists_takeWhile_eq_ok Char.isDigit i
    obtain ⟨ht, hdigits, hn⟩ := takeWhile_eq_ok.mp hrun
    rw [integer_of_digits hdigits ht hn] at h
    split at h
    · rename_i hbound
      obtain ⟨rfl, rfl⟩ := ok_inj.mp h
      exact ⟨digits, ht, ⟨digits_ne_nil hc hd ht hn, hdigits, hbound⟩, hn, rfl⟩
    · exact absurd h (by simp)
  · intro h
    obtain ⟨digits, ht, ⟨_, hdigits, hbound⟩, hn, rfl⟩ := h
    rw [integer_of_digits hdigits ht hn, if_pos hbound]

end Reader

end LocaleText
