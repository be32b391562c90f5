import LocaleText.Proofs.Completion.Basic

/-!
# Completing tokens

What completes a name, a string, a number or a key that the source ends within. A name needs a
letter when it has none, a string its quote, and a backslash at the end of a string a character
behind it.

* `Completes.of_result` and `Completes.of_error` are about readers that have one way to end
* `Completes.blanks`, `.gap` and `.expect` are the basic readers
* `Completes.ident`, `.quoted` and `.integer` are the tokens
* `Completes.optionalComma` is the comma between two parts of a composite, which may be left out
* `Completes.keyed` is a key with what it stands before
-/

namespace LocaleText

open Filter (atTop Tendsto)

namespace Reader

variable {α β : Type} {i l : Input} {c : Char} {F K : List Char → Prop} {m q : Nat}

namespace Completes

/-! ### Blanks and single characters -/

/-- A reader that leaves nothing has no need of a text that completes it. -/
theorem of_result {x : Reader α} {y : Reader β} {a : α} (hF : ∀ rest, F rest → Detached rest)
    (hx : x i = .ok a l) (hy : l.rest = [] → ∀ rest, F rest → EndsBefore y (i.append rest) rest) :
    Completes m F x (fun _ => y) i := by
  intro h
  rcases h with ⟨_, m, hrun, hm⟩ | ⟨_, _, hrun, _⟩
  · obtain ⟨_, rfl⟩ := ok_inj.mp (hx.symm.trans hrun)
    exact ⟨[], Nat.zero_le _, fun rest hrest => ⟨hF rest hrest, .of_forall fun _ => hy hm rest hrest⟩⟩
  · exact absurd (hx.symm.trans hrun) (by simp)

/-- What is taken at the end is taken with text behind it, and that is left. -/
theorem append_takes {text rest : List Char} (ht : i.Takes text l) (hl : l.rest = []) :
    (i.append rest).Takes text ⟨l.offset, rest⟩ := by
  have hmore := ht.append rest
  have hleft : l.append rest = ⟨l.offset, rest⟩ := by rw [Input.append, hl, List.nil_append]
  rwa [hleft] at hmore

theorem blanks : Completes m Solid blanks (fun _ => Reader.blanks) i := by
  obtain ⟨gap, l, hl⟩ := exists_skips i
  refine of_result (fun _ h => h.2) (blanks_eq_ok.mpr ⟨gap, hl⟩) fun hnil rest hrest => ?_
  exact .of_ok (blanks_eq_ok.mpr ⟨gap, append_takes hl.takes hnil, hl.blank, hrest.1⟩)

theorem gap : Completes m Solid gap (fun _ => Reader.gap) i := by
  obtain ⟨text, l, hl⟩ := exists_skips i
  refine of_result (fun _ h => h.2) (gap_eq_ok.mpr ⟨text, hl, rfl⟩) fun hnil rest hrest => ?_
  exact .of_ok (gap_eq_ok.mpr ⟨text, ⟨append_takes hl.takes hnil, hl.blank, hrest.1⟩, rfl⟩)

/-- A reader that stops at a fault in the text has not run out. -/
theorem of_error {x : Reader α} {y : Nat → Reader β} {e : Fault} (hx : x i = .error e l)
    (hk : e.kind ∉ FaultKind.truncated) : Completes m F x y i := by
  refine of_not fun h => ?_
  rcases h with ⟨_, _, hrun, _⟩ | ⟨_, _, hrun, hkind⟩
  · exact absurd (hx.symm.trans hrun) (by simp)
  · obtain ⟨rfl, _⟩ : e = _ ∧ l = _ := by simpa using hx.symm.trans hrun
    exact hk hkind

/-- A fault at the next character is one of the source only where there is none. -/
theorem nil_of_unexpected {kind : FaultKind} {e : Fault}
    (h : (Reader.unexpected kind : Reader α) i = .error e l) (hk : kind ∉ FaultKind.truncated)
    (he : e.kind ∈ FaultKind.truncated) : i.rest = [] := by
  by_contra hi
  obtain ⟨c, cs, hc⟩ := List.exists_cons_of_ne_nil hi
  simp only [Reader.unexpected, hc, EStateM.Result.error.injEq] at h
  rw [← h.1] at he
  exact hk he

theorem unexpected {kind : FaultKind} {y : Nat → Reader β} (hi : i.rest ≠ [])
    (hk : kind ∉ FaultKind.truncated) : Completes m F (unexpected kind : Reader α) y i := by
  refine of_not fun h => ?_
  rcases h with ⟨_, _, hrun, _⟩ | ⟨_, _, hrun, he⟩
  · exact unexpected_ne_ok hrun
  · exact hi (nil_of_unexpected hrun hk he)

/-- A character that is missing at the end is added. -/
theorem expect {kind : FaultKind} (hF : ∀ rest, F rest → Detached rest) (hc : c ∉ seconds)
    (hk : kind ∉ FaultKind.truncated) (hsize : c.utf8Size = 1) :
    Completes (m + 1) F (expect c kind) (fun _ => Reader.expect c kind) i := by
  have hstart : ∀ rest, Detached ([c] ++ rest) := fun _ => nextNot_cons.mpr (by simpa using hc)
  refine eat_bind (fun hi => ?_) (fun _ _ => .pure hF) fun hi _ => ?_
  · refine .of_fresh hi (fun _ h => h) (Nat.le_add_left 1 m)
      ⟨[c], ?_, fun rest _ => ⟨hstart rest, ?_⟩⟩
    · rw [byteLength_cons, hsize, byteLength_nil]
    exact .of_forall fun _ _ _ => .expect
  · obtain ⟨d, ds, hd⟩ := List.exists_cons_of_ne_nil hi
    refine of_error (e := ⟨kind, i.here, some (.expectedFound c d), none⟩) (l := i) ?_ hk
    obtain ⟨o, v⟩ := i
    obtain rfl : v = d :: ds := hd
    rfl

/-! ### Names, strings and integers -/

/-- The characters of a name are missing only at the end of the source. -/
theorem nil_of_name {k : List Char → Reader α} {kind : FaultKind} {e : Fault}
    (hkind : kind ∉ FaultKind.truncated) (hk : ∀ name m, ∃ r m', k name m = .ok r m')
    (h : (takeWhile isWordChar >>= fun name =>
      if name.isEmpty = true then Reader.unexpected kind else k name) i = .error e l)
    (he : e.kind ∈ FaultKind.truncated) : i.rest = [] := by
  rcases bind_eq_error.mp h with h | ⟨name, m, hname, h⟩
  · exact absurd h (by simp [takeWhile])
  · split at h
    · rename_i hempty
      obtain ⟨ht, -, -⟩ := takeWhile_eq_ok.mp hname
      rw [List.isEmpty_iff.mp hempty, Input.takes_nil] at ht
      rw [← ht]
      exact nil_of_unexpected h hkind he
    · obtain ⟨r, m', hrun⟩ := hk name m
      exact absurd (hrun.symm.trans h) (by simp)

theorem exists_eat_eq_ok (c : Char) (i : Input) : ∃ b l, Reader.eat c i = .ok b l := by
  by_cases hc : i.rest.head? = some c
  · obtain ⟨l, hl⟩ := Input.exists_takes_head hc
    exact ⟨true, l, eat_eq_ok.mpr (.inl ⟨hl, rfl⟩)⟩
  · exact ⟨false, i, eat_eq_ok.mpr (.inr ⟨hc, rfl, rfl⟩)⟩

/-- A name that runs out is missing, or nothing but a quote stands for it. -/
theorem nil_or_quote_of_ident {e : Fault} (h : Reader.ident i = .error e l)
    (he : e.kind ∈ FaultKind.truncated) :
    i.rest = [] ∨ ∃ q, isQuote q = true ∧ i.rest = [q] := by
  have hkind : FaultKind.malformedIdentifier ∉ FaultKind.truncated := by decide
  cases hf : i.rest.head?.filter isQuote with
  | none =>
    simp only [Reader.ident, Reader.offset_bind, Reader.peek?_bind, hf, Option.isSome_none,
      Bool.false_eq_true, if_false] at h
    exact .inl (nil_of_name hkind (fun _ _ => ⟨_, _, rfl⟩) h he)
  | some quote =>
    obtain ⟨hd, hq⟩ := Option.filter_eq_some_iff.mp hf
    obtain ⟨m, hm⟩ := Input.exists_takes_head hd
    simp only [Reader.ident, Reader.offset_bind, Reader.peek?_bind, hf, Option.isSome_some, if_true,
      Reader.skip_bind hm] at h
    have hnil : m.rest = [] := by
      refine nil_of_name hkind (fun name m => ?_) h he
      obtain ⟨b, m', heat⟩ := exists_eat_eq_ok quote m
      refine ⟨⟨String.ofList name, ⟨i.offset, m'.offset⟩⟩, m', ?_⟩
      rw [unit_bind_eq_ok]
      exact ⟨m', discard_eq_ok.mpr ⟨b, heat⟩, rfl⟩
    exact .inr ⟨quote, hq, by rw [hm.rest, hnil]; rfl⟩

theorem fresh_ident : Fresh 1 Solid AfterToken fun (_ : Unit) _ => Reader.ident := by
  refine ⟨['x'], by decide, fun rest hrest =>
    ⟨.cons (by decide) (by decide), .of_forall fun _ _ o => ?_⟩⟩
  have ht : (⟨o, ['x'] ++ rest⟩ : Input).Takes ['x'] ⟨o + byteLength ['x'], rest⟩ := ⟨rfl, rfl⟩
  have hname : NameText ['x'] (Ident.mk "x" (extent o ['x'])).name .word := .bare (by decide)
  exact .of_ok (ident_eq_ok.mpr ⟨_, _, ht, hname, rfl, hrest.1 _⟩)

/-- A name that has no letter yet gets one. -/
theorem ident : Completes 1 AfterToken ident (fun _ => Reader.ident) i := by
  intro h
  rcases h with ⟨id, l, hrun, hl⟩ | ⟨e, m, hrun, hk⟩
  · obtain ⟨text, ending, ht, hname, hspan, -⟩ := ident_eq_ok.mp hrun
    refine ⟨[], Nat.zero_le _, fun rest hrest => ⟨hrest.2, .of_forall fun _ => ?_⟩⟩
    exact .of_ok (ident_eq_ok.mpr ⟨text, ending, append_takes ht hl, hname, hspan, hrest.1 ending⟩)
  · rcases nil_or_quote_of_ident hrun hk with hi | ⟨q, hq, hi⟩
    · exact .of_fresh hi (fun _ h => h.2) (Nat.le_refl 1) fresh_ident
    · have hname : IsName ['x'] := by decide
      refine ⟨['x'], Nat.le_add_left 1 _, fun rest hrest =>
        ⟨nextNot_cons.mpr (by decide), .of_forall fun _ => ?_⟩⟩
      have ht : (i.append (['x'] ++ rest)).Takes [q, 'x'] ⟨i.offset + byteLength [q, 'x'], rest⟩ :=
        ⟨by rw [Input.append, hi]; rfl, rfl⟩
      have hspells : NameText [q, 'x'] (Ident.mk "x" (extent i.offset [q, 'x'])).name (.opened q) :=
        .opened hname hq
      exact .of_ok (ident_eq_ok.mpr ⟨_, _, ht, hspells, rfl, hrest.1 _⟩)

/-- A string that is not closed is closed by its quote, behind one more backslash where the quote
would not count. -/
theorem exists_close {quote : Char} {odd : Bool} {text : List Char}
    (h : splitAtQuote quote odd text = none) : ∃ escape, (escape = [] ∨ escape = ['\\']) ∧
      ∀ rest, splitAtQuote quote odd (text ++ (escape ++ quote :: rest)) =
        some (text ++ escape, rest) := by
  induction text generalizing odd with
  | nil =>
    cases odd with
    | false => exact ⟨[], .inl rfl, fun rest => by simp [splitAtQuote]⟩
    | true => exact ⟨['\\'], .inr rfl, fun rest => by simp [splitAtQuote]⟩
  | cons c text ih =>
    rw [splitAtQuote] at h
    split at h
    · exact absurd h (by simp)
    · rename_i hc
      obtain ⟨escape, hescape, hsplit⟩ := ih (Option.map_eq_none_iff.mp h)
      refine ⟨escape, hescape, fun rest => ?_⟩
      rw [List.cons_append, splitAtQuote, if_neg hc, hsplit]
      rfl

/-- A string gets its quote, if it has been opened. -/
theorem quoted {quote : Char} (hc : i.rest.head? = some quote) (hq : isQuote quote = true) :
    Completes 2 Detached (quoted quote) (fun _ => Reader.quoted quote) i := by
  obtain ⟨l, hl⟩ := Input.exists_takes_head hc
  have heven : false = true ↔ 0 % 2 = 1 := by simp
  have hhead := Input.head?_append_of_head? hc
  intro h
  rcases h with ⟨v, m, hrun, hm⟩ | ⟨e, m, hrun, -⟩
  · obtain ⟨content, ht, hcontent, -⟩ := (quoted_eq_ok hc).mp hrun
    refine ⟨[], Nat.zero_le _, fun rest hrest => ⟨hrest, .of_forall fun _ => ?_⟩⟩
    exact .of_ok ((quoted_eq_ok (hhead _)).mpr ⟨content, append_takes ht hm, hcontent, rfl⟩)
  · cases hsplit : splitAtQuote quote false l.rest with
    | some cut =>
      obtain ⟨content, rest⟩ := cut
      obtain ⟨hrest, hcontent⟩ := (splitAtQuote_eq_some_iff heven).mp hsplit
      have ht : i.Takes (quote :: (content ++ [quote])) (i.after (quote :: (content ++ [quote])) rest) :=
        Input.takes_after (by rw [hl.rest, hrest]; simp)
      exact absurd (((quoted_eq_ok hc).mpr ⟨content, ht, hcontent, rfl⟩).symm.trans hrun) (by simp)
    | none =>
      obtain ⟨escape, hescape, hclose⟩ := exists_close hsplit
      refine ⟨escape ++ [quote], ?_, fun rest _ => ⟨?_, .of_forall fun _ => ?_⟩⟩
      · refine Nat.le_trans ?_ (Nat.le_add_left 2 _)
        rcases hescape with rfl | rfl <;> rcases isQuote_iff.mp hq with rfl | rfl <;> decide
      · rcases hescape with rfl | rfl
        · rcases isQuote_iff.mp hq with rfl | rfl <;> exact nextNot_cons.mpr (by decide)
        · exact nextNot_cons.mpr (by decide)
      · obtain ⟨_, hcontent⟩ := (splitAtQuote_eq_some_iff heven).mp (hclose rest)
        have ht : (i.append (escape ++ [quote] ++ rest)).Takes
            (quote :: (l.rest ++ escape ++ [quote]))
            ((i.append (escape ++ [quote] ++ rest)).after _ rest) :=
          Input.takes_after (by rw [Input.append, hl.rest]; simp)
        exact .of_ok ((quoted_eq_ok (hhead _)).mpr ⟨_, ht, hcontent, rfl⟩)

theorem integer (hc : i.rest.head? = some c) (hd : c.isDigit = true) :
    Completes m AfterToken integer (fun _ => Reader.integer) i := by
  intro h
  rcases h with ⟨e, l, hrun, hl⟩ | ⟨e, m, hrun, hk⟩
  · obtain ⟨digits, ht, hdigits, -⟩ := (integer_eq_ok hc hd).mp hrun
    have hhead := Input.head?_append_of_head? hc
    refine ⟨[], Nat.zero_le _, fun rest hrest => ⟨hrest.2, .of_forall fun _ => ?_⟩⟩
    have hdigit : NextNot Char.isDigit rest := hrest.1 .digits
    exact .of_ok ((integer_eq_ok (hhead _) hd).mpr
      ⟨digits, append_takes ht hl, hdigits, hdigit, rfl⟩)
  · -- an integer that is out of range stays so
    obtain ⟨digits, l, hdigits⟩ := exists_takeWhile_eq_ok Char.isDigit i
    obtain ⟨ht, hdigits, hnext⟩ := takeWhile_eq_ok.mp hdigits
    rw [integer_of_digits hdigits ht hnext] at hrun
    split at hrun
    · exact absurd hrun (by simp)
    · obtain ⟨rfl, -⟩ := EStateM.Result.error.inj hrun
      exact absurd hk (show FaultKind.malformedExpression ∉ FaultKind.truncated by decide)

end Completes

/-! ### Keys and separators -/

namespace Fresh

variable {ι : Type} {v : ι → Nat → Reader β}

theorem blanks_bind (hK : ∀ v, K v → Solid v) (h : Fresh q K F v) :
    Fresh q K F fun b n => Reader.blanks >>= fun _ => v b n :=
  h.pass fun _ _ hrest => .blanks (hK _ hrest).1

/-- A closing character stands behind a comma that is left out. -/
theorem optionalComma_bind (h : Fresh q Closed F v) :
    Fresh q Closed F fun b n => Reader.optionalComma >>= fun _ => v b n :=
  h.pass fun _ _ hrest => .eat_bind_of_ne (hrest.ne (by decide)) .pure

end Fresh

namespace Completes

theorem optionalComma :
    Completes m Closed optionalComma (fun _ => Reader.optionalComma) i := by
  refine eat_bind (fun hi => ?_) (fun _ _ => ?_) fun _ _ => ?_
  · refine .of_fresh hi (fun _ h => h.detached) (Nat.zero_le m)
      ⟨[], Nat.le_refl 0, fun rest hrest => ⟨hrest, .of_forall fun _ _ _ => ?_⟩⟩
    exact .eat_bind_of_ne (hrest.ne (by decide)) .pure
  · exact blanks.mono fun _ h => h.solid
  · exact .pure fun _ h => h.detached

theorem blanks_bind {u : Unit → Reader α} {v : Unit → Nat → Reader β} (hfresh : Fresh q Solid F v)
    (hm : q ≤ m) (hu : ∀ l : Input, l.rest.length ≤ i.rest.length → l.rest ≠ [] →
      Completes m F (u ()) (v ()) l) :
    Completes m F (Reader.blanks >>= u) (fun n => Reader.blanks >>= fun a => v a n) i :=
  bind (.const fun _ => .blanks) (blanks (m := 0)) hfresh (by omega) fun _ l _ => hu l

theorem fresh_colon {ι : Type} {value : Nat → Reader α} (h : Fresh q Solid F fun _ : Unit => value)
    (key : ι → Ident) : Fresh (q + 1) (Begins ':') F fun b n => eat ':' >>= fun found =>
      if found = true then Reader.blanks >>= fun _ => value n >>= fun item => Pure.pure (key b, item)
      else Reader.unexpected .expectedKeyValueSeparator := by
  obtain ⟨text, hsize, htext⟩ := h
  refine ⟨':' :: text, ?_, fun rest hrest => ⟨rfl, ?_⟩⟩
  · rw [byteLength_cons, show ':'.utf8Size = 1 from rfl]
    omega
  obtain ⟨hsolid, hends⟩ := htext rest hrest
  filter_upwards [hends] with n hn
  intro key o
  refine .eat_bind fun o => ?_
  exact (EndsBefore.blanks hsolid.1).bind fun _ o => (hn () o).bind fun _ _ => .pure

theorem solid_of_colon (v : List Char) (h : Begins ':' v) : Solid v := h.solid (by decide) (by decide)

/-- A key of one letter, and the colon. -/
theorem fresh_keyed {value : Nat → Reader α} (h : Fresh q Solid F fun _ : Unit => value) :
    Fresh (1 + (q + 1)) Solid F fun (_ : Unit) n => Reader.keyed (value n) := by
  refine fresh_ident.bind (.mono (fun _ hv => ?_) (.blanks_bind solid_of_colon (fresh_colon h Prod.snd)))
  exact hv.afterToken (fun ending => ending.continues_of_mem_delimiters (by decide)) (by decide)

/-- By cases on where the source ends: within the name, before the colon, or behind it. -/
theorem keyed {value : Reader α} {value' : Nat → Reader β}
    (h : ∀ l : Input, l.rest.length < i.rest.length → Completes m F value value' l)
    (hfresh : Fresh q Solid F fun _ : Unit => value') (hm : q + 2 ≤ m) :
    Completes m F (keyed value) (fun n => Reader.keyed (value' n)) i := by
  refine bind (.const fun _ => .ident) ident
    (.mono (fun _ hv => ?_) (.blanks_bind solid_of_colon (fresh_colon hfresh id))) (by omega)
    fun key l _ hlen _ => ?_
  · exact hv.afterToken (fun ending => ending.continues_of_mem_delimiters (by decide)) (by decide)
  refine blanks_bind (.mono solid_of_colon (fresh_colon hfresh _)) (by omega) fun j hj _ => ?_
  refine eat_bind (fun hnil => ?_) (fun k hk => ?_) fun hne _ => .unexpected hne (by decide)
  · exact .of_fresh hnil (fun _ hv => (solid_of_colon _ hv).2) (by omega) (fresh_colon hfresh fun _ => _)
  · refine blanks_bind (hfresh.bind .pure) (by omega) fun l' hl' _ => ?_
    have hlt := hk.length_lt (by simp)
    exact ((h l' (by omega)).bind_still (fun _ _ => ⟨_, rfl⟩) fun _ _ _ => ⟨_, rfl⟩).le (by omega)

end Completes

end Reader

end LocaleText
