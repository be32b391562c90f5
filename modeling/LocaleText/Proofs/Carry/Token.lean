import LocaleText.Proofs.Carry.Basic

/-!
# Tokens elsewhere

Names, strings, integers and blanks are read elsewhere as they are read here.

* `Carries.takeWhile`, `.eat`, `.expect`, `.blanks` and `.gap` are the basic readers
* `Carries.ident`, `.quoted` and `.integer` are the tokens
-/

namespace LocaleText

namespace Reader

namespace Carries

variable {α β γ δ : Type} {i l : Input} {c : Char} {bound k : Nat} {g : γ → δ}

/-- A reader that yields a result on an input carries over with it. -/
theorem of_result {f : α → β} {x : Reader α} {y : Reader β} {a : α} {text : List Char}
    (hx : x i = .ok a l) (ht : i.Takes text l)
    (hy : ∀ rest, Alike l.rest rest →
      y ⟨i.offset + k, text ++ rest⟩ = .ok (f a) ⟨l.offset + k, rest⟩) :
    Carries bound k f x y i := by
  constructor
  · intro a' l' hrun
    obtain ⟨rfl, rfl⟩ := ok_inj.mp (hx.symm.trans hrun)
    exact ⟨text, ht, fun rest ha _ => hy rest ha⟩
  · intro e m hrun
    exact absurd (hx.symm.trans hrun) (by simp)

/-- A settled fault carries over with the text it arises from. -/
theorem of_settled {f : α → β} {x : Reader α} {y : Reader β} {e : Fault} {m : Input}
    {rest : List Char} (text : List Char) (hx : x i = .error e m) (hi : i.rest = text ++ rest)
    (hne : text ≠ []) (hs : e.Settled) (hk : e.kind ≠ .endOfInput ∧ e.kind ≠ .duplicateDefault)
    (hstop : e.span.stop = i.offset + byteLength text)
    (hsame : ∀ rest', rest.head? = rest'.head? →
      ∃ m', y ⟨i.offset + k, text ++ rest'⟩ = .error (e.shift k) m')
    (hnot : ∀ rest' b l, y ⟨i.offset + k, text ++ rest'⟩ ≠ .ok b l) :
    Carries bound k f x y i := by
  constructor
  · intro a l hok
    exact absurd (hx.symm.trans hok) (by simp)
  · intro e' m' he
    obtain ⟨rfl, rfl⟩ : e = e' ∧ m = m' := by simpa using hx.symm.trans he
    refine ⟨text, rest, ⟨hi, fun hnil => absurd hnil hne, Nat.le_of_lt hs.1, fun _ => hstop,
      fun h => absurd h hk.1, fun h => absurd hs h, fun h => absurd h hk.2⟩, fun rest' hr _ => ?_,
      fun _ rest' _ _ => hnot rest'⟩
    obtain ⟨m', hy⟩ := hsame rest' hr
    exact ⟨m', hy, fun h => absurd h hk.1⟩

/-- What is left behind a text moves with the text. -/
theorem takes_moved {text : List Char} (ht : i.Takes text l) (rest : List Char) :
    (⟨i.offset + k, text ++ rest⟩ : Input).Takes text ⟨l.offset + k, rest⟩ :=
  ⟨rfl, by rw [ht.offset, Nat.add_right_comm]⟩

/-! ### Characters and runs of characters -/

/-- The run stops at the same character. -/
theorem takeWhile (p : Char → Bool) :
    Carries bound k id (takeWhile p) (Reader.takeWhile p) i := by
  obtain ⟨text, l, hx⟩ := exists_takeWhile_eq_ok p i
  obtain ⟨ht, hp, hn⟩ := takeWhile_eq_ok.mp hx
  exact .of_result hx ht fun rest ha =>
    takeWhile_eq_ok.mpr ⟨takes_moved ht rest, hp, ha.nextNot hn⟩

theorem blanks : Carries bound k id blanks Reader.blanks i :=
  (takeWhile isBlank).bind fun _ _ _ _ => .pure rfl

theorem gap : Carries bound k (Gap.shift k) gap Reader.gap i := by
  refine .offset_bind ?_
  refine (takeWhile isBlank).bind fun text l _ _ => ?_
  exact .spanFrom_bind (.pure rfl)

/-- By cases on whether the character comes next. When it is taken, less is left. -/
theorem eat_bind {u : Bool → Reader γ} {v : Bool → Reader δ}
    (ht : ∀ l, i.Takes [c] l → Carries bound k g (u true) (v true) l)
    (hf : i.rest.head? ≠ some c → Carries (bound + 1) k g (u false) (v false) i) :
    Carries (bound + 1) k g (eat c >>= u) (eat c >>= v) i := by
  have heat : ∀ {ε : Type} (w : Bool → Reader ε), (eat c >>= w) =
      (peek? >>= fun c? => if c? = some c then skip >>= fun _ => w true else w false) := by
    intro ε w
    rw [eat, bind_assoc]
    refine bind_congr fun c? => ?_
    split
    · rw [bind_assoc]
      exact bind_congr fun _ => pure_bind ..
    · exact pure_bind ..
  rw [heat, heat]
  refine .peek?_bind ?_
  by_cases hc : i.rest.head? = some c
  · rw [if_pos hc, if_pos hc]
    exact .skip_bind hc ht
  · rw [if_neg hc, if_neg hc]
    exact hf hc

theorem eat : Carries bound k id (eat c) (Reader.eat c) i := by
  have h : Carries (bound + 1) k id (Reader.eat c >>= Pure.pure) (Reader.eat c >>= Pure.pure) i :=
    .eat_bind (fun _ _ => .pure rfl) (fun _ => .pure rfl)
  rw [bind_pure] at h
  exact h.mono (Nat.le_succ bound)

/-- A character that is expected, or the fault at another one. -/
theorem expect {kind : FaultKind}
    (hk : kind ≠ .endOfInput ∧ kind ≠ .unterminatedString ∧ kind ≠ .duplicateDefault) :
    Carries bound k id (expect c kind) (Reader.expect c kind) i := by
  have h : Carries (bound + 1) k id (Reader.expect c kind) (Reader.expect c kind) i := by
    refine .eat_bind (fun _ _ => .pure rfl) fun _ => ?_
    refine .peek?_bind ?_
    cases hi : i.rest.head? with
    | none =>
      refine .fail_here rfl (fun _ => by simp [FaultKind.unsettled]) (fun hne => ?_) (by simp)
      exact absurd (List.head?_eq_none_iff.mp hi) hne
    | some d =>
      refine .fail_here rfl (fun hnil => ?_) (fun _ => ⟨hk.1, hk.2.1⟩) hk.2.2
      simp [hnil] at hi
  exact h.mono (Nat.le_succ bound)

/-! ### Names, strings and integers -/

/-- A name, with quotes or without. -/
theorem ident : Carries bound k (Ident.shift k) ident Reader.ident i := by
  unfold Reader.ident
  refine .offset_bind (.peek?_bind ?_)
  have hend : ∀ name j, Carries bound k (Ident.shift k)
      (spanFrom i.offset >>= fun span => Pure.pure ⟨String.ofList name, span⟩)
      (spanFrom (i.offset + k) >>= fun span => Pure.pure ⟨String.ofList name, span⟩) j :=
    fun _ _ => .spanFrom_bind (.pure rfl)
  cases hq : i.rest.head?.filter isQuote with
  | none =>
    refine (takeWhile isWordChar).bind fun name l _ _ => ?_
    exact .ite (fun _ => .unexpected (by decide)) fun _ => hend name l
  | some quote =>
    obtain ⟨hc, _⟩ := Option.filter_eq_some_iff.mp hq
    refine (skip_bind hc fun l _ => ?_).mono (Nat.le_succ bound)
    refine (takeWhile isWordChar).bind fun name l _ _ => ?_
    refine .ite (fun _ => .unexpected (by decide)) fun _ => ?_
    refine .bind (f := id) (eat.map fun _ => rfl) fun _ l _ _ => ?_
    exact hend name l

/-- By cases on whether the string is closed: if it is, what follows does not matter, and if it is
not, nothing follows. -/
theorem quoted (hc : i.rest.head? = some c) :
    Carries bound k (Value.shift k) (quoted c) (Reader.quoted c) i := by
  obtain ⟨l, hl⟩ := Input.exists_takes_head hc
  have hrun : ∀ {j l : Input}, j.Takes [c] l → splitAtQuote c false l.rest = none →
      Reader.quoted c j =
        .error ⟨.unterminatedString, ⟨j.offset, l.finish⟩, some (.missingQuote c), none⟩ l := by
    intro j l hl hsplit
    rw [Reader.quoted, Reader.offset_bind]
    simp only [Bind.bind, EStateM.bind, skip_eq_ok hl, hsplit]
  have heven : false = true ↔ 0 % 2 = 1 := by simp
  cases hsplit : splitAtQuote c false l.rest with
  | some cut =>
    obtain ⟨content, rest⟩ := cut
    obtain ⟨hrest, hcontent⟩ := (splitAtQuote_eq_some_iff heven).mp hsplit
    have ht : i.Takes (c :: (content ++ [c])) (i.after (c :: (content ++ [c])) rest) :=
      Input.takes_after (by rw [hl.rest, hrest]; simp)
    refine .of_result ((quoted_eq_ok hc).mpr ⟨content, ht, hcontent, rfl⟩) ht fun rest' _ => ?_
    refine (quoted_eq_ok rfl).mpr ⟨content, takes_moved ht rest', hcontent, ?_⟩
    simp only [Value.shift, extent, Span.shift, Nat.add_right_comm]
  | none =>
    have hi : i.rest = c :: l.rest := hl.rest
    constructor
    · intro v m hok
      exact absurd ((hrun hl hsplit).symm.trans hok) (by simp)
    · intro e m he
      obtain ⟨rfl, rfl⟩ : _ = e ∧ l = m := by simpa using (hrun hl hsplit).symm.trans he
      have hopen : ¬ Fault.Settled
          ⟨.unterminatedString, ⟨i.offset, l.finish⟩, some (.missingQuote c), none⟩ :=
        fun hs => hs.2 rfl
      refine ⟨c :: l.rest, [], ⟨by rw [hi, List.append_nil], fun hnil => absurd hnil (by simp), ?_, ?_,
        fun hk => absurd hk (by simp), fun _ => by simp [FaultKind.unsettled],
        fun hk => absurd hk (by simp)⟩, fun rest' hr _ => ?_, fun hs => absurd hs hopen⟩
      · simp only [Input.finish, hl.offset]
        omega
      · intro _
        simp only [Input.finish, hl.offset, byteLength_cons, byteLength_nil]
        omega
      · rw [List.head?_nil, eq_comm, List.head?_eq_none_iff] at hr
        rw [hr, List.append_nil]
        have hj := takes_moved (k := k) hl l.rest
        refine ⟨⟨l.offset + k, l.rest⟩, (hrun hj hsplit).trans ?_, fun hk => absurd hk (by simp)⟩
        simp only [Fault.shift, Span.shift, Input.finish, Nat.add_right_comm, Option.map_none]

/-- Digits that follow do not make an integer smaller. -/
theorem decimalValue_append (s t : List Char) : decimalValue s ≤ decimalValue (s ++ t) := by
  have hfold : ∀ (t : List Char) (n : Nat),
      n ≤ t.foldl (fun value c => 10 * value + digitValue c) n := by
    intro t
    induction t with
    | nil => exact fun n => Nat.le_refl n
    | cons c t ih =>
      intro n
      exact Nat.le_trans (by omega) (ih (10 * n + digitValue c))
  rw [decimalValue, decimalValue, List.foldl_append]
  exact hfold t _

/-- By cases on whether the integer is in range. One that is not stays so if more digits follow. -/
theorem integer (hc : i.rest.head? = some c) (hd : c.isDigit = true) :
    Carries bound k (Expr.shift k) integer Reader.integer i := by
  obtain ⟨digits, l, hdigits⟩ := exists_takeWhile_eq_ok Char.isDigit i
  obtain ⟨ht, hdigits, hn⟩ := takeWhile_eq_ok.mp hdigits
  have hne := digits_ne_nil hc hd ht hn
  by_cases hsmall : decimalValue digits < integerBound
  · have hinteger : IsInteger digits := ⟨hne, hdigits, hsmall⟩
    refine .of_result ((integer_eq_ok hc hd).mpr ⟨digits, ht, hinteger, hn, rfl⟩) ht fun rest ha => ?_
    have hc' : (digits ++ rest).head? = some c := by
      rw [← hc, ht.rest]
      exact (ha.append digits).head.symm
    refine (integer_eq_ok hc' hd).mpr ⟨digits, takes_moved ht rest, hinteger, ha.nextNot hn, ?_⟩
    simp only [Expr.shift, extent, Span.shift, Nat.add_right_comm]
  · refine of_settled digits ((integer_of_digits hdigits ht hn).trans (if_neg hsmall)) ht.rest hne
      ⟨?_, by simp⟩ (by simp) rfl (fun rest' hr => ?_) fun rest' e left hok => ?_
    · obtain ⟨d, ds, rfl⟩ := List.exists_cons_of_ne_nil hne
      have hpos := d.utf8Size_pos
      simp only [extent, byteLength_cons]
      omega
    · have hn' : NextNot Char.isDigit rest' := fun d hd => hn d (by rw [hr]; exact hd)
      refine ⟨⟨l.offset + k, rest'⟩, ?_⟩
      rw [integer_of_digits hdigits (takes_moved ht rest') hn', if_neg hsmall]
      simp [extent, Fault.shift, Span.shift, Nat.add_right_comm]
    · have hc' : (digits ++ rest').head? = some c := by
        rw [← hc, ht.rest]
        exact head?_append_congr hne
      obtain ⟨digits', ht', ⟨_, _, hrange⟩, hn', _⟩ := (integer_eq_ok hc' hd).mp hok
      -- all of the digits are taken, and maybe more
      rcases List.append_eq_append_iff.mp ht'.rest with ⟨more, rfl, _⟩ | ⟨more, hmore, hleft⟩
      · exact hsmall (Nat.lt_of_le_of_lt (decimalValue_append digits more) hrange)
      · cases more with
        | nil =>
          rw [List.append_nil] at hmore
          exact hsmall (hmore ▸ hrange)
        | cons d more =>
          have hdigit := hdigits d (by rw [hmore]; simp)
          rw [hn' d (by rw [hleft]; rfl)] at hdigit
          exact absurd hdigit (by decide)

end Carries

end Reader

end LocaleText
