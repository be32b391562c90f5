import LocaleText.Proofs.Locality
import LocaleText.Proofs.Pointing.Basic
import LocaleText.Proofs.Reading.Rounds
import LocaleText.Report

/-!
# Errors that point into the source

Wherever reading stops, the fault is about a part of the source. Each lemma follows a reader of the
grammar and puts its parts together.

* `Points.value` to `Points.expression` are about values and expressions, under the hypothesis
  `Points` about the readers of the expressions one level further in
* `Points.entry` and `Points.items` are about entries and whole sources
* `Resource.pointsInto_of_ofChars` says that every fault of a source points into it
* `Resource.read_error_points` is the result for the errors of a source and the spans that a report
  of them shows
-/

namespace LocaleText

namespace Reader

variable {α : Type} {source : List Char} {i : Input} {c : Char}

namespace Points

/-! ### Tokens -/

/-- Where a name is missing, the character that stands there is to blame. -/
theorem ident : Points source ident i := by
  unfold Reader.ident
  refine .offset_bind (.peek?_bind ?_)
  have hend : ∀ (name : List Char) (j : Input), Points source
      (Reader.spanFrom i.offset >>= fun span => Pure.pure (⟨String.ofList name, span⟩ : Ident)) j :=
    fun _ _ => (Points.spanFrom _).andThen fun _ _ => .pure _
  cases hq : i.rest.head?.filter isQuote with
  | none =>
    refine (Points.takeWhile isWordChar).andThen fun name l => ?_
    exact .ite (fun _ => .unexpected (by decide)) fun _ => hend name l
  | some quote =>
    refine Points.skip.andThen fun _ l => ?_
    refine (Points.takeWhile isWordChar).andThen fun name l => ?_
    refine .ite (fun _ => .unexpected (by decide)) fun _ => ?_
    exact ((Points.eat quote).map _).andThen fun _ l => hend name l

/-- An open string is to blame from its quote to the end of the source. -/
theorem quoted (hc : i.rest.head? = some c) : Points source (quoted c) i := by
  obtain ⟨m, hm⟩ := Input.exists_takes_head hc
  refine .offset_bind (Points.skip.bind fun _ l hi hskip _ => ?_)
  obtain rfl : m = l := (ok_inj.mp ((skip_eq_ok hm).symm.trans hskip)).2
  cases hsplit : splitAtQuote c false m.rest with
  | some cut =>
    obtain ⟨content, rest⟩ := cut
    have heven : false = true ↔ 0 % 2 = 1 := by simp
    obtain ⟨ht, _⟩ := (splitAtQuote_eq_some_iff heven).mp hsplit
    have hl : m.Takes (content ++ [c]) (m.after (content ++ [c]) rest) :=
      Input.takes_after (by rw [ht, List.append_assoc]; rfl)
    refine .of_takes (by simp [hsplit]) fun a l hrun => ⟨content ++ [c], ?_⟩
    obtain ⟨-, rfl⟩ : _ ∧ m.after (content ++ [c]) rest = l := by simpa [hsplit] using hrun
    exact hl
  | none =>
    refine ⟨fun _ h => absurd h (by simp [hsplit]), fun {e k} _ h => ?_⟩
    obtain ⟨rfl, -⟩ : ⟨.unterminatedString, ⟨i.offset, m.finish⟩, some (.missingQuote c), none⟩ = e ∧
        m = k := by simpa [hsplit] using h
    have hrest : i.Takes (c :: m.rest) ⟨m.finish, []⟩ := by
      refine hm.trans (t := m.rest) ⟨(List.append_nil _).symm, rfl⟩
    have hspan : (⟨i.offset, m.finish⟩ : Span) = extent i.offset (c :: m.rest) := hrest.span
    rw [hspan]
    exact ⟨.part (by decide) (hi.covers hrest) (by simp), fun h => absurd h (by simp)⟩

/-- An integer out of range has at least one digit. -/
theorem integer (hc : i.rest.head? = some c) (hd : c.isDigit = true) :
    Points source integer i := by
  refine .offset_bind ((Points.takeWhile Char.isDigit).bind fun digits l hi hdigits _ => ?_)
  obtain ⟨ht, -, hnext⟩ := takeWhile_eq_ok.mp hdigits
  have hne := digits_ne_nil hc hd ht hnext
  refine .of_eq (spanFrom_bind _ _) (.ite (fun _ => .pure _) fun _ => ?_)
  refine ⟨fun _ h => absurd h fail_ne_ok, fun {e k} _ h => ?_⟩
  obtain ⟨rfl, -⟩ := EStateM.Result.error.inj h
  rw [ht.span]
  exact ⟨.part (by decide) (hi.covers ht) fun h => absurd h hne, fun h => absurd h (by simp)⟩

/-! ### Composites -/

theorem optionalComma : Points source optionalComma i :=
  .eat_bind (fun _ _ => .blanks) fun _ => .pure ()

theorem keyed {value : Reader α} (hv : ∀ i, Points source value i) :
    Points source (keyed value) i := by
  refine Points.ident.andThen fun key _ => ?_
  refine Points.blanks.andThen fun _ _ => ?_
  refine (Points.eat ':').andThen fun _ _ => .ite (fun _ => ?_) fun _ => .unexpected (by decide)
  refine Points.blanks.andThen fun _ _ => ?_
  exact (hv _).andThen fun _ _ => .pure _

section Composites

variable {inner : Nesting → Reader Expr} {bound : Nat} {n : Nesting} {composite : Composite}
  {opener : Span}

theorem expressionRound (h : ∀ n i, Points source (inner n) i)
    (ho : opener.Covers source [composite.opener]) (items : Array Expr) :
    Points source (expressionRound inner n composite opener items) i := by
  refine .peek?_bind ?_
  cases hc : i.rest.head? with
  | none => exact .unterminated ho (List.head?_eq_none_iff.mp hc)
  | some c =>
    refine .ite (fun _ => Points.skip.andThen fun _ _ => .pure _) fun _ => ?_
    refine ((h n i).within ho).andThen fun item _ => ?_
    refine Points.blanks.andThen fun _ _ => ?_
    exact Points.optionalComma.andThen fun _ _ => .pure _

/-- What comes next opens the composite. -/
theorem expressions (h : ∀ n i, Points source (inner n) i)
    (hc : i.rest.head? = some composite.opener) :
    Points source (expressions inner bound n composite) i := by
  refine Points.here.bind fun opener l hi hl _ => ?_
  obtain ⟨rfl, rfl⟩ : i.here = opener ∧ i = l := ok_inj.mp hl
  refine Points.skip.andThen fun _ _ => Points.blanks.andThen fun _ _ => ?_
  exact .repeatUpTo (fun items _ => .expressionRound h (hi.here_covers hc) items) bound #[] _

variable {marker : Span} {entries : Keyed Expr} {default : Option (String × Span)}

/-- The mark of a first default that comes before an offset. -/
def Marks (source : List Char) (default : Option (String × Span)) (offset : Nat) : Prop :=
  ∀ d ∈ default, d.2.Covers source ['*'] ∧ d.2.stop ≤ offset

theorem Marks.le {offset offset' : Nat} (h : Marks source default offset) (hle : offset ≤ offset') :
    Marks source default offset' :=
  fun d hd => ⟨(h d hd).1, Nat.le_trans (h d hd).2 hle⟩

/-- A second default comes behind the first one, and both are marked. -/
theorem behindMember {rounds : Nat} {marked : Bool} {member : Ident × Expr}
    (hrounds : ∀ entries default i, Marks source default i.offset → Points source
      (Reader.repeatUpTo rounds (entries, default) (memberRound inner n opener)) i)
    (hd : Marks source default marker.start) (hle : marker.start ≤ i.offset)
    (hm : marked = true → marker.Covers source ['*'] ∧ marker.stop ≤ i.offset) :
    Points source (behindMember rounds inner n opener marker entries default marked member) i := by
  have hagain : ∀ default, Marks source default i.offset → Points source (do
      Reader.blanks
      Reader.optionalComma
      Reader.repeatUpTo rounds (entries.insert member.1.name member.2, default)
        (memberRound inner n opener)) i := by
    intro default hd
    refine Points.blanks.bind fun _ l _ _ hl => Points.optionalComma.bind fun _ m _ _ hm => ?_
    exact hrounds _ _ m (hd.le (Nat.le_trans hl hm))
  cases marked with
  | false => exact hagain default (hd.le hle)
  | true =>
    cases default with
    | none =>
      refine hagain (some (member.1.name, marker)) fun d hd => ?_
      obtain rfl := Option.some.inj hd
      exact hm rfl
    | some first =>
      obtain ⟨hfirst, hstop⟩ := hd first rfl
      refine ⟨fun _ h => absurd h fail_ne_ok, fun {e m} _ h => ?_⟩
      obtain ⟨rfl, -⟩ := EStateM.Result.error.inj h
      exact ⟨.duplicate (hm rfl).1 hfirst hstop, fun h => absurd h (by simp)⟩

/-- By induction on the rounds. The mark of the default lies before what is left. -/
theorem memberRounds (h : ∀ n i, Points source (inner n) i) (ho : opener.Covers source ['\x7b']) :
    ∀ (rounds : Nat) (entries : Keyed Expr) (default : Option (String × Span)) (i : Input),
      Marks source default i.offset → Points source
        (Reader.repeatUpTo rounds (entries, default) (memberRound inner n opener)) i := by
  intro rounds
  induction rounds with
  | zero => exact fun _ _ _ _ => .unexpected (by decide)
  | succ rounds ih =>
    intro entries default i hd
    rw [repeatUpTo_memberRound]
    refine .peek?_bind ?_
    cases hc : i.rest.head? with
    | none => exact .unterminated ho (List.head?_eq_none_iff.mp hc)
    | some c =>
      refine .ite (fun _ => Points.skip.andThen fun _ _ => .pure _) fun _ => ?_
      refine Points.here.bind fun marker l hi hl _ => ?_
      obtain ⟨rfl, rfl⟩ : i.here = marker ∧ i = l := ok_inj.mp hl
      have hstart : i.here.start = i.offset := by
        rw [Input.here]
        split <;> rfl
      have hmember : ∀ l, Points source
          (Reader.within .object opener (Reader.keyed (inner n))) l :=
        fun l => .within ho (.keyed (h n))
      refine .eat_bind (fun l hl => ?_) fun _ => ?_
      · have hstop : i.here.stop = l.offset := by
          rw [hl.offset, (hi.here_covers hl.head).stop_eq, hstart]
        have hl' : i.offset ≤ l.offset := by
          rw [hl.offset]
          exact Nat.le_add_right _ _
        refine (hmember l).bind fun member m _ _ hm => ?_
        refine .behindMember ih (hstart.symm ▸ hd) (by omega) fun _ => ?_
        exact ⟨hi.here_covers hl.head, by omega⟩
      · refine (hmember i).bind fun member m _ _ hm => ?_
        exact .behindMember ih (hstart.symm ▸ hd) (by omega) fun h => absurd h (by decide)

/-- An object points at its opener, and with a second default at both marks. -/
theorem members (h : ∀ n i, Points source (inner n) i) (hc : i.rest.head? = some '\x7b') :
    Points source (members inner bound n) i := by
  refine Points.here.bind fun opener l hi hl _ => ?_
  obtain ⟨rfl, rfl⟩ : i.here = opener ∧ i = l := ok_inj.mp hl
  refine Points.skip.andThen fun _ _ => Points.blanks.andThen fun _ _ => ?_
  exact .memberRounds h (hi.here_covers hc) bound [] none _ fun _ hd => absurd hd (by simp)

/-- A value is told by its first character. -/
theorem value (h : ∀ n i, Points source (inner n) i) :
    Points source (value inner bound n) i := by
  refine .nested (.offset_bind (.peek?_bind ?_))
  cases hc : i.rest.head? with
  | none => exact .unexpected (by decide)
  | some c =>
    by_cases hsquare : c = '['
    · subst hsquare
      exact (Points.expressions h hc).andThen fun items _ =>
        (Points.spanFrom _).andThen fun _ _ => .pure _
    by_cases hcurly : c = '\x7b'
    · subst hcurly
      exact (Points.members h hc).andThen fun members _ =>
        (Points.spanFrom _).andThen fun _ _ => .pure _
    · simp only
      exact .ite (fun _ => .quoted hc) fun _ => .unexpected (by decide)

end Composites

/-! ### Operands -/

section Operands

variable {inner : Nesting → Reader Expr} {bound : Nat} {n : Nesting}

theorem enclosed (h : ∀ n i, Points source (inner n) i) (closer : Char) :
    Points source (enclosed inner n closer) i := by
  refine Points.blanks.andThen fun _ _ => (h n _).andThen fun _ _ => ?_
  refine Points.blanks.andThen fun _ _ => (Points.expect (by decide)).andThen fun _ _ => ?_
  exact .pure _

theorem arguments (h : ∀ n i, Points source (inner n) i) :
    Points source (arguments inner bound n) i := by
  refine Points.skip.andThen fun _ _ => Points.blanks.andThen fun _ _ => ?_
  refine (Points.eat ')').andThen fun _ _ => .ite (fun _ => .pure _) fun _ => ?_
  refine .repeatUpTo (fun args i => ?_) bound #[] _
  refine (h n i).andThen fun arg _ => Points.blanks.andThen fun _ _ => ?_
  refine (Points.eat ')').andThen fun _ _ => .ite (fun _ => .pure _) fun _ => ?_
  exact (Points.expect (by decide)).andThen fun _ _ => Points.blanks.andThen fun _ _ => .pure _

theorem named (h : ∀ n i, Points source (inner n) i) : Points source (named inner bound n) i := by
  have hspan : ∀ {start : Nat} {f : Span → Expr} {i : Input}, Points source
      (Reader.spanFrom start >>= fun span => Pure.pure (f span)) i :=
    (Points.spanFrom _).andThen fun _ _ => .pure _
  refine .offset_bind (Points.ident.andThen fun id _ => ?_)
  refine (Points.looksAt _).andThen fun _ _ => .ite (fun _ => ?_) fun _ => ?_
  · exact (Points.take 2).andThen fun _ _ => (Points.enclosed h ']').andThen fun _ _ => hspan
  refine (Points.looksAt _).andThen fun _ _ => .ite (fun _ => ?_) fun _ => ?_
  · exact Points.skip.andThen fun _ _ => (Points.enclosed h ']').andThen fun _ _ => hspan
  refine (Points.looksAt _).andThen fun _ _ => .ite (fun _ => ?_) fun _ => .pure _
  exact (Points.arguments h).andThen fun _ _ => hspan

theorem reference {scope : Scope} : Points source (reference scope) i :=
  .offset_bind (Points.skip.andThen fun _ _ => Points.ident.andThen fun _ _ =>
    (Points.spanFrom _).andThen fun _ _ => .pure _)

theorem primary (h : ∀ n i, Points source (inner n) i) :
    Points source (primary inner bound n) i := by
  refine .offset_bind (.peek?_bind ?_)
  cases hc : i.rest.head? with
  | none => exact .unexpected (by decide)
  | some c =>
    refine .ite (fun _ => ?_) fun _ => ?_
    · exact Points.skip.andThen fun _ _ => (Points.enclosed h ')').andThen fun _ _ =>
        (Points.spanFrom _).andThen fun _ _ => .pure _
    refine .ite (fun hd => .integer hc hd) fun _ => ?_
    refine .ite (fun _ => (Points.value h).andThen fun _ _ => .pure _) fun _ => ?_
    refine .ite (fun _ => .named h) fun _ => .ite (fun _ => .reference) fun _ => ?_
    refine .ite (fun _ => .reference) fun _ => .ite (fun _ => ?_) fun _ => .unexpected (by decide)
    exact Points.skip.andThen fun _ _ => (Points.spanFrom _).andThen fun _ _ => .pure _

/-- By induction on the number of signs. -/
theorem unary (h : ∀ n i, Points source (inner n) i) :
    ∀ (signs : Nat) (n : Nesting) (i : Input), Points source (unary inner bound signs n) i := by
  intro signs
  induction signs with
  | zero => exact fun _ _ => .unexpected (by decide)
  | succ signs ih =>
    intro n i
    refine .offset_bind (.peek?_bind ?_)
    cases i.rest.head?.bind UnaryOp.ofChar? with
    | none => exact .primary h
    | some op =>
      refine Points.skip.andThen fun _ _ => Points.blanks.andThen fun _ l => ?_
      exact (Points.nested (ih n.deeper l)).andThen fun _ _ => .pure _

/-! ### Operations -/

theorem operator? : ∀ (level : List BinaryOp) (i : Input), Points source (operator? level) i
  | [], _ => .pure none
  | _ :: level, _ => (Points.looksAt _).andThen fun _ l =>
      .ite (fun _ => .pure _) fun _ => .operator? level l

/-- By induction on the levels, the tightest first. -/
theorem operations (h : ∀ n i, Points source (inner n) i) :
    ∀ (levels : List (List BinaryOp)) (i : Input),
      Points source (operations inner bound n levels) i := by
  intro levels
  induction levels with
  | nil => exact fun i => .unary h bound n i
  | cons level tighter ih =>
    intro i
    refine (ih i).andThen fun first l => .repeatUpTo (fun left i => ?_) bound first l
    refine Points.blanks.andThen fun _ _ => (Points.operator? level _).andThen fun op? l => ?_
    cases op? with
    | none => exact .pure _
    | some op =>
      refine (Points.take _).andThen fun _ _ => Points.blanks.andThen fun _ l => ?_
      exact (ih l).andThen fun _ _ => .pure _

theorem conditional (h : ∀ n i, Points source (inner n) i) :
    Points source (conditional inner bound n) i := by
  refine (Points.operations h _ i).andThen fun test _ => Points.blanks.andThen fun _ _ => ?_
  refine (Points.eat '?').andThen fun _ _ => .ite (fun _ => ?_) fun _ => .pure _
  refine Points.blanks.andThen fun _ _ => (h n _).andThen fun consequent _ => ?_
  refine Points.blanks.andThen fun _ _ => (Points.expect (by decide)).andThen fun _ _ => ?_
  exact Points.blanks.andThen fun _ _ => (h n _).andThen fun alternate _ => .pure _

end Operands

/-- By induction on the bound: an expression reads those inside it with a smaller one. -/
theorem expression :
    ∀ (bound : Nat) (n : Nesting) (i : Input), Points source (expression bound n) i := by
  intro bound
  induction bound with
  | zero => exact fun _ _ => .unexpected (by decide)
  | succ bound ih => exact fun n i => .nested (.conditional ih)

/-! ### Entries -/

section Entries

variable {bound : Nat} {n : Nesting}

theorem entryValue : Points source (entryValue bound n) i := .value (.expression bound)

/-- What is behind an attribute is another one, or the end of the entry. -/
theorem attributes : Points source (attributes bound n) i := by
  refine .repeatUpTo (fun entries i => ?_) bound [] i
  refine (Points.keyed fun _ => .entryValue).andThen fun member _ => ?_
  refine Points.blanks.andThen fun _ l => .peek?_bind ?_
  split
  · exact .pure _
  · exact Points.skip.andThen fun _ _ => Points.blanks.andThen fun _ _ => .pure _
  · exact .unexpected (by decide)

/-- Attributes are only read up to the end of the entry. -/
theorem head?_of_attributes {entries attrs : Attributes} {l : Input}
    (h : Rounds (attributeRound bound n) entries i attrs l) : l.rest.head? = some '>' := by
  induction h with
  | again _ _ ih => exact ih
  | done hround =>
    simp only [attributeRound, bind_eq_ok (x := Reader.keyed _), blanks_bind_eq_ok,
      Reader.peek?_bind] at hround
    obtain ⟨_, _, _, _, m, _, hrun⟩ := hround
    rcases behind_attribute_eq_ok.mp hrun with ⟨hend, rfl, _⟩ | ⟨_, _, _, _, hagain⟩
    · exact hend
    · exact absurd hagain (by simp)

theorem entryEnd : Points source (entryEnd bound n) i := by
  rw [entryEnd_eq]
  refine Points.blanks.andThen fun _ l => .peek?_bind ?_
  by_cases hc : l.rest.head? = some '>'
  · rw [if_pos hc, pure_bind]
    exact (Points.expect_of_head (.inr hc)).andThen fun _ _ => .pure _
  · rw [if_neg hc]
    refine (Points.attributes.map some).bind fun attrs m _ hattrs _ => ?_
    obtain ⟨_, hattrs, _⟩ := map_eq_ok.mp hattrs
    have hend := head?_of_attributes (Rounds.of_repeatUpTo hattrs)
    exact (Points.expect_of_head (.inr hend)).andThen fun _ _ => .pure _

variable {start : Nat} {id : Ident}

theorem entity {index : Option (List Expr)} : Points source (entity bound n start id index) i := by
  refine Points.gap.andThen fun before _ => Points.entryValue.andThen fun value _ => ?_
  refine Points.gap.andThen fun behind _ => Points.entryEnd.andThen fun attrs _ => ?_
  exact (Points.spanFrom _).andThen fun _ _ => .pure _

theorem parameters : Points source (parameters bound) i := by
  refine Points.skip.andThen fun _ _ => Points.blanks.andThen fun _ _ => ?_
  refine .repeatUpTo (fun params i => ?_) bound #[] _
  refine (Points.eat ')').andThen fun _ _ => .ite (fun _ => .pure _) fun _ => ?_
  refine (Points.expect (by decide)).andThen fun _ _ => Points.ident.andThen fun param _ => ?_
  refine Points.blanks.andThen fun _ l => .peek?_bind ?_
  split
  · exact Points.skip.andThen fun _ _ => Points.blanks.andThen fun _ _ => .pure _
  · exact .pure _
  · exact .unexpected (by decide)

theorem macroDef : Points source (macroDef bound n start id) i := by
  refine Points.parameters.andThen fun params _ => Points.blanks.andThen fun _ _ => ?_
  refine (Points.expect (by decide)).andThen fun _ _ => ?_
  refine (Points.enclosed (.expression bound) '\x7d').andThen fun body _ => ?_
  refine Points.entryEnd.andThen fun attrs _ => ?_
  exact (Points.spanFrom _).andThen fun _ _ => .pure _

/-- A comment is to blame with both characters that open it. -/
theorem entry : Points source (entry bound n) i := by
  refine .offset_bind (.of_eq (looksAt_bind _ _) (.ite (fun hcomment => ?_) fun _ => ?_))
  · obtain ⟨l, hl⟩ := isPrefixOf_eq_true_iff.mp hcomment
    refine ⟨fun _ h => absurd h fail_ne_ok, fun {e m} hi h => ?_⟩
    obtain ⟨rfl, -⟩ := EStateM.Result.error.inj h
    have hspan : (⟨i.offset, i.offset + 2⟩ : Span) = extent i.offset ['/', '*'] := rfl
    rw [hspan]
    exact ⟨.part (by decide) (hi.covers hl) (by simp), fun h => absurd h (by simp)⟩
  refine (Points.eat '<').andThen fun _ _ => .ite (fun _ => ?_) fun _ => .unexpected (by decide)
  refine Points.ident.andThen fun id l => .peek?_bind ?_
  split
  · exact Points.macroDef.map _
  · rename_i hc
    exact (Points.expressions (.expression bound) hc).andThen fun index _ => Points.entity.map _
  · exact Points.entity.map _

theorem items : Points source (items bound n) i := by
  refine .repeatUpTo (fun body i => ?_) bound #[] i
  refine Points.gap.andThen fun blank _ => Points.peek?.andThen fun c? _ => ?_
  exact .ite (fun _ => .pure _) fun _ => Points.entry.andThen fun e _ => .pure _

end Entries

end Points

end Reader

/-! ### Faults and their reports -/

namespace Fault.PointsInto

variable {source : List Char} {e : Fault} {part : List Char} {s : Span}

/-- The span of a fault covers a part of the source, and one without characters is at its end. -/
theorem span (h : e.PointsInto source) : ∃ part, e.span.Covers source part ∧
    (part = [] → e.span.start = byteLength source) := by
  cases h with
  | ending => exact ⟨[], .atEnd source, fun _ => rfl⟩
  | unterminated _ => exact ⟨[], .atEnd source, fun _ => rfl⟩
  | duplicate hmark _ _ => exact ⟨['*'], hmark, fun h => absurd h (by simp)⟩
  | part _ hspan hend => exact ⟨_, hspan, hend⟩

/-- There is a second span with two kinds of faults. -/
theorem note_isSome (h : e.PointsInto source) :
    e.note.isSome ↔ e.kind = .unterminatedComposite ∨ e.kind = .duplicateDefault := by
  cases h with
  | ending => simp
  | unterminated _ => simp
  | duplicate _ _ _ => simp
  | part hk _ _ =>
    simp only [FaultKind.special, List.mem_cons, List.not_mem_nil, or_false, not_or] at hk
    simp [hk.2.1, hk.2.2]

theorem note (h : e.PointsInto source) : ∀ note ∈ e.note,
    (∃ c, note.2.Covers source [c]) ∧ note.2.stop ≤ e.span.start := by
  cases h with
  | ending => simp
  | unterminated hopener => simpa using ⟨⟨_, hopener⟩, hopener.stop_le⟩
  | duplicate _ hfirst hle => simpa using ⟨⟨_, hfirst⟩, hle⟩
  | part _ _ _ => simp

/-- A part needs no more room, unless it is at the end, where there is none. -/
theorem widen_eq (h : s.Covers source part) (hend : part = [] → s.start = byteLength source) :
    s.widen (byteLength source) = s := by
  rw [Span.widen]
  split
  · rename_i hempty
    have hpart : part = [] := by
      cases part with
      | nil => rfl
      | cons c cs =>
        have hstop := h.stop_eq
        have hpos := c.utf8Size_pos
        rw [byteLength_cons] at hstop
        omega
    have hstart := hend hpart
    rw [← hstart, Nat.min_eq_right (Nat.le_succ _)]
    obtain ⟨start, stop⟩ := s
    exact congrArg (Span.mk start) hempty
  · rfl

variable {text : String}

theorem related (h : e.PointsInto text.toList) : ∀ related ∈ (e.toError text).related,
    (∃ c, related.span.Covers text.toList [c]) ∧ related.span.stop ≤ e.span.start := by
  intro related hrelated
  obtain ⟨note, hnote, rfl⟩ := Option.map_eq_some_iff.mp hrelated
  exact h.note note hnote

theorem callouts (h : e.PointsInto text.toList) :
    ∀ callout ∈ (e.toError text).callouts text.toList,
      ∃ part, callout.span.Covers text.toList part := by
  intro callout hcallout
  rcases List.mem_cons.mp hcallout with rfl | hcallout
  · obtain ⟨part, hpart, hend⟩ := h.span
    exact ⟨part, (widen_eq hpart hend).symm ▸ hpart⟩
  · obtain ⟨related, hrelated, rfl⟩ := Option.map_eq_some_iff.mp (Option.mem_toList.mp hcallout)
    obtain ⟨⟨c, hc⟩, _⟩ := h.related related hrelated
    exact ⟨[c], (widen_eq hc fun h => absurd h (by simp)).symm ▸ hc⟩

end Fault.PointsInto

namespace Resource

variable {limit : Option Nat}

/-- Every fault of a source points into it. -/
theorem pointsInto_of_ofChars {source : List Char} {e : Fault}
    (h : ofChars limit source = .error e) : e.PointsInto source := by
  obtain ⟨m, hitems⟩ := ofChars_eq_error_iff.mp h
  exact (Reader.Points.items.error (Input.in_ofText source) hitems).1

/-- An error points into its source: at a part that starts and stops between characters and has at
least one, except at the end. It is placed where the part starts. Just an open composite and a second
default come with another span, of one character before the part. So whatever a report shows is a
part of the source. -/
theorem read_error_points {source : String} {e : SyntaxError} (h : read limit source = .error e) :
    (∃ part, e.span.Covers source.toList part ∧
      (part = [] → e.span.start = byteLength source.toList)) ∧
    e.place = Place.of source.toList e.span.start ∧
    (e.related.isSome ↔ e.kind = .unterminatedComposite ∨ e.kind = .duplicateDefault) ∧
    (∀ related ∈ e.related, (∃ c, related.span.Covers source.toList [c]) ∧
      related.span.stop ≤ e.span.start) ∧
    ∀ callout ∈ e.callouts source.toList, ∃ part, callout.span.Covers source.toList part := by
  obtain ⟨fault, hfault, rfl⟩ := read_eq_error_iff.mp h
  have hpoints := pointsInto_of_ofChars hfault
  have hrelated : (fault.toError source).related.isSome = fault.note.isSome := Option.isSome_map
  refine ⟨hpoints.span, rfl, ?_, hpoints.related, hpoints.callouts⟩
  rw [hrelated]
  exact hpoints.note_isSome

/-- The array is opened in the first line and left open behind the second. -/
theorem read_error_points_of_open_array : ∃ e, read none "<x ['é'\n" = .error e ∧
    (∃ part, e.span.Covers "<x ['é'\n".toList part ∧
      (part = [] → e.span.start = byteLength "<x ['é'\n".toList)) ∧
    e.place = Place.of "<x ['é'\n".toList e.span.start ∧
    (e.related.isSome ↔ e.kind = .unterminatedComposite ∨ e.kind = .duplicateDefault) ∧
    (∀ related ∈ e.related, (∃ c, related.span.Covers "<x ['é'\n".toList [c]) ∧
      related.span.stop ≤ e.span.start) ∧
    ∀ callout ∈ e.callouts "<x ['é'\n".toList,
      ∃ part, callout.span.Covers "<x ['é'\n".toList part := by
  have h : read none "<x ['é'\n" = .error ⟨.unterminatedComposite, ⟨9, 9⟩, ⟨2, 1⟩,
      "unterminated composite: expected `]`", some ⟨⟨3, 4⟩, "array started here"⟩⟩ :=
    read_eq_error_iff_error?.mpr (by decide +kernel)
  exact ⟨_, h, read_error_points h⟩

end Resource

end LocaleText
