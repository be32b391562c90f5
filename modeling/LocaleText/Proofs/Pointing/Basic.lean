import LocaleText.Proofs.Carry.Basic
import LocaleText.Proofs.Tiling

/-!
# Faults that point into the source

A fault is about a part of the source that it is raised in, and so is the note that comes with it.
The part begins and ends between characters, and it is empty only at the end of the source.

* `Span.Covers` says that a span covers a part of a text, from one character boundary to another
* `Input.In` are the inputs that a part at the front of a source leaves
* `Fault.PointsInto` lists the faults that can be raised in a source, by what they point at
* `Reader.Points` says of one run of a reader that it raises no other fault
* `Points.fail_here`, `.fail_end` and `.unexpected` are the ways to raise one
* `Points.bind`, `.within`, `.nested` and `.repeatUpTo` are the steps that readers consist of
-/

namespace LocaleText

/-! ### Parts of a text -/

/-- A span covers a part of a text. It starts and stops between characters. -/
def Span.Covers (s : Span) (source part : List Char) : Prop :=
  ∃ before behind, source = before ++ part ++ behind ∧ s = extent (byteLength before) part

namespace Span.Covers

variable {s : Span} {source part : List Char}

/-- A span is as long as what it covers. -/
theorem stop_eq (h : s.Covers source part) : s.stop = s.start + byteLength part := by
  obtain ⟨before, behind, hs, rfl⟩ := h
  rfl

theorem ordered (h : s.Covers source part) : s.start ≤ s.stop := by
  rw [h.stop_eq]
  exact Nat.le_add_right _ _

theorem stop_le (h : s.Covers source part) : s.stop ≤ byteLength source := by
  obtain ⟨before, behind, rfl, rfl⟩ := h
  simp only [extent, byteLength_append]
  exact Nat.le_add_right _ _

/-- Nothing is covered at the end of a text. -/
theorem atEnd (source : List Char) : (Span.empty (byteLength source)).Covers source [] :=
  ⟨source, [], by simp, rfl⟩

end Span.Covers

/-- An input is what a part at the front of a source leaves. -/
def Input.In (i : Input) (source : List Char) : Prop :=
  ∃ before, source = before ++ i.rest ∧ i.offset = byteLength before

namespace Input

variable {i l : Input} {source text : List Char} {c : Char}

theorem in_ofText (source : List Char) : (ofText source).In source := ⟨[], rfl, rfl⟩

/-- What is left behind a text of a source is left of the source. -/
theorem In.takes (h : i.In source) (ht : i.Takes text l) : l.In source := by
  obtain ⟨before, hs, ho⟩ := h
  refine ⟨before ++ text, ?_, ?_⟩
  · rw [hs, ht.rest, List.append_assoc]
  · rw [ht.offset, ho, byteLength_append]

/-- What is taken is covered by its extent. -/
theorem In.covers (h : i.In source) (ht : i.Takes text l) :
    (extent i.offset text).Covers source text := by
  obtain ⟨before, hs, ho⟩ := h
  exact ⟨before, l.rest, by rw [hs, ht.rest, List.append_assoc], by rw [ho]⟩

theorem In.eq_end (h : i.In source) (hi : i.rest = []) : i = ⟨byteLength source, []⟩ := by
  obtain ⟨before, hs, ho⟩ := h
  obtain ⟨offset, rest⟩ := i
  obtain rfl : rest = [] := hi
  obtain rfl : offset = byteLength before := ho
  rw [hs, List.append_nil]

theorem In.here_eq_end (h : i.In source) (hi : i.rest = []) :
    i.here = .empty (byteLength source) := by
  rw [h.eq_end hi]
  rfl

/-- The next character, where there is one. -/
theorem In.here_covers (h : i.In source) (hc : i.rest.head? = some c) :
    i.here.Covers source [c] := by
  obtain ⟨l, hl⟩ := exists_takes_head hc
  have hhere : i.here = extent i.offset [c] := by
    rw [here, hl.rest]
    rfl
  rw [hhere]
  exact h.covers hl

end Input

/-! ### Faults -/

/-- The kinds of the faults that have more to them than a part of the source. -/
def FaultKind.special : List FaultKind := [.endOfInput, .unterminatedComposite, .duplicateDefault]

/-- The faults that can be raised in a source. Only the nesting limit is exceeded by a part without
characters, and then at the end. -/
inductive Fault.PointsInto (source : List Char) : Fault → Prop
  | ending {detail : Option Detail} :
      PointsInto source ⟨.endOfInput, .empty (byteLength source), detail, none⟩
  | unterminated {composite : Composite} {opener : Span} :
      opener.Covers source [composite.opener] →
      PointsInto source ⟨.unterminatedComposite, .empty (byteLength source),
        some (.expected composite.closer), some (.opened composite, opener)⟩
  | duplicate {mark first : Span} :
      mark.Covers source ['*'] → first.Covers source ['*'] → first.stop ≤ mark.start →
      PointsInto source ⟨.duplicateDefault, mark, none, some (.firstDefault, first)⟩
  | part {kind : FaultKind} {span : Span} {detail : Option Detail} {part : List Char} :
      kind ∉ FaultKind.special → span.Covers source part →
      (part = [] → span.start = byteLength source) → PointsInto source ⟨kind, span, detail, none⟩

namespace Reader

variable {α β σ : Type} {source : List Char} {i : Input} {c : Char}

/-- A run of a reader on what is left of a source takes a text, or raises a fault that points into the
source. Nothing is left behind a fault at the end. -/
structure Points (source : List Char) (x : Reader α) (i : Input) : Prop where
  ok : ∀ {a l}, i.In source → x i = .ok a l → ∃ text, i.Takes text l
  error : ∀ {e m}, i.In source → x i = .error e m →
    e.PointsInto source ∧ (e.kind = .endOfInput → m = ⟨byteLength source, []⟩)

namespace Points

variable {x y : Reader α} {f : α → Reader β}

theorem of_eq (h : x i = y i) (hy : Points source y i) : Points source x i :=
  ⟨fun hi hx => hy.ok hi (h.symm.trans hx), fun hi hx => hy.error hi (h.symm.trans hx)⟩

/-! ### Sequences -/

/-- A reader that always takes a text. -/
theorem of_takes (h : ∀ e m, x i ≠ .error e m) (ht : ∀ a l, x i = .ok a l → ∃ text, i.Takes text l) :
    Points source x i :=
  ⟨fun _ hx => ht _ _ hx, fun _ hx => absurd hx (h _ _)⟩

theorem pure (a : α) : Points source (Pure.pure a : Reader α) i :=
  .of_takes (by simp [Pure.pure, EStateM.pure]) fun b l h => by
    obtain ⟨_, rfl⟩ := pure_eq_ok.mp h
    exact ⟨[], .refl i⟩

/-- One part behind another; the second is run on what the first has left. -/
theorem bind (hx : Points source x i)
    (hf : ∀ a l, i.In source → x i = .ok a l → i.offset ≤ l.offset → Points source (f a) l) :
    Points source (x >>= f) i := by
  have hnext : ∀ {a l text}, i.In source → x i = .ok a l → i.Takes text l →
      Points source (f a) l := by
    intro a l text hi hrun ht
    refine hf a l hi hrun ?_
    rw [ht.offset]
    exact Nat.le_add_right _ _
  constructor
  · intro b l hi hrun
    obtain ⟨a, m, hxm, hfm⟩ := bind_eq_ok.mp hrun
    obtain ⟨text, ht⟩ := hx.ok hi hxm
    obtain ⟨text', ht'⟩ := (hnext hi hxm ht).ok (hi.takes ht) hfm
    exact ⟨text ++ text', ht.trans ht'⟩
  · intro e l hi hrun
    rcases bind_eq_error.mp hrun with hxe | ⟨a, m, hxm, hfm⟩
    · exact hx.error hi hxe
    · obtain ⟨text, ht⟩ := hx.ok hi hxm
      exact (hnext hi hxm ht).error (hi.takes ht) hfm

/-- Two readers in a row, the second of which points into the source wherever it runs. -/
theorem andThen (hx : Points source x i) (hf : ∀ a l, Points source (f a) l) :
    Points source (x >>= f) i :=
  hx.bind fun a l _ _ _ => hf a l

theorem map (g : α → β) (hx : Points source x i) : Points source (g <$> x) i := by
  rw [map_eq_pure_bind]
  exact hx.andThen fun a _ => .pure (g a)

theorem ite {p : Prop} [Decidable p] (ht : p → Points source x i)
    (he : ¬ p → Points source y i) : Points source (if p then x else y) i := by
  by_cases hp : p
  · rw [if_pos hp]
    exact ht hp
  · rw [if_neg hp]
    exact he hp

/-! ### Looking and taking -/

theorem offset : Points source offset i :=
  .of_takes (by simp [Reader.offset]) fun _ _ h => ⟨[], (ok_inj.mp h).2 ▸ .refl i⟩

theorem here : Points source here i :=
  .of_takes (by simp [Reader.here]) fun _ _ h => ⟨[], (ok_inj.mp h).2 ▸ .refl i⟩

theorem peek? : Points source peek? i :=
  .of_takes (by simp [Reader.peek?]) fun _ _ h => ⟨[], (ok_inj.mp h).2 ▸ .refl i⟩

theorem looksAt (token : List Char) : Points source (looksAt token) i :=
  .of_takes (by simp [Reader.looksAt]) fun _ _ h => ⟨[], (ok_inj.mp h).2 ▸ .refl i⟩

theorem spanFrom (start : Nat) : Points source (spanFrom start) i :=
  .of_takes (by simp [Reader.spanFrom]) fun _ _ h => ⟨[], (ok_inj.mp h).2 ▸ .refl i⟩

theorem take (n : Nat) : Points source (take n) i :=
  .of_takes (by simp [Reader.take]) fun _ _ h =>
    ⟨i.rest.take n, (ok_inj.mp h).2 ▸ Input.takes_after (List.take_append_drop n i.rest).symm⟩

theorem skip : Points source skip i := .take 1

theorem takeWhile (p : Char → Bool) : Points source (takeWhile p) i :=
  .of_takes (by simp [Reader.takeWhile]) fun _ _ h => ⟨_, (takeWhile_eq_ok.mp h).1⟩

theorem blanks : Points source blanks i :=
  (Points.takeWhile isBlank).andThen fun _ _ => .pure ()

theorem gap : Points source gap i :=
  Points.offset.andThen fun _ _ => (Points.takeWhile isBlank).andThen fun _ _ =>
    (Points.spanFrom _).andThen fun _ _ => .pure _

theorem eat (c : Char) : Points source (eat c) i :=
  Points.peek?.andThen fun _ _ => .ite (fun _ => Points.skip.andThen fun _ _ => .pure true)
    fun _ => .pure false

theorem offset_bind {k : Nat → Reader β} (h : Points source (k i.offset) i) :
    Points source (Reader.offset >>= k) i :=
  .of_eq (Reader.offset_bind k) h

theorem peek?_bind {k : Option Char → Reader β} (h : Points source (k i.rest.head?) i) :
    Points source (Reader.peek? >>= k) i :=
  .of_eq (Reader.peek?_bind k) h

theorem here_bind {k : Span → Reader β} (h : Points source (k i.here) i) :
    Points source (Reader.here >>= k) i :=
  .of_eq (Reader.here_bind k) h

/-! ### Faults -/

/-- A fault at the next character, or at the end of the source. -/
theorem fail_here {kind : FaultKind} {detail : Option Detail} (hk : kind ∉ FaultKind.special) :
    Points source (Reader.here >>= fun span => (fail kind span detail none : Reader α)) i := by
  refine .here_bind ⟨fun _ h => absurd h fail_ne_ok, fun {e m} hi h => ?_⟩
  obtain ⟨rfl, rfl⟩ : ⟨kind, i.here, detail, none⟩ = e ∧ i = m := by simpa [fail] using h
  have hend : kind ≠ .endOfInput := fun h => hk (by rw [h]; decide)
  refine ⟨?_, fun h => absurd h hend⟩
  cases hc : i.rest with
  | nil =>
    rw [hi.here_eq_end hc]
    exact .part hk (.atEnd source) fun _ => rfl
  | cons c cs => exact .part hk (hi.here_covers (by rw [hc]; rfl)) fun h => absurd h (by simp)

/-- The end of the source, where nothing is left. -/
theorem fail_end {detail : Option Detail} (hi : i.rest = []) :
    Points source (fail .endOfInput i.here detail none : Reader α) i := by
  refine ⟨fun _ h => absurd h fail_ne_ok, fun {e m} hin h => ?_⟩
  obtain ⟨rfl, rfl⟩ : ⟨.endOfInput, i.here, detail, none⟩ = e ∧ i = m := by simpa [fail] using h
  rw [hin.here_eq_end hi]
  exact ⟨.ending, fun _ => hin.eq_end hi⟩

theorem unexpected {kind : FaultKind} (hk : kind ∉ FaultKind.special) :
    Points source (unexpected kind : Reader α) i := by
  cases hc : i.rest with
  | nil =>
    have hend : Points source (fail .endOfInput i.here none none : Reader α) i := .fail_end hc
    refine .of_eq ?_ hend
    rw [Reader.unexpected, hc]
    rfl
  | cons c cs =>
    have hhere : Points source
        (Reader.here >>= fun span => (fail kind span (some (.found c)) none : Reader α)) i :=
      .fail_here hk
    refine .of_eq ?_ hhere
    rw [Reader.unexpected, hc]
    rfl

/-- A run of `eat` with what comes behind it, by cases on what comes next. -/
theorem eat_bind {k : Bool → Reader β} (ht : ∀ l, i.Takes [c] l → Points source (k true) l)
    (hf : i.rest.head? ≠ some c → Points source (k false) i) :
    Points source (Reader.eat c >>= k) i := by
  refine (Points.eat c).bind fun b l _ h _ => ?_
  rcases eat_eq_ok.mp h with ⟨hl, rfl⟩ | ⟨hne, rfl, rfl⟩
  · exact ht l hl
  · exact hf hne

theorem expect {kind : FaultKind} (hk : kind ∉ FaultKind.special) :
    Points source (expect c kind) i := by
  refine .eat_bind (fun _ _ => .pure ()) fun _ => .peek?_bind ?_
  cases hc : i.rest.head? with
  | none => exact .here_bind (.fail_end (List.head?_eq_none_iff.mp hc))
  | some d => exact .fail_here hk

/-- Where a character comes next or nothing does, the fault for another character does not matter. -/
theorem expect_of_head {kind : FaultKind} (hc : i.rest = [] ∨ i.rest.head? = some c) :
    Points source (Reader.expect c kind) i := by
  refine .eat_bind (fun _ _ => .pure ()) fun hne => .peek?_bind ?_
  rw [hc.resolve_right hne]
  exact .here_bind (.fail_end (hc.resolve_right hne))

/-! ### Composites, nesting and repetition -/

section Composites

variable {composite : Composite} {opener : Span}

/-- A composite that is not closed is blamed at the end, with its opener. -/
theorem unterminated (ho : opener.Covers source [composite.opener]) (hi : i.rest = []) :
    Points source (unterminated composite opener : Reader α) i := by
  refine .here_bind ⟨fun _ h => absurd h fail_ne_ok, fun {e m} hin h => ?_⟩
  rw [hin.here_eq_end hi] at h
  obtain ⟨rfl, rfl⟩ : ⟨.unterminatedComposite, .empty (byteLength source),
      some (.expected composite.closer), some (.opened composite, opener)⟩ = e ∧ i = m := by
    simpa [fail] using h
  exact ⟨.unterminated ho, fun h => absurd h (by simp)⟩

/-- A fault at the end becomes one of the composite. -/
theorem within (ho : opener.Covers source [composite.opener]) (hx : Points source x i) :
    Points source (within composite opener x) i := by
  refine ⟨fun hi h => hx.ok hi (within_eq_ok.mp h), fun {e m} hi h => ?_⟩
  cases hrun : x i with
  | ok a l =>
    rw [within_eq_ok.mpr hrun] at h
    exact absurd h (by simp)
  | error e' m' =>
    obtain ⟨hpoints, hend⟩ := hx.error hi hrun
    by_cases hk : e'.kind = .endOfInput
    · obtain rfl := hend hk
      rw [within_eq_error_of_endOfInput hrun hk rfl] at h
      obtain ⟨rfl, -⟩ := EStateM.Result.error.inj h
      exact ⟨.unterminated ho, fun h => absurd h (by simp)⟩
    · rw [within_eq_error hrun hk] at h
      obtain ⟨rfl, -⟩ := EStateM.Result.error.inj h
      exact ⟨hpoints, fun h => absurd h hk⟩

end Composites

theorem nested {n : Nesting} {inner : Nesting → Reader α} (h : Points source (inner n.deeper) i) :
    Points source (nested n inner) i := by
  unfold Reader.nested
  cases n.exhausted? with
  | none => exact h
  | some limit => exact .fail_here (by decide)

/-- By induction on the bound: the rounds of a repetition follow one another. -/
theorem repeatUpTo {round : σ → Reader (Round σ α)} (h : ∀ s i, Points source (round s) i) :
    ∀ (bound : Nat) (s : σ) (i : Input), Points source (repeatUpTo bound s round) i := by
  intro bound
  induction bound with
  | zero => exact fun _ _ => .unexpected (by decide)
  | succ bound ih =>
    intro s i
    refine (h s i).andThen fun r l => ?_
    cases r with
    | again s' => exact ih s' l
    | done a => exact .pure a

end Points

end Reader

end LocaleText
