import LocaleText.Proofs.Reading.Rounds
import LocaleText.Proofs.Reading.Terminal
import LocaleText.Proofs.Unfinished.Grammar

/-!
# Readers that run out of input

What a run comes to that the end of the source stops, one rule for each basic reader. Every rule is
an equivalence, so that the composite that is blamed is known exactly.

* `Fault.Blames` says which composite a fault blames for the end of the source, if any
* `Reader.RunsOut` says that a run ends in such a fault, and `RunsOut.unique` that it blames one
* `runsOut_bind` is the sequence: the first reader runs out, or the second one behind what the first
  has read
* `runsOut_unexpected` and `runsOut_expect` are the readers that miss something at the end
* `runsOut_within` is a part of a composite: the composite is blamed unless one inside it is
* `runsOut_ident` and `runsOut_keyed` are about names and keys
-/

namespace LocaleText

/-- A fault says that the source ends too early, and blames a composite for it, or none. -/
def Fault.Blames (e : Fault) : Option Opening → Prop
  | none => e.kind = .endOfInput
  | some o => e.kind = .unterminatedComposite ∧ e.note = some (.opened o.composite, o.span)

namespace Fault.Blames

variable {e : Fault} {h h' : Option Opening}

theorem kind_mem (hb : e.Blames h) : e.kind ∈ [FaultKind.endOfInput, .unterminatedComposite] := by
  cases h with
  | none => simp [show e.kind = .endOfInput from hb]
  | some o => simp [hb.1]

/-- A fault blames one composite. -/
theorem unique (hb : e.Blames h) (hb' : e.Blames h') : h = h' := by
  cases h with
  | none =>
    cases h' with
    | none => rfl
    | some o => exact absurd (hb.symm.trans hb'.1) (by decide)
  | some o =>
    cases h' with
    | none => exact absurd (hb'.symm.trans hb.1) (by decide)
    | some o' =>
      have hnote := hb.2.symm.trans hb'.2
      simp only [Option.some.injEq, Prod.mk.injEq, Note.opened.injEq, Opening.span, extent,
        Span.mk.injEq] at hnote
      obtain ⟨hc, ho, -⟩ := hnote
      obtain ⟨c, o⟩ := o
      obtain ⟨c', o'⟩ := o'
      obtain rfl : c = c' := hc
      obtain rfl : o = o' := ho
      rfl

end Fault.Blames

namespace Input

variable {i l : Input} {text : List Char}

/-- All that is left can be taken. -/
theorem takes_all (h : i.rest = text) : i.Takes text (i.after text []) :=
  takes_after (by rw [h, List.append_nil])

theorem Takes.eq_of_end (h : i.Takes text l) (hl : l.rest = []) : i.rest = text := by
  rw [h.rest, hl, List.append_nil]

end Input

namespace Reader

variable {α β σ : Type} {i l : Input} {c : Char} {h : Option Opening}

/-- A run ends because the source does, and blames the innermost of the composites that it has opened
and not closed, if there is one. -/
def RunsOut (x : Reader α) (i : Input) (h : Option Opening) : Prop :=
  ∃ e l, x i = .error e l ∧ e.Blames h

/-! ### Sequences -/

/-- One run blames one composite, or none. -/
theorem RunsOut.unique {x : Reader α} {h' : Option Opening} (hx : RunsOut x i h)
    (hx' : RunsOut x i h') : h = h' := by
  obtain ⟨e, l, he, hb⟩ := hx
  obtain ⟨e', l', he', hb'⟩ := hx'
  obtain ⟨rfl, rfl⟩ := EStateM.Result.error.inj (he.symm.trans he')
  exact hb.unique hb'

theorem not_runsOut_of_ok {x : Reader α} {a : α} (hx : x i = .ok a l) : ¬ RunsOut x i h := by
  rintro ⟨e, m, he, -⟩
  exact absurd (hx.symm.trans he) (by simp)

/-- Runs that come to the same run out of the same. -/
theorem runsOut_of_eq {x y : Reader α} (hx : x i = y l) : RunsOut x i h ↔ RunsOut y l h := by
  rw [RunsOut, hx, RunsOut]

/-- The first part runs out, or the second behind it. -/
theorem runsOut_bind {x : Reader α} {f : α → Reader β} : RunsOut (x >>= f) i h ↔
    RunsOut x i h ∨ ∃ a m, x i = .ok a m ∧ RunsOut (f a) m h := by
  have hrun : (x >>= f) i = EStateM.bind x f i := rfl
  cases hx : x i with
  | ok a m =>
    have hf : (x >>= f) i = f a m := bind_of_eq_ok hx
    have hxr : ¬ RunsOut x i h := not_runsOut_of_ok hx
    constructor
    · rintro ⟨e, l, he, hb⟩
      exact .inr ⟨a, m, rfl, e, l, hf ▸ he, hb⟩
    · rintro (hr | ⟨_, _, hm, e, l, he, hb⟩)
      · exact absurd hr hxr
      · cases hm
        exact ⟨e, l, hf.trans he, hb⟩
  | error e m =>
    have hf : (x >>= f) i = .error e m := by
      rw [hrun, EStateM.bind, hx]
    constructor
    · rintro ⟨e', l, he, hb⟩
      obtain ⟨rfl, rfl⟩ := EStateM.Result.error.inj (hf.symm.trans he)
      exact .inl ⟨e, m, hx, hb⟩
    · rintro (⟨e', l, he, hb⟩ | ⟨_, _, hm, _⟩)
      · obtain ⟨rfl, rfl⟩ := EStateM.Result.error.inj (hx.symm.trans he)
        exact ⟨e, m, hf, hb⟩
      · exact absurd hm (by simp)

@[simp] theorem not_runsOut_pure {a : α} : ¬ RunsOut (pure a : Reader α) i h :=
  not_runsOut_of_ok (l := i) rfl

theorem runsOut_map {x : Reader α} {f : α → β} : RunsOut (f <$> x) i h ↔ RunsOut x i h := by
  simp only [map_eq_pure_bind, runsOut_bind, not_runsOut_pure, and_false, exists_false, or_false]

theorem runsOut_ite {p : Prop} [Decidable p] {x y : Reader α} :
    RunsOut (if p then x else y) i h ↔ (p ∧ RunsOut x i h) ∨ (¬ p ∧ RunsOut y i h) := by
  by_cases hp : p <;> simp [hp]

/-! ### Looking and taking -/

section Looking

variable (f : Option Char → Reader β) (g : Nat → Reader β) (s : Span → Reader β)

theorem runsOut_peek?_bind : RunsOut (peek? >>= f) i h ↔ RunsOut (f i.rest.head?) i h := Iff.rfl

theorem runsOut_offset_bind : RunsOut (offset >>= g) i h ↔ RunsOut (g i.offset) i h := Iff.rfl

theorem runsOut_here_bind : RunsOut (here >>= s) i h ↔ RunsOut (s i.here) i h := Iff.rfl

theorem runsOut_spanFrom_bind (start : Nat) :
    RunsOut (spanFrom start >>= s) i h ↔ RunsOut (s ⟨start, i.offset⟩) i h := Iff.rfl

theorem runsOut_looksAt_bind (token : List Char) (k : Bool → Reader β) :
    RunsOut (looksAt token >>= k) i h ↔ RunsOut (k (token.isPrefixOf i.rest)) i h := Iff.rfl

end Looking

theorem runsOut_spanned {x : Reader α} {f : α → Span → β} {start : Nat} :
    RunsOut (do
      let a ← x
      pure (f a (← spanFrom start)) : Reader β) i h ↔ RunsOut x i h := by
  simp only [runsOut_bind (x := x), runsOut_spanFrom_bind, not_runsOut_pure, and_false, exists_false,
    or_false]

theorem runsOut_take_bind {token : List Char} {m : Input} (hm : i.Takes token m)
    {k : Unit → Reader β} : RunsOut (take token.length >>= k) i h ↔ RunsOut (k ()) m h := by
  rw [RunsOut, take_bind hm, RunsOut]

theorem runsOut_skip_bind {k : Unit → Reader β} (hc : i.rest.head? = some c) :
    RunsOut (skip >>= k) i h ↔ ∃ m, i.Takes [c] m ∧ RunsOut (k ()) m h := by
  obtain ⟨m, hm⟩ := Input.exists_takes_head hc
  have hk : RunsOut (skip >>= k) i h ↔ RunsOut (k ()) m h := runsOut_take_bind hm
  rw [hk]
  constructor
  · intro hr
    exact ⟨m, hm, hr⟩
  · rintro ⟨m', hm', hr⟩
    rwa [hm.unique hm']

theorem not_runsOut_eat : ¬ RunsOut (eat c) i h := by
  by_cases hc : i.rest.head? = some c
  · obtain ⟨m, hm⟩ := Input.exists_takes_head hc
    exact not_runsOut_of_ok (eat_eq_ok.mpr (.inl ⟨hm, rfl⟩))
  · exact not_runsOut_of_ok (eat_eq_ok.mpr (.inr ⟨hc, rfl, rfl⟩))

/-- Nothing is missed where a character may be left out. -/
theorem runsOut_eat_bind {k : Bool → Reader β} : RunsOut (eat c >>= k) i h ↔
    (∃ m, i.Takes [c] m ∧ RunsOut (k true) m h) ∨
      (i.rest.head? ≠ some c ∧ RunsOut (k false) i h) := by
  simp only [runsOut_bind, not_runsOut_eat, false_or, eat_eq_ok]
  constructor
  · rintro ⟨b, m, ⟨hm, rfl⟩ | ⟨hc, rfl, rfl⟩, hk⟩
    · exact .inl ⟨m, hm, hk⟩
    · exact .inr ⟨hc, hk⟩
  · rintro (⟨m, hm, hk⟩ | ⟨hc, hk⟩)
    · exact ⟨true, m, .inl ⟨hm, rfl⟩, hk⟩
    · exact ⟨false, i, .inr ⟨hc, rfl, rfl⟩, hk⟩

theorem runsOut_takeWhile_bind {p : Char → Bool} {k : List Char → Reader β} :
    RunsOut (takeWhile p >>= k) i h ↔ ∃ text m, i.Takes text m ∧ (∀ c ∈ text, p c = true) ∧
      NextNot p m.rest ∧ RunsOut (k text) m h := by
  have htake : ¬ RunsOut (takeWhile p) i h := not_runsOut_of_ok
    (l := i.after (i.rest.takeWhile p) (i.rest.dropWhile p)) rfl
  simp only [runsOut_bind, htake, false_or, takeWhile_eq_ok, and_assoc]

theorem not_runsOut_blanks : ¬ RunsOut blanks i h := by
  simp only [blanks, runsOut_takeWhile_bind, not_runsOut_pure, and_false, exists_false,
    not_false_eq_true]

theorem runsOut_blanks_bind {k : Unit → Reader β} :
    RunsOut (blanks >>= k) i h ↔ ∃ gap m, i.Skips gap m ∧ RunsOut (k ()) m h := by
  simp only [runsOut_bind, not_runsOut_blanks, false_or]
  constructor
  · rintro ⟨_, m, hm, hk⟩
    obtain ⟨gap, hm⟩ := blanks_eq_ok.mp hm
    exact ⟨gap, m, hm, hk⟩
  · rintro ⟨gap, m, hm, hk⟩
    exact ⟨(), m, blanks_eq_ok.mpr ⟨gap, hm⟩, hk⟩

/-- A character and the blanks behind it. -/
theorem runsOut_skip_blanks_bind {k : Unit → Reader β} (hc : i.rest.head? = some c) :
    RunsOut (skip >>= fun _ => blanks >>= k) i h ↔
      ∃ gap l, i.Takes ([c] ++ gap) l ∧ Blanks gap ∧ NextNot isBlank l.rest ∧ RunsOut (k ()) l h := by
  simp only [runsOut_skip_bind hc, runsOut_blanks_bind]
  constructor
  · rintro ⟨m, hm, gap, l, hl, hr⟩
    exact ⟨gap, l, hm.trans hl.takes, hl.blank, hl.stop, hr⟩
  · rintro ⟨gap, l, ht, hb, hfresh, hr⟩
    obtain ⟨m, hm, hl⟩ := Input.takes_append.mp ht
    exact ⟨m, hm, gap, l, ⟨hl, hb, hfresh⟩, hr⟩

theorem runsOut_gap_bind {k : Gap → Reader β} : RunsOut (gap >>= k) i h ↔
    ∃ text m, i.Skips text m ∧ RunsOut (k ⟨String.ofList text, extent i.offset text⟩) m h := by
  have hgap : ¬ RunsOut gap i h := by
    simp only [gap, runsOut_offset_bind, runsOut_takeWhile_bind, runsOut_spanFrom_bind,
      not_runsOut_pure, and_false, exists_false, not_false_eq_true]
  simp only [runsOut_bind, hgap, false_or, gap_eq_ok]
  constructor
  · rintro ⟨_, m, ⟨text, hm, rfl⟩, hk⟩
    exact ⟨text, m, hm, hk⟩
  · rintro ⟨text, m, hm, hk⟩
    exact ⟨_, m, ⟨text, hm, rfl⟩, hk⟩

theorem not_runsOut_optionalComma : ¬ RunsOut optionalComma i h := by
  simp only [optionalComma, runsOut_eat_bind, if_true, not_runsOut_blanks, Bool.false_eq_true,
    if_false, not_runsOut_pure, and_false, exists_false, or_self, not_false_eq_true]

/-! ### Faults -/

section Faults

variable (kind : FaultKind) (hk : kind ∉ [FaultKind.endOfInput, .unterminatedComposite])

include hk

theorem not_runsOut_fail {span : Span} {detail : Option Detail} {note : Option (Note × Span)} :
    ¬ RunsOut (fail kind span detail note : Reader α) i h := by
  rintro ⟨e, l, he, hb⟩
  obtain ⟨rfl, rfl⟩ := EStateM.Result.error.inj he
  exact hk hb.kind_mem

/-- At the end something is missed, and nothing is blamed yet. -/
theorem runsOut_unexpected : RunsOut (unexpected kind : Reader α) i h ↔ i.rest = [] ∧ h = none := by
  cases hi : i.rest with
  | nil =>
    have hrun : (unexpected kind : Reader α) i = .error ⟨.endOfInput, i.here, none, none⟩ i := by
      rw [unexpected, hi]
    constructor
    · rintro ⟨e, l, he, hb⟩
      obtain ⟨rfl, rfl⟩ := EStateM.Result.error.inj (hrun.symm.trans he)
      exact ⟨rfl, hb.unique (show Fault.Blames _ none from rfl)⟩
    · rintro ⟨-, rfl⟩
      exact ⟨_, _, hrun, rfl⟩
  | cons c cs =>
    have hrun : (unexpected kind : Reader α) i = .error ⟨kind, i.here, some (.found c), none⟩ i := by
      rw [unexpected, hi]
    simp only [reduceCtorEq, false_and, iff_false]
    rintro ⟨e, l, he, hb⟩
    obtain ⟨rfl, rfl⟩ := EStateM.Result.error.inj (hrun.symm.trans he)
    exact hk hb.kind_mem

theorem runsOut_expect : RunsOut (expect c kind) i h ↔ i.rest = [] ∧ h = none := by
  rw [expect, runsOut_eat_bind, if_pos rfl, if_neg (by decide), runsOut_peek?_bind]
  simp only [not_runsOut_pure, and_false, exists_false, false_or]
  cases i.rest with
  | nil =>
    simp only [List.head?_nil, ne_eq, reduceCtorEq, not_false_eq_true, true_and]
    constructor
    · rintro ⟨e, l, he, hb⟩
      obtain ⟨rfl, rfl⟩ := EStateM.Result.error.inj he
      exact hb.unique (show Fault.Blames _ none from rfl)
    · rintro rfl
      exact ⟨_, _, rfl, rfl⟩
  | cons d ds =>
    simp only [List.head?_cons, runsOut_here_bind, not_runsOut_fail kind hk, and_false, reduceCtorEq,
      false_and]

theorem runsOut_expect_bind {k : Unit → Reader β} : RunsOut (expect c kind >>= k) i h ↔
    (i.rest = [] ∧ h = none) ∨ ∃ m, i.Takes [c] m ∧ RunsOut (k ()) m h := by
  rw [runsOut_bind, runsOut_expect kind hk]
  refine or_congr_right ⟨?_, ?_⟩
  · rintro ⟨⟨⟩, m, hm, hr⟩
    exact ⟨m, expect_eq_ok.mp hm, hr⟩
  · rintro ⟨m, hm, hr⟩
    exact ⟨(), m, expect_eq_ok.mpr hm, hr⟩

end Faults

/-! ### Composites and nesting -/

variable {composite : Composite} {p : Nat}

theorem runsOut_unterminated :
    RunsOut (unterminated composite (Opening.span ⟨composite, p⟩) : Reader α) i h ↔
      h = some ⟨composite, p⟩ := by
  constructor
  · rintro ⟨e, l, he, hb⟩
    obtain ⟨rfl, rfl⟩ := EStateM.Result.error.inj he
    exact hb.unique (show Fault.Blames _ (some ⟨composite, p⟩) from ⟨rfl, rfl⟩)
  · rintro rfl
    exact ⟨_, _, rfl, rfl, rfl⟩

/-- A composite is blamed unless one inside it is. -/
theorem runsOut_within {x : Reader α} :
    RunsOut (within composite (Opening.span ⟨composite, p⟩) x) i h ↔
      ∃ h', RunsOut x i h' ∧ h = some (h'.getD ⟨composite, p⟩) := by
  cases hx : x i with
  | ok a l =>
    have hrun : within composite (Opening.span ⟨composite, p⟩) x i = .ok a l := by
      rw [within, hx]
    simp only [not_runsOut_of_ok hrun, not_runsOut_of_ok hx, false_and, exists_false]
  | error e l =>
    by_cases hkind : e.kind = .endOfInput
    · have hrun : within composite (Opening.span ⟨composite, p⟩) x i =
          unterminated composite (Opening.span ⟨composite, p⟩) l := by
        simp only [within, hx, if_pos hkind]
      have hnone : RunsOut x i none := ⟨e, l, hx, hkind⟩
      have hsome : RunsOut (within composite (Opening.span ⟨composite, p⟩) x) i
          (some ⟨composite, p⟩) := by
        obtain ⟨e', l', he, hb⟩ : RunsOut (unterminated composite
          (Opening.span ⟨composite, p⟩) : Reader α) l (some ⟨composite, p⟩) :=
            runsOut_unterminated.mpr rfl
        exact ⟨e', l', hrun.trans he, hb⟩
      constructor
      · intro hr
        exact ⟨none, hnone, hr.unique hsome⟩
      · rintro ⟨h', hr, rfl⟩
        rw [hr.unique hnone]
        exact hsome
    · have hrun : within composite (Opening.span ⟨composite, p⟩) x i = .error e l := by
        simp only [within, hx, if_neg hkind]
      have hsome : ∀ {h}, e.Blames h → h = some (h.getD ⟨composite, p⟩) := by
        intro h hb
        cases h with
        | none => exact absurd hb hkind
        | some o => rfl
      constructor
      · rintro ⟨e', l', he, hb⟩
        obtain ⟨rfl, rfl⟩ := EStateM.Result.error.inj (hrun.symm.trans he)
        exact ⟨h, ⟨e, l, hx, hb⟩, hsome hb⟩
      · rintro ⟨h', ⟨e', l', he, hb⟩, rfl⟩
        obtain ⟨rfl, rfl⟩ := EStateM.Result.error.inj (hx.symm.trans he)
        rw [← hsome hb]
        exact ⟨e, l, hrun, hb⟩

/-- Where there is no room the limit stops the run, and not the end. -/
theorem runsOut_nested {n : Nesting} {inner : Nesting → Reader α} :
    RunsOut (nested n inner) i h ↔ n.HasRoom ∧ RunsOut (inner n.deeper) i h := by
  rw [nested, Nesting.HasRoom]
  cases n.exhausted? with
  | some limit =>
    simp only [reduceCtorEq, false_and, iff_false]
    exact not_runsOut_fail _ (by decide)
  | none => simp

/-! ### Tokens -/

/-- An unfinished string is another fault. -/
theorem not_runsOut_quoted {quote : Char} (hq : i.rest.head? = some quote) :
    ¬ RunsOut (quoted quote) i h := by
  obtain ⟨m, hm⟩ := Input.exists_takes_head hq
  rintro ⟨e, l, he, hb⟩
  rw [quoted, offset_bind] at he
  simp only [bind, EStateM.bind, skip_eq_ok hm] at he
  split at he
  · obtain ⟨rfl, rfl⟩ := EStateM.Result.error.inj he
    exact absurd hb.kind_mem (by simp)
  · exact absurd he (by simp)

theorem not_runsOut_integer : ¬ RunsOut integer i h := by
  simp only [integer, runsOut_offset_bind, runsOut_takeWhile_bind, runsOut_spanFrom_bind, runsOut_ite,
    not_runsOut_pure, and_false, not_runsOut_fail .malformedExpression (by decide), or_self,
    exists_false, not_false_eq_true]

/-- Both ways of writing a name end in this way. -/
theorem runsOut_name_bind {k : List Char → Reader β} (hk : ∀ name m, ¬ RunsOut (k name) m h) :
    RunsOut (takeWhile isWordChar >>= fun name =>
      if name.isEmpty = true then unexpected .malformedIdentifier else k name) i h ↔
      i.rest = [] ∧ h = none := by
  simp only [runsOut_takeWhile_bind, runsOut_ite, hk, and_false, or_false, List.isEmpty_iff,
    runsOut_unexpected .malformedIdentifier (by decide)]
  constructor
  · rintro ⟨_, m, ht, -, -, rfl, hrest, rfl⟩
    exact ⟨by rw [ht.rest, hrest]; rfl, rfl⟩
  · rintro ⟨hrest, rfl⟩
    exact ⟨[], i, .refl i, by simp, by rw [hrest]; exact nextNot_nil _, rfl, hrest, rfl⟩

/-- A name is missing where no more than a quote is left. -/
theorem runsOut_ident : RunsOut ident i h ↔ UnfinishedName i.rest ∧ h = none := by
  have hspan : ∀ {name : List Char} {start : Nat} {m : Input},
      ¬ RunsOut (spanFrom start >>= fun span => pure (⟨String.ofList name, span⟩ : Ident)) m h := by
    intro name start m
    rw [runsOut_spanFrom_bind]
    exact not_runsOut_pure
  rw [ident, runsOut_offset_bind, runsOut_peek?_bind]
  cases hf : i.rest.head?.filter isQuote with
  | none =>
    simp only [Option.isSome_none, Bool.false_eq_true, if_false]
    rw [runsOut_name_bind fun name m => hspan]
    refine and_congr_left fun _ => ⟨fun hrest => by rw [hrest]; exact .nil, fun hname => ?_⟩
    generalize i.rest = text at hf hname
    cases hname with
    | nil => rfl
    | quote hq => simp [hq] at hf
  | some quote =>
    obtain ⟨hd, hq⟩ := Option.filter_eq_some_iff.mp hf
    have hclose : ∀ {name : List Char} {start : Nat} {m : Input},
        ¬ RunsOut (discard (eat quote) >>= fun _ => spanFrom start >>= fun span =>
          pure (⟨String.ofList name, span⟩ : Ident)) m h := by
      intro name start m
      rw [runsOut_bind]
      rintro (hr | ⟨_, _, _, hr⟩)
      · exact not_runsOut_eat (runsOut_map.mp hr)
      · exact hspan hr
    simp only [Option.isSome_some, if_true, runsOut_skip_bind hd,
      runsOut_name_bind fun name m => hclose]
    constructor
    · rintro ⟨m, hm, hrest, rfl⟩
      rw [hm.rest, hrest]
      exact ⟨.quote hq, rfl⟩
    · rintro ⟨hname, rfl⟩
      obtain ⟨m, hm⟩ := Input.exists_takes_head hd
      refine ⟨m, hm, ?_, rfl⟩
      have hrest := hm.rest
      generalize i.rest = text at hname hrest
      cases hname with
      | nil => exact absurd hrest (by simp)
      | quote _ => exact (List.cons.inj hrest).2.symm

/-- A name with the blanks behind it. -/
theorem exists_ident_iff {P : Ident → Input → Prop} :
    (∃ id m, ident i = .ok id m ∧ ∃ gap l, m.Skips gap l ∧ P id l) ↔
      ∃ id name ending gap l, NameText id name ending ∧ i.Takes (id ++ gap) l ∧ Blanks gap ∧
        NextNot isBlank l.rest ∧ ending.Clear gap l.rest ∧ P ⟨name, extent i.offset id⟩ l := by
  constructor
  · rintro ⟨⟨name, span⟩, m, hid, gap, l, hl, hP⟩
    obtain ⟨id, ending, hm, hname, rfl, hn⟩ := ident_eq_ok.mp hid
    refine ⟨id, _, ending, gap, l, hname, hm.trans hl.takes, hl.blank, hl.stop, fun hgap => ?_, hP⟩
    rwa [hl.takes.rest, hgap] at hn
  · rintro ⟨id, name, ending, gap, l, hname, ht, hb, hfresh, hclear, hP⟩
    obtain ⟨m, hm, hl⟩ := Input.takes_append.mp ht
    refine ⟨⟨name, extent i.offset id⟩, m, ident_eq_ok.mpr ⟨id, ending, hm, hname, rfl, ?_⟩, gap, l,
      ⟨hl, hb, hfresh⟩, hP⟩
    rw [hl.rest]
    exact hclear.nextNot hb

/-- A key with its colon, or what is read behind it, is missing. -/
theorem runsOut_keyed {value : Reader α} : RunsOut (keyed value) i h ↔
    (UnfinishedKey i.rest ∧ h = none) ∨
      ∃ key name m, KeyText key name ∧ i.Takes key m ∧ NextNot isBlank m.rest ∧ RunsOut value m h := by
  have hvalue : ∀ {key : Ident} {m : Input},
      RunsOut (value >>= fun a => (pure (key, a) : Reader (Ident × α))) m h ↔ RunsOut value m h := by
    intro key m
    simp only [runsOut_bind, not_runsOut_pure, and_false, exists_false, or_false]
  simp only [keyed, runsOut_bind (x := ident), runsOut_ident, runsOut_blanks_bind, runsOut_eat_bind,
    if_true, Bool.false_eq_true, if_false, hvalue,
    runsOut_unexpected .expectedKeyValueSeparator (by decide), exists_ident_iff]
  constructor
  · rintro (⟨hname, rfl⟩ | ⟨id, name, ending, gap, m, hname, ht, hb, -, -, ⟨k, hc, gap', l, hl, hv⟩ |
      ⟨-, hrest, rfl⟩⟩)
    · exact .inl ⟨.name hname, rfl⟩
    · exact .inr ⟨_, _, l, .mk hname hb hl.blank, (ht.trans hc).trans hl.takes, hl.stop, hv⟩
    · exact .inl ⟨.colon hname hb (ht.eq_of_end hrest), rfl⟩
  · rintro (⟨hkey, rfl⟩ | ⟨_, _, l, ⟨hname, hb, hb'⟩, ht, hfresh, hv⟩)
    · generalize htext : i.rest = text at hkey
      cases hkey with
      | name hname => exact .inl ⟨hname, rfl⟩
      | @colon id gap _ name ending hname hb hrest =>
        exact .inr ⟨id, name, ending, gap, _, hname, Input.takes_all (htext.trans hrest), hb,
          nextNot_nil _, fun _ => nextNot_nil _, .inr ⟨by simp [Input.after], rfl, rfl⟩⟩
    · obtain ⟨k, ht, hl⟩ := Input.takes_append.mp ht
      obtain ⟨m, ht, hc⟩ := Input.takes_append.mp ht
      exact .inr ⟨_, _, _, _, m, hname, ht, hb, nextNot_of_head? hc.head (by decide), fun _ =>
        nextNot_of_head? hc.head (Ending.continues_of_mem_delimiters (by decide) _),
        .inl ⟨k, hc, _, l, ⟨hl, hb', hfresh⟩, hv⟩⟩

end Reader

end LocaleText
