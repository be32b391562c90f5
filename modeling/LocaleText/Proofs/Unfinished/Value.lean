import LocaleText.Proofs.Reading.Exact
import LocaleText.Proofs.Unfinished.Basic

/-!
# Values that the source ends within

The readers of values run out of input exactly on unfinished texts, and the composite that they blame
is the innermost one that is open, given readers that do so for the expressions one level further in.

* `Input.BreaksOff` and `Input.EndsIn` say that what is left of a source is an unfinished text
* `ExactAtEnd bound` are the readers that read exactly the expressions and run out exactly on the
  unfinished ones, on inputs shorter than a bound
* `Reader.runsOut_expressionRounds` and `Reader.runsOut_memberRounds` are the inductions over the parts
  of a composite
* `Reader.runsOut_value` is the equivalence for values
-/

namespace LocaleText

/-- What is left of a source is an unfinished part of some kind, and this is the innermost composite
that is open in it. -/
def Input.BreaksOff (i : Input) (part : Nat → List Char → List Opening → Prop)
    (h : Option Opening) : Prop :=
  ∃ openings, part i.offset i.rest openings ∧ openings.head? = h

/-- The source ends within a production. -/
def Input.EndsIn (i : Input) (p : Production) (n : Nesting) (h : Option Opening) : Prop :=
  i.BreaksOff (Unfinished p n) h

/-- Readers that are exact, and that run out exactly where the source ends within an expression. -/
structure ExactAtEnd (bound : Nat) (inner : Nesting → Reader Expr) : Prop where
  exact : Exact bound inner
  runsOut : ∀ n i h, i.rest.length < bound →
    (Reader.RunsOut (inner n) i h ↔ i.EndsIn .expr n h)

/-- The innermost composite is the outer one where nothing else is open. -/
theorem head?_append_singleton (openings : List Opening) (o : Opening) :
    (openings ++ [o]).head? = some (openings.head?.getD o) := by
  cases openings <;> rfl

namespace Input

variable {i l : Input} {p : Production} {n : Nesting} {h : Option Opening} {text : List Char}

/-- What is unfinished begins as an expression does, if it begins at all. -/
theorem EndsIn.mayStart (he : i.EndsIn p n h) (hp : p ≠ .enclosed)
    (hm : ∀ marked, p ≠ .members marked) : MayStart i.rest := by
  obtain ⟨openings, hu, -⟩ := he
  exact hu.mayStart hp hm

/-- The source ends within a list of items before an item, within one, or behind some. -/
theorem endsIn_items_iff : i.EndsIn .items n h ↔ (i.rest = [] ∧ h = none) ∨
    (i.rest ≠ [] ∧ i.EndsIn .expr n h) ∨
    ∃ item gap separator e ending l, SpellsExpr n i.offset item e ending ∧
      i.Takes (item ++ gap ++ separator) l ∧ Blanks gap ∧ Separator ending gap l.rest separator ∧
      l.EndsIn .items n h := by
  constructor
  · rintro ⟨openings, hu, rfl⟩
    generalize htext : i.rest = text at hu
    cases hu with
    | noItem => exact .inl ⟨rfl, rfl⟩
    | item hne hu => exact .inr (.inl ⟨hne, openings, by rw [htext]; exact hu, rfl⟩)
    | moreItems hspells hb hsep hu ht =>
      exact .inr (.inr ⟨_, _, _, _, _, _, hspells, takes_after (htext.trans ht), hb, hsep,
        openings, hu, rfl⟩)
  · rintro (⟨hrest, rfl⟩ | ⟨hne, openings, hu, rfl⟩ |
      ⟨_, _, _, _, _, l, hspells, ht, hb, hsep, openings, hu, rfl⟩)
    · exact ⟨[], by rw [hrest]; exact .noItem, rfl⟩
    · exact ⟨openings, .item hne hu, rfl⟩
    · rw [ht.offset] at hu
      exact ⟨openings, .moreItems hspells hb hsep hu ht.rest, rfl⟩

/-- The source ends within a member behind its mark, or within the members behind it. The flags say
whether a member before it is marked, and whether it is marked itself. -/
def EndsInMember (i : Input) (marked mark : Bool) (n : Nesting) (h : Option Opening) : Prop :=
  (UnfinishedKey i.rest ∧ h = none) ∨
  (∃ key name l, KeyText key name ∧ i.Takes key l ∧ l.EndsIn .expr n h) ∨
  ∃ key name e item gap separator ending l, KeyText key name ∧
    SpellsExpr n (i.offset + byteLength key) item e ending ∧
    i.Takes (key ++ item ++ gap ++ separator) l ∧ Blanks gap ∧
    Separator ending gap l.rest separator ∧ (mark = true → marked = false) ∧
    l.EndsIn (.members (marked || mark)) n h

/-- The source ends within the members of an object before one, or behind a mark or none. -/
theorem endsIn_members_iff {marked : Bool} : i.EndsIn (.members marked) n h ↔
    (i.rest = [] ∧ h = none) ∨
    ∃ mark m, i.rest ≠ [] ∧ i.Takes (markText mark) m ∧ m.EndsInMember marked mark n h := by
  constructor
  · rintro ⟨openings, hu, rfl⟩
    generalize htext : i.rest = text at hu
    cases hu with
    | noMember => exact .inl ⟨rfl, rfl⟩
    | memberKey hne hkey ht =>
      exact .inr ⟨_, _, hne, takes_after (htext.trans ht), .inl ⟨hkey, rfl⟩⟩
    | @member _ mark _ _ key rest _ _ _ hkey hu ht =>
      obtain ⟨m, hm, hk⟩ := takes_append.mp (takes_after (htext.trans ht))
      obtain ⟨c, cs, rfl, -⟩ := hkey.exists_cons
      exact .inr ⟨mark, m, by simp [ht], hm, .inr (.inl ⟨_, _, _, hkey, hk, openings, hu, rfl⟩)⟩
    | @moreMembers _ _ _ member key item gap separator rest _ _ _ hkey hspells hb hsep hmark hu ht =>
      have hall : i.rest = markText member.marked ++ (key ++ item ++ gap ++ separator ++ rest) := by
        rw [htext, ht]
        simp [Member.mark, markText]
      obtain ⟨c, cs, rfl, -⟩ := hkey.exists_cons
      refine .inr ⟨member.marked, _, by simp [ht], takes_after hall, .inr (.inr ⟨_, member.key,
        member.value, item, gap, separator, _, _, hkey, ?_, takes_after rfl, hb, hsep, hmark, openings, ?_,
        rfl⟩)⟩
      · simpa [after, Member.mark, markText, Nat.add_assoc] using hspells
      · simpa [after, Member.mark, markText, Nat.add_assoc] using hu
  · rintro (⟨hrest, rfl⟩ | ⟨mark, m, hne, hm, ⟨hkey, rfl⟩ | ⟨key, name, l, hkey, hk, openings, hu, rfl⟩ |
      ⟨key, name, e, item, gap, separator, ending, l, hkey, hspells, ht, hb, hsep, hmark, openings, hu,
        rfl⟩⟩)
    · exact ⟨[], by rw [hrest]; exact .noMember, rfl⟩
    · exact ⟨[], .memberKey hne hkey hm.rest, rfl⟩
    · have hall := hm.trans hk
      rw [hall.offset] at hu
      exact ⟨openings, .member hkey hu hall.rest, rfl⟩
    · have hall := hm.trans ht
      rw [hm.offset, Nat.add_assoc, ← byteLength_append] at hspells
      rw [hall.offset] at hu
      refine ⟨openings, .moreMembers (m := ⟨mark, name, e⟩) hkey hspells hb hsep hmark ?_ ?_, rfl⟩
      · simpa [Member.mark, markText] using hu
      · simpa [Member.mark, markText] using hall.rest

/-- The source ends within a value before it, within an array or within an object. -/
theorem endsIn_value_iff : i.EndsIn .value n h ↔ n.HasRoom ∧ ((i.rest = [] ∧ h = none) ∨
    (∃ gap l h', i.Takes (['['] ++ gap) l ∧ Blanks gap ∧ l.EndsIn .items n.deeper h' ∧
      h = some (h'.getD ⟨.array, i.offset⟩)) ∨
    ∃ gap l h', i.Takes (['\x7b'] ++ gap) l ∧ Blanks gap ∧ l.EndsIn (.members false) n.deeper h' ∧
      h = some (h'.getD ⟨.object, i.offset⟩)) := by
  constructor
  · rintro ⟨openings, hu, rfl⟩
    generalize htext : i.rest = text at hu
    cases hu with
    | noValue hroom => exact ⟨hroom, .inl ⟨rfl, rfl⟩⟩
    | array hroom hb hu ht =>
      exact ⟨hroom, .inr (.inl ⟨_, _, _, takes_after (htext.trans ht), hb, ⟨_, hu, rfl⟩,
        head?_append_singleton _ _⟩)⟩
    | object hroom hb hu ht =>
      exact ⟨hroom, .inr (.inr ⟨_, _, _, takes_after (htext.trans ht), hb, ⟨_, hu, rfl⟩,
        head?_append_singleton _ _⟩)⟩
  · rintro ⟨hroom, ⟨hrest, rfl⟩ | ⟨gap, l, _, ht, hb, ⟨openings, hu, rfl⟩, rfl⟩ |
      ⟨gap, l, _, ht, hb, ⟨openings, hu, rfl⟩, rfl⟩⟩
    · exact ⟨[], by rw [hrest]; exact .noValue hroom, rfl⟩
    · rw [ht.offset] at hu
      exact ⟨_, .array hroom hb hu ht.rest, head?_append_singleton _ _⟩
    · rw [ht.offset] at hu
      exact ⟨_, .object hroom hb hu ht.rest, head?_append_singleton _ _⟩

end Input

/-- A key begins with a word character or a quote, if anything is left of it. -/
theorem UnfinishedKey.head {text : List Char} (h : UnfinishedKey text) :
    ∀ c ∈ text.head?, isWordChar c = true ∨ isQuote c = true := by
  intro c hc
  cases h with
  | name hname =>
    cases hname with
    | nil => exact absurd hc (by simp)
    | quote hq => exact .inr (Option.some.inj hc ▸ hq)
  | colon hname _ ht =>
    obtain ⟨d, ds, rfl, hd⟩ := hname.exists_cons
    rw [ht] at hc
    exact Option.some.inj hc ▸ hd

/-- So does a key with its colon. -/
theorem KeyText.head_of_takes {key : List Char} {name : String} {i l : Input} (h : KeyText key name)
    (ht : i.Takes key l) : ∀ c ∈ i.rest.head?, isWordChar c = true ∨ isQuote c = true := by
  intro c hc
  obtain ⟨d, ds, rfl, hd⟩ := h.exists_cons
  rw [ht.head] at hc
  exact Option.some.inj hc ▸ hd

theorem Input.EndsInMember.head {i : Input} {marked mark : Bool} {n : Nesting} {h : Option Opening}
    (he : i.EndsInMember marked mark n h) :
    ∀ c ∈ i.rest.head?, isWordChar c = true ∨ isQuote c = true := by
  rcases he with ⟨hkey, -⟩ | ⟨key, name, l, hkey, hk, -⟩ |
    ⟨key, name, e, item, gap, separator, ending, l, hkey, -, ht, -⟩
  · exact hkey.head
  · exact hkey.head_of_takes hk
  · simp only [List.append_assoc] at ht
    obtain ⟨k, hk, -⟩ := Input.takes_append.mp ht
    exact hkey.head_of_takes hk

/-- A text begins with a mark or with a key, as members do, unless it is empty. -/
def BeginsMember (text : List Char) : Prop :=
  ∀ c ∈ text.head?, c = '*' ∨ isWordChar c = true ∨ isQuote c = true

/-- Members that the source ends within begin so. -/
theorem Input.EndsIn.beginsMember {i : Input} {marked : Bool} {n : Nesting} {h : Option Opening}
    (he : i.EndsIn (.members marked) n h) : BeginsMember i.rest := by
  intro c hc
  rcases endsIn_members_iff.mp he with ⟨hnil, -⟩ | ⟨mark, m, -, hm, hmember⟩
  · exact absurd hc (by simp [hnil])
  cases mark with
  | true =>
    rw [hm.head] at hc
    exact .inl (Option.some.inj hc).symm
  | false =>
    obtain rfl := takes_nil.mp hm
    exact .inr (hmember.head c hc)

namespace BeginsMember

variable {text : List Char}

/-- Neither a mark nor a key is a blank. -/
theorem nextNot_isBlank (h : BeginsMember text) : NextNot isBlank text := by
  intro c hc
  rcases h c hc with rfl | hkey
  · decide
  · exact (key_head hkey).1

theorem head?_ne_comma (h : BeginsMember text) : text.head? ≠ some ',' := by
  intro hc
  rcases h _ hc with h | h
  · exact absurd h (by decide)
  · exact absurd h (by decide)

/-- An expression in front of a member ends there, unless the mark is read as an operator. -/
theorem stops {rank : Nat} (h : BeginsMember text) (hs : NextNot isSign text) : Stops rank text := by
  cases text with
  | nil => exact .nil rank
  | cons c cs =>
    rw [nextNot_cons] at hs
    rcases h c rfl with rfl | hkey
    · exact absurd hs (by decide)
    · obtain ⟨-, hops, hq, -⟩ := key_head hkey
      exact .cons hops hq

end BeginsMember

/-! ### Separators -/

section Separators

variable {ending : Ending} {gap rest between : List Char}

theorem Parted.separator (h : Parted ending gap rest between) :
    Separator ending gap rest between := by
  cases h with
  | comma hb => exact .comma hb
  | omitted hclear hstops _ => exact .omitted ⟨hclear, nextNot_isSign_of_stops hstops⟩

/-- What separates two parts in the grammar parts them for a reader. -/
theorem Separator.parted (h : Separator ending gap rest between)
    (hstops : NextNot isSign rest → Stops 0 rest) (hcomma : rest.head? ≠ some ',') :
    Parted ending gap rest between := by
  cases h with
  | comma hb => exact .comma hb
  | omitted hapart => exact .omitted hapart.clear (hstops hapart.sign) hcomma

end Separators

namespace Reader

variable {inner : Nesting → Reader Expr} {bound : Nat} {n : Nesting} {i l : Input}
  {h : Option Opening} {composite : Composite} {p : Nat}

/-- What comes behind a part of a list, the gap behind it and a comma that may be left out. -/
theorem exists_separated_iff (hx : Exact bound inner) (hi : i.rest.length < bound)
    {P : Expr → Input → Prop} :
    (∃ e m, inner n i = .ok e m ∧ ∃ gap m', m.Skips gap m' ∧
      ∃ u l, optionalComma m' = .ok u l ∧ P e l) ↔
    ∃ e item gap separator ending l, SpellsExpr n i.offset item e ending ∧
      i.Takes (item ++ gap ++ separator) l ∧ Blanks gap ∧ NextNot isBlank l.rest ∧
      Parted ending gap l.rest separator ∧ P e l := by
  constructor
  · rintro ⟨e, m, he, gap, m', hm, u, l, hl, hP⟩
    obtain ⟨item, gap, ending, separator, hspells, ht, hb, hfresh, hparted⟩ :=
      (separated_iff hx hi).mp ⟨m, gap, m', he, hm, hl⟩
    exact ⟨e, item, gap, separator, ending, l, hspells, ht, hb, hfresh, hparted, hP⟩
  · rintro ⟨e, item, gap, separator, ending, l, hspells, ht, hb, hfresh, hparted, hP⟩
    obtain ⟨m, gap, m', he, hm, hl⟩ := (separated_iff hx hi).mpr
      ⟨item, gap, ending, separator, hspells, ht, hb, hfresh, hparted⟩
    exact ⟨e, m, he, gap, m', hm, (), l, hl, hP⟩

/-! ### Arrays and indices -/

/-- By induction on the rounds. -/
theorem runsOut_expressionRounds (hx : ExactAtEnd bound inner) (hc : composite.closer = ']')
    {rounds : Nat} : ∀ {items : Array Expr} {i : Input}, i.rest.length < bound →
      i.rest.length < rounds →
      (RunsOut (repeatUpTo rounds items
          (expressionRound inner n composite (Opening.span ⟨composite, p⟩))) i h ↔
        ∃ h', i.EndsIn .items n h' ∧ h = some (h'.getD ⟨composite, p⟩)) := by
  induction rounds with
  | zero =>
    intro items i _ hr
    omega
  | succ rounds ih =>
    intro items i hi hr
    rw [repeatUpTo_expressionRound, runsOut_peek?_bind]
    cases hhead : i.rest.head? with
    | none =>
      have hnil := List.head?_eq_none_iff.mp hhead
      rw [runsOut_unterminated]
      constructor
      · intro hh
        exact ⟨none, Input.endsIn_items_iff.mpr (.inl ⟨hnil, rfl⟩), hh⟩
      · rintro ⟨h', he, rfl⟩
        rcases Input.endsIn_items_iff.mp he with ⟨-, rfl⟩ | ⟨hne, -⟩ | ⟨_, _, _, _, _, _, hspells, ht, -⟩
        · rfl
        · exact absurd hnil hne
        · exact absurd (ht.rest.symm.trans hnil) (by simp [hspells.starts.ne_nil])
    | some c =>
      have hne : i.rest ≠ [] := fun hnil => absurd hhead (by simp [hnil])
      simp only [runsOut_ite, runsOut_skip_bind hhead, not_runsOut_pure, and_false, exists_false,
        false_or, runsOut_bind (x := within _ _ _), runsOut_within, within_eq_ok, runsOut_blanks_bind,
        runsOut_bind (x := optionalComma), not_runsOut_optionalComma, hx.runsOut n i _ hi, hc,
        exists_separated_iff hx.exact hi]
      have hbehind : ∀ {item gap separator : List Char} {l : Input} {e : Expr} {ending : Ending},
          SpellsExpr n i.offset item e ending → i.Takes (item ++ gap ++ separator) l →
          (RunsOut (repeatUpTo rounds (items.push e)
              (expressionRound inner n composite (Opening.span ⟨composite, p⟩))) l h ↔
            ∃ h', l.EndsIn .items n h' ∧ h = some (h'.getD ⟨composite, p⟩)) := by
        intro item gap separator l e ending hspells ht
        have hlt := ht.length_lt (by simp [hspells.starts.ne_nil])
        exact ih (by omega) (by omega)
      constructor
      · rintro ⟨-, ⟨h', he, rfl⟩ | ⟨e, item, gap, separator, ending, l, hspells, ht, hb, -, hparted,
          hl⟩⟩
        · exact ⟨h', Input.endsIn_items_iff.mpr (.inr (.inl ⟨hne, he⟩)), rfl⟩
        · obtain ⟨h', he, rfl⟩ := (hbehind hspells ht).mp hl
          exact ⟨h', Input.endsIn_items_iff.mpr (.inr (.inr ⟨item, gap, separator, e, ending, l, hspells,
            ht, hb, hparted.separator, he⟩)), rfl⟩
      · rintro ⟨h', he, rfl⟩
        refine ⟨fun hclose => ?_, ?_⟩
        · exact (he.mayStart (by simp) (by simp)).head?_ne (by decide) (hclose ▸ hhead)
        · rcases Input.endsIn_items_iff.mp he with ⟨hnil, -⟩ | ⟨-, he⟩ | ⟨item, gap, separator, e, ending,
            l, hspells, ht, hb, hsep, he⟩
          · exact absurd hnil hne
          · exact .inl ⟨h', he, rfl⟩
          · have hstart := he.mayStart (by simp) (by simp)
            exact .inr ⟨e, item, gap, separator, ending, l, hspells, ht, hb, hstart.nextNot_isBlank,
              hsep.parted hstart.stops (hstart.head?_ne (by decide)),
              (hbehind hspells ht).mpr ⟨h', he, rfl⟩⟩

theorem here_eq_span {c : Char} (hc : i.rest.head? = some c) (ho : composite.opener = c) :
    i.here = Opening.span ⟨composite, i.offset⟩ := by
  obtain ⟨l, hl⟩ := Input.exists_takes_head hc
  rw [Input.here, hl.rest, Opening.span, ho]
  rfl

/-- An array or an index that the source ends within is blamed unless something inside it is. -/
theorem runsOut_expressions (composite : Composite) (hx : ExactAtEnd bound inner)
    (hc : composite.closer = ']')
    (hi : i.rest.length < bound + 1) (hb : i.rest.head? = some '[') :
    RunsOut (expressions inner (bound + 1) n composite) i h ↔ ∃ gap l h', i.Takes (['['] ++ gap) l ∧
      Blanks gap ∧ l.EndsIn .items n h' ∧ h = some (h'.getD ⟨composite, i.offset⟩) := by
  have ho : composite.opener = '[' := by
    cases composite
    · rfl
    · rfl
    · exact absurd hc (by decide)
  rw [expressions, runsOut_here_bind, runsOut_skip_blanks_bind hb, here_eq_span hb ho]
  constructor
  · rintro ⟨gap, l, ht, hblank, -, hr⟩
    have hlt := ht.length_lt (by simp)
    obtain ⟨h', he, rfl⟩ := (runsOut_expressionRounds hx hc (by omega) (by omega)).mp hr
    exact ⟨gap, l, h', ht, hblank, he, rfl⟩
  · rintro ⟨gap, l, h', ht, hblank, he, rfl⟩
    have hlt := ht.length_lt (by simp)
    exact ⟨gap, l, ht, hblank, (he.mayStart (by simp) (by simp)).nextNot_isBlank,
      (runsOut_expressionRounds hx hc (by omega) (by omega)).mpr ⟨h', he, rfl⟩⟩

/-! ### Objects -/

/-- A mark is taken where it stands. -/
theorem eat_mark_eq_ok {marked : Bool} : eat '*' i = .ok marked l ↔
    i.Takes (markText marked) l ∧ (marked = false → i.rest.head? ≠ some '*') := by
  rw [eat_eq_ok, markText]
  cases marked with
  | true => simp
  | false =>
    simp only [and_false, and_true, false_or, Bool.false_eq_true, if_false, Input.takes_nil,
      forall_const]
    exact and_comm

/-- Neither the closer nor, without a mark, the mark comes next where a member begins. -/
theorem mark_front {marked : Bool} (hm : i.Takes (markText marked) l)
    (hkey : ∀ c ∈ l.rest.head?, isWordChar c = true ∨ isQuote c = true) :
    i.rest.head? ≠ some '\x7d' ∧ (marked = false → i.rest.head? ≠ some '*') := by
  cases marked with
  | true =>
    rw [hm.head]
    exact ⟨by decide, fun hf => absurd hf (by decide)⟩
  | false =>
    obtain rfl := Input.takes_nil.mp hm
    refine ⟨fun hc => ?_, fun _ hc => ?_⟩
    · exact (key_head (hkey _ hc)).2.2.2.2.1 rfl
    · exact (key_head (hkey _ hc)).2.2.2.2.2 rfl

/-- What comes behind a member that is not the second one marked. -/
theorem runsOut_behindMember {rounds : Nat} {opener marker : Span} {entries : Keyed Expr}
    {default : Option (String × Span)} {marked : Bool} {member : Ident × Expr} :
    RunsOut (behindMember rounds inner n opener marker entries default marked member) i h ↔
      ∃ gap m, i.Skips gap m ∧ ∃ u l, optionalComma m = .ok u l ∧
        (marked = true → default = none) ∧
        RunsOut (repeatUpTo rounds (entries.insert member.1.name member.2,
          nextDefault marked member.1.name marker default) (memberRound inner n opener)) l h := by
  have hbehind : ∀ {next : Option (String × Span)}, RunsOut (do
      blanks
      optionalComma
      repeatUpTo rounds (entries.insert member.1.name member.2, next) (memberRound inner n opener)) i h ↔
      ∃ gap m, i.Skips gap m ∧ ∃ u l, optionalComma m = .ok u l ∧
        RunsOut (repeatUpTo rounds (entries.insert member.1.name member.2, next)
          (memberRound inner n opener)) l h := by
    intro next
    simp only [runsOut_blanks_bind, runsOut_bind (x := optionalComma), not_runsOut_optionalComma,
      false_or]
  cases marked with
  | false => simpa [behindMember, nextDefault] using hbehind
  | true =>
    cases default with
    | none => simpa [behindMember, nextDefault] using hbehind
    | some first =>
      simp only [behindMember, not_runsOut_fail .duplicateDefault (by decide), reduceCtorEq, imp_false,
        not_true_eq_false, false_and, and_false, exists_false]

/-- A member and what comes behind it. -/
theorem exists_member_iff (hx : Exact bound inner) (hi : i.rest.length < bound)
    (P : String → Expr → Input → Prop) :
    (∃ member m, keyed (inner n) i = .ok member m ∧ ∃ gap m', m.Skips gap m' ∧
      ∃ u l, optionalComma m' = .ok u l ∧ P member.1.name member.2 l) ↔
    ∃ key name e item gap separator ending l, KeyText key name ∧
      SpellsExpr n (i.offset + byteLength key) item e ending ∧
      i.Takes (key ++ item ++ gap ++ separator) l ∧ Blanks gap ∧ NextNot isBlank l.rest ∧
      Parted ending gap l.rest separator ∧ P name e l := by
  constructor
  · rintro ⟨⟨⟨name, span⟩, e⟩, m, hmember, gap, m', hm, u, l, hl, hP⟩
    obtain ⟨key, k, hkey, hk, -, he⟩ := keyed_iff.mp ⟨span, hmember⟩
    have hlen := hk.length
    obtain ⟨item, gap, ending, separator, hspells, ht, hb, hfresh, hparted⟩ :=
      (separated_iff hx (by omega)).mp ⟨m, gap, m', he, hm, hl⟩
    rw [hk.offset] at hspells
    refine ⟨key, name, e, item, gap, separator, ending, l, hkey, hspells, ?_, hb, hfresh, hparted, hP⟩
    simpa using hk.trans ht
  · rintro ⟨key, name, e, item, gap, separator, ending, l, hkey, hspells, ht, hb, hfresh, hparted, hP⟩
    rw [List.append_assoc, List.append_assoc, ← List.append_assoc item] at ht
    obtain ⟨k, hk, ht⟩ := Input.takes_append.mp ht
    have hlen := hk.length
    rw [← hk.offset] at hspells
    obtain ⟨m, gap, m', he, hm, hl⟩ := (separated_iff hx (by omega)).mpr
      ⟨item, gap, ending, separator, hspells, ht, hb, hfresh, hparted⟩
    have hfresh' : NextNot isBlank k.rest := by
      rw [ht.rest, List.append_assoc, List.append_assoc]
      exact (hspells.starts.append _).nextNot_isBlank
    obtain ⟨span, hmember⟩ := keyed_iff.mpr ⟨key, k, hkey, hk, hfresh', he⟩
    exact ⟨(⟨name, span⟩, e), m, hmember, gap, m', hm, (), l, hl, hP⟩

theorem isSome_nextDefault {marked : Bool} {key : String} {marker : Span}
    {default : Option (String × Span)} :
    (nextDefault marked key marker default).isSome = (default.isSome || marked) := by
  cases marked <;> simp [nextDefault]

/-- A member behind its mark, and the members behind it. -/
theorem runsOut_member (hx : ExactAtEnd bound inner) (hi : i.rest.length < bound) {rounds : Nat}
    {entries : Keyed Expr} {default : Option (String × Span)} {marker : Span} {mark : Bool}
    (hrest : ∀ {entries default l}, l.rest.length < i.rest.length →
      (RunsOut (repeatUpTo rounds (entries, default)
          (memberRound inner n (Opening.span ⟨.object, p⟩))) l h ↔
        ∃ h', l.EndsIn (.members default.isSome) n h' ∧ h = some (h'.getD ⟨.object, p⟩))) :
    RunsOut (within .object (Opening.span ⟨.object, p⟩) (keyed (inner n)) >>=
        behindMember rounds inner n (Opening.span ⟨.object, p⟩) marker entries default mark) i h ↔
      ∃ h', i.EndsInMember default.isSome mark n h' ∧ h = some (h'.getD ⟨.object, p⟩) := by
  simp only [runsOut_bind (x := within _ _ _), runsOut_within, within_eq_ok, runsOut_keyed,
    runsOut_behindMember]
  rw [exists_member_iff hx.exact hi fun key e l => (mark = true → default = none) ∧
    RunsOut (repeatUpTo rounds (entries.insert key e, nextDefault mark key marker default)
      (memberRound inner n (Opening.span ⟨.object, p⟩))) l h]
  constructor
  · rintro (⟨h', ⟨hkey, rfl⟩ | ⟨key, name, k, hkey, hk, -, hr⟩, rfl⟩ | ⟨key, name, e, item, gap, separator,
      ending, l, hkey, hspells, ht, hb, -, hparted, hmark, hr⟩)
    · exact ⟨none, .inl ⟨hkey, rfl⟩, rfl⟩
    · have hlen := hk.length
      exact ⟨h', .inr (.inl ⟨key, name, k, hkey, hk, (hx.runsOut n k h' (by omega)).mp hr⟩), rfl⟩
    · obtain ⟨h', he, rfl⟩ := (hrest (ht.length_lt (by simp [hspells.starts.ne_nil]))).mp hr
      rw [isSome_nextDefault] at he
      exact ⟨h', .inr (.inr ⟨key, name, e, item, gap, separator, ending, l, hkey, hspells, ht, hb,
        hparted.separator, by simpa using hmark, he⟩), rfl⟩
  · rintro ⟨h', ⟨hkey, rfl⟩ | ⟨key, name, k, hkey, hk, he⟩ | ⟨key, name, e, item, gap, separator, ending, l,
      hkey, hspells, ht, hb, hsep, hmark, he⟩, rfl⟩
    · exact .inl ⟨none, .inl ⟨hkey, rfl⟩, rfl⟩
    · have hlen := hk.length
      exact .inl ⟨h', .inr ⟨key, name, k, hkey, hk, (he.mayStart (by simp) (by simp)).nextNot_isBlank,
        (hx.runsOut n k h' (by omega)).mpr he⟩, rfl⟩
    · refine .inr ⟨key, name, e, item, gap, separator, ending, l, hkey, hspells, ht, hb,
        he.beginsMember.nextNot_isBlank, hsep.parted he.beginsMember.stops
        he.beginsMember.head?_ne_comma, by simpa using hmark,
        (hrest (ht.length_lt (by simp [hspells.starts.ne_nil]))).mpr ⟨h', ?_, rfl⟩⟩
      rwa [isSome_nextDefault]

/-- By induction on the rounds. -/
theorem runsOut_memberRounds (hx : ExactAtEnd bound inner) {rounds : Nat} :
    ∀ {entries : Keyed Expr} {default : Option (String × Span)} {i : Input},
      i.rest.length < bound → i.rest.length < rounds →
      (RunsOut (repeatUpTo rounds (entries, default)
          (memberRound inner n (Opening.span ⟨.object, p⟩))) i h ↔
        ∃ h', i.EndsIn (.members default.isSome) n h' ∧ h = some (h'.getD ⟨.object, p⟩)) := by
  induction rounds with
  | zero =>
    intro entries default i _ hr
    omega
  | succ rounds ih =>
    intro entries default i hi hr
    rw [repeatUpTo_memberRound, runsOut_peek?_bind]
    cases hhead : i.rest.head? with
    | none =>
      have hnil := List.head?_eq_none_iff.mp hhead
      simp only [runsOut_unterminated, Input.endsIn_members_iff, hnil, ne_eq, not_true_eq_false,
        false_and, exists_false, or_false, true_and, exists_eq_left, Option.getD_none]
    | some c =>
      have hne : i.rest ≠ [] := fun hnil => absurd hhead (by simp [hnil])
      have hmember : ∀ {m : Input} {mark : Bool}, i.Takes (markText mark) m →
          (RunsOut (within .object (Opening.span ⟨.object, p⟩) (keyed (inner n)) >>=
              behindMember rounds inner n (Opening.span ⟨.object, p⟩) i.here entries default mark) m h ↔
            ∃ h', m.EndsInMember default.isSome mark n h' ∧ h = some (h'.getD ⟨.object, p⟩)) := by
        intro m mark hm
        have hlen := hm.length
        exact runsOut_member hx (by omega) fun hl => ih (by omega) (by omega)
      simp only [runsOut_ite, runsOut_skip_bind hhead, not_runsOut_pure, and_false, exists_false,
        false_or, runsOut_here_bind, runsOut_bind (x := eat _), not_runsOut_eat, eat_mark_eq_ok]
      constructor
      · rintro ⟨-, mark, m, ⟨hm, -⟩, hr⟩
        obtain ⟨h', he, rfl⟩ := (hmember hm).mp hr
        exact ⟨h', Input.endsIn_members_iff.mpr (.inr ⟨mark, m, hne, hm, he⟩), rfl⟩
      · rintro ⟨h', he, rfl⟩
        rcases Input.endsIn_members_iff.mp he with ⟨hnil, -⟩ | ⟨mark, m, -, hm, he⟩
        · exact absurd hnil hne
        obtain ⟨hclose, hstar⟩ := mark_front hm he.head
        exact ⟨fun hc => hclose (hhead.trans (congrArg some hc)), mark, m, ⟨hm, hstar⟩,
          (hmember hm).mpr ⟨h', he, rfl⟩⟩

/-- An object that the source ends within is blamed unless something inside it is. -/
theorem runsOut_members (hx : ExactAtEnd bound inner) (hi : i.rest.length < bound + 1)
    (hb : i.rest.head? = some '\x7b') :
    RunsOut (members inner (bound + 1) n) i h ↔ ∃ gap l h', i.Takes (['\x7b'] ++ gap) l ∧
      Blanks gap ∧ l.EndsIn (.members false) n h' ∧ h = some (h'.getD ⟨.object, i.offset⟩) := by
  have hhere : i.here = Opening.span ⟨.object, i.offset⟩ := here_eq_span hb rfl
  rw [members, runsOut_here_bind, runsOut_skip_blanks_bind hb, hhere]
  constructor
  · rintro ⟨gap, l, ht, hblank, -, hr⟩
    have hlt := ht.length_lt (by simp)
    obtain ⟨h', he, rfl⟩ := (runsOut_memberRounds hx (by omega) (by omega)).mp hr
    exact ⟨gap, l, h', ht, hblank, he, rfl⟩
  · rintro ⟨gap, l, h', ht, hblank, he, rfl⟩
    have hlt := ht.length_lt (by simp)
    exact ⟨gap, l, ht, hblank, he.beginsMember.nextNot_isBlank,
      (runsOut_memberRounds hx (by omega) (by omega)).mpr ⟨h', he, rfl⟩⟩

/-! ### Values -/

/-- A value that the source ends within is told by its first character, if there is one. -/
theorem runsOut_value (hx : ExactAtEnd bound inner) (hi : i.rest.length < bound + 1) :
    RunsOut (value inner (bound + 1) n) i h ↔ i.EndsIn .value n h := by
  have hunexpected : RunsOut (unexpected .unexpectedValueStart : Reader Value) i h ↔
      i.rest = [] ∧ h = none := runsOut_unexpected .unexpectedValueStart (by decide)
  have hroom : RunsOut (value inner (bound + 1) n) i h → n.HasRoom := fun hr => (runsOut_nested.mp hr).1
  rw [Input.endsIn_value_iff]
  refine (and_iff_right_of_imp hroom).symm.trans (and_congr_right fun hn => ?_)
  constructor
  · intro hr
    rcases head?_cases (fun c => isQuote c = true ∨ c = '[' ∨ c = '\x7b') i.rest with
      hother | ⟨c, hc, hq | rfl | rfl⟩
    · rw [runsOut_of_eq (value_of_other hn hother)] at hr
      exact .inl (hunexpected.mp hr)
    · rw [runsOut_of_eq (value_of_isQuote hn hc hq)] at hr
      exact absurd hr (not_runsOut_quoted hc)
    · rw [runsOut_of_eq (value_of_bracket hn hc), runsOut_spanned] at hr
      exact .inr (.inl ((runsOut_expressions .array hx rfl hi hc).mp hr))
    · rw [runsOut_of_eq (value_of_brace hn hc), runsOut_spanned] at hr
      exact .inr (.inr ((runsOut_members hx hi hc).mp hr))
  · rintro (hnil | hr | hr)
    · rw [runsOut_of_eq (value_of_other hn (by simp [hnil.1]))]
      exact hunexpected.mpr hnil
    · obtain ⟨gap, l, h', ht, -⟩ := id hr
      rw [runsOut_of_eq (value_of_bracket hn ht.head), runsOut_spanned]
      exact (runsOut_expressions .array hx rfl hi ht.head).mpr hr
    · obtain ⟨gap, l, h', ht, -⟩ := id hr
      rw [runsOut_of_eq (value_of_brace hn ht.head), runsOut_spanned]
      exact (runsOut_members hx hi ht.head).mpr hr

end Reader

end LocaleText
