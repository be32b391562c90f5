import LocaleText.Proofs.Reading.Operation

/-!
# Exact readers of entries and resources

The readers of attributes, entries and whole sources read exactly what the grammar spells. Both
directions are shown for each reader: a run that succeeds yields a derivation, round by round, and a
derivation tells the run.

* `Reader.attribute_iff` and `Reader.entryEnd_iff` are about attributes and the end of an entry
* `Reader.entity_iff` and `Reader.macroDef_iff` are about what is behind the name of an entry
* `Reader.entry_iff` is the equivalence for entities and macros
* `Resource.ofChars_eq_ok_iff` says that a text is read exactly when it spells a resource, and that
  the resource is the one that it spells; `Resource.read_eq_ok_iff_spells` says so of sources
-/

namespace LocaleText

theorem Exact.mono {inner : Nesting → Reader Expr} {bound bound' : Nat}
    (h : Exact bound inner) (hle : bound' ≤ bound) : Exact bound' inner :=
  fun n i e l hi => h n i e l (Nat.lt_of_lt_of_le hi hle)

namespace Reader

variable {bound : Nat} {n : Nesting} {i l : Input}

/-- The readers of expressions that an entry runs are exact. -/
theorem exact_inner (bound : Nat) : Exact bound (expression (bound + 1)) :=
  Exact.mono (exact_expression (bound + 1)) (Nat.le_succ bound)

/-! ### Attributes -/

theorem entryValue_iff (hi : i.rest.length < bound + 1) {v : Value} :
    entryValue (bound + 1) n i = .ok v l ↔
      ∃ text, i.Takes text l ∧ SpellsValue n i.offset text v :=
  value_iff (exact_inner bound) hi

/-- A value does not begin with a blank. -/
theorem value_fresh {o : Nat} {text rest : List Char} {v : Value} (h : SpellsValue n o text v) :
    NextNot isBlank (text ++ rest) := by
  obtain ⟨c, cs, rfl, hc⟩ := h.exists_cons
  rw [List.cons_append, nextNot_cons, Bool.eq_false_iff]
  intro hb
  rcases hc with hq | rfl | rfl
  · rw [isQuote_of_isBlank hb] at hq
    exact absurd hq (by decide)
  · exact absurd hb (by decide)
  · exact absurd hb (by decide)

/-- A separator goes together with the blanks behind it. -/
theorem separator_eq_ok {α : Type} {a r : α} {c : Char} (hc : i.rest.head? = some c) :
    (do
      skip
      blanks
      pure a : Reader α) i = .ok r l ↔ (∃ k gap, i.Takes [c] k ∧ k.Skips gap l) ∧ r = a := by
  simp only [skip_blanks_bind_eq_ok hc, pure_eq_ok]
  constructor
  · intro h
    obtain ⟨k, gap, _, hk, hg, rfl, rfl⟩ := h
    exact ⟨⟨k, gap, hk, hg⟩, rfl⟩
  · intro h
    obtain ⟨⟨k, gap, hk, hg⟩, rfl⟩ := h
    exact ⟨k, gap, l, hk, hg, rfl, rfl⟩

/-- What is done behind an attribute: the end of the entry stays, a comma goes. -/
theorem behind_attribute_eq_ok {entries : Attributes} {r : Round Attributes Attributes} :
    (match i.rest.head? with
      | some '>' => pure (.done entries)
      | some ',' => do
        skip
        blanks
        pure (.again entries)
      | _ => unexpected .expectedAttributeSeparator : Reader (Round Attributes Attributes)) i =
        .ok r l ↔
      (i.rest.head? = some '>' ∧ i = l ∧ r = .done entries) ∨
        ∃ k gap, i.Takes [','] k ∧ k.Skips gap l ∧ r = .again entries := by
  by_cases hend : i.rest.head? = some '>'
  · have hcomma : ∀ k, ¬ i.Takes [','] k := by
      intro k hk
      rw [hk.head] at hend
      exact absurd hend (by decide)
    simp only [hend, hcomma, false_and, exists_false, or_false, true_and, pure_eq_ok]
    rw [and_comm, eq_comm (a := r)]
  · by_cases hcomma : i.rest.head? = some ','
    · simp only [hcomma, separator_eq_ok hcomma, Option.some.injEq, Char.reduceEq, false_and, false_or,
        ← exists_and_right, and_assoc]
    · have hno : ∀ k, ¬ i.Takes [','] k := fun k hk => hcomma hk.head
      simp only [hend, hno, false_and, exists_false, or_self, iff_false]
      exact unexpected_ne_ok

/-- An attribute and the blanks behind it. -/
theorem attribute_iff (hi : i.rest.length < bound + 1) {name : String} {v : Value} :
    (∃ span m gap, keyed (entryValue (bound + 1) n) i = .ok (⟨name, span⟩, v) m ∧ m.Skips gap l) ↔
      ∃ key value gap, KeyText key name ∧ SpellsValue n (i.offset + byteLength key) value v ∧
        Blanks gap ∧ i.Takes (key ++ value ++ gap) l ∧ NextNot isBlank l.rest := by
  constructor
  · intro hr
    obtain ⟨span, m, gap, hp, hg⟩ := hr
    obtain ⟨key, m₁, hkey, hm₁, _, hv⟩ := keyed_iff.mp ⟨span, hp⟩
    have hlen := hm₁.length
    obtain ⟨value, hm, hspells⟩ := (entryValue_iff (by omega)).mp hv
    rw [hm₁.offset] at hspells
    exact ⟨key, value, gap, hkey, hspells, hg.blank, (hm₁.trans hm).trans hg.takes, hg.stop⟩
  · intro hr
    obtain ⟨key, value, gap, hkey, hspells, hb, ht, hfresh⟩ := hr
    obtain ⟨m, hm, hg⟩ := Input.takes_append.mp ht
    obtain ⟨m₁, hm₁, hv⟩ := Input.takes_append.mp hm
    have hlen := hm₁.length
    rw [← hm₁.offset] at hspells
    have hvalue : entryValue (bound + 1) n m₁ = .ok v m :=
      (entryValue_iff (by omega)).mpr ⟨value, hv, hspells⟩
    have hfresh₁ : NextNot isBlank m₁.rest := by
      rw [hv.rest]
      exact value_fresh hspells
    obtain ⟨span, hp⟩ := keyed_iff.mpr ⟨key, m₁, hkey, hm₁, hfresh₁, hvalue⟩
    exact ⟨span, m, gap, hp, hg, hb, hfresh⟩

/-- A round of attributes, by the text that it takes. -/
theorem attributeRound_iff (hi : i.rest.length < bound + 1) {entries : Attributes}
    {r : Round Attributes Attributes} :
    attributeRound (bound + 1) n entries i = .ok r l ↔ ∃ key name value v gap,
      KeyText key name ∧ SpellsValue n (i.offset + byteLength key) value v ∧ Blanks gap ∧
        ((i.Takes (key ++ value ++ gap) l ∧ l.rest.head? = some '>' ∧
            r = .done (entries.insert name v)) ∨
          ∃ gap', i.Takes (key ++ value ++ gap ++ [','] ++ gap') l ∧ Blanks gap' ∧
            NextNot isBlank l.rest ∧ r = .again (entries.insert name v)) := by
  simp only [attributeRound, bind_eq_ok (x := keyed _), blanks_bind_eq_ok, peek?_bind]
  constructor
  · intro hr
    obtain ⟨⟨⟨name, span⟩, v⟩, m, hp, gap, k, hg, hr⟩ := hr
    obtain ⟨key, value, gap, hkey, hspells, hb, ht, _⟩ := (attribute_iff hi).mp ⟨span, m, gap, hp, hg⟩
    refine ⟨key, name, value, v, gap, hkey, hspells, hb, ?_⟩
    rcases behind_attribute_eq_ok.mp hr with ⟨hend, rfl, rfl⟩ | ⟨k', gap', hk', hl, rfl⟩
    · exact .inl ⟨ht, hend, rfl⟩
    · exact .inr ⟨gap', (ht.trans hk').trans hl.takes, hl.blank, hl.stop, rfl⟩
  · intro hr
    obtain ⟨key, name, value, v, gap, hkey, hspells, hb, hr⟩ := hr
    rcases hr with ⟨ht, hend, rfl⟩ | ⟨gap', ht, hb', hfresh, rfl⟩
    · obtain ⟨span, m, gap, hp, hg⟩ := (attribute_iff hi).mpr ⟨key, value, gap, hkey, hspells, hb, ht,
        nextNot_of_head? hend (by decide)⟩
      exact ⟨(⟨name, span⟩, v), m, hp, gap, l, hg, behind_attribute_eq_ok.mpr
        (.inl ⟨hend, rfl, rfl⟩)⟩
    · obtain ⟨k', hk', hl⟩ := Input.takes_append.mp ht
      obtain ⟨k, hk, hcomma⟩ := Input.takes_append.mp hk'
      obtain ⟨span, m, gap, hp, hg⟩ := (attribute_iff hi).mpr ⟨key, value, gap, hkey, hspells, hb, hk,
        nextNot_of_head? hcomma.head (by decide)⟩
      exact ⟨(⟨name, span⟩, v), m, hp, gap, k, hg, behind_attribute_eq_ok.mpr
        (.inr ⟨k', gap', hcomma, ⟨hl, hb', hfresh⟩, rfl⟩)⟩

/-- An attribute takes a character, and so does every other round. -/
theorem shortens_attributeRound : Shortens (bound + 1) (attributeRound (bound + 1) n) := by
  intro entries i entries' m hi hr
  obtain ⟨key, name, value, v, gap, hkey, _, _, hr⟩ := (attributeRound_iff hi).mp hr
  rcases hr with ⟨_, _, he⟩ | ⟨gap', ht, _⟩
  · cases he
  · exact ht.length_lt (by simp)

/-- More attributes, up to the end of the entry. -/
theorem attributes_of_rounds {entries as : Attributes}
    (hr : Rounds (attributeRound (bound + 1) n) entries i as l) (hi : i.rest.length < bound + 1) :
    ∃ text list, i.Takes text l ∧ l.rest.head? = some '>' ∧ SpellsAttributes n i.offset text list ∧
      as = list.foldl (fun entries a => entries.insert a.1 a.2) entries := by
  induction hr with
  | done hr =>
    obtain ⟨key, name, value, v, gap, hkey, hspells, hb, hr⟩ := (attributeRound_iff hi).mp hr
    rcases hr with ⟨ht, hend, he⟩ | ⟨_, _, _, _, he⟩
    · cases he
      exact ⟨_, [(name, v)], ht, hend, .last hkey hspells hb rfl, rfl⟩
    · cases he
  | again hr _ ih =>
    obtain ⟨key, name, value, v, gap, hkey, hspells, hb, hr⟩ := (attributeRound_iff hi).mp hr
    rcases hr with ⟨_, _, he⟩ | ⟨gap', ht, hb', _, he⟩
    · cases he
    · cases he
      have hlen := ht.length
      obtain ⟨rest, list, hl, hend, hrest, rfl⟩ := ih (by omega)
      rw [ht.offset] at hrest
      exact ⟨_, (name, v) :: list, ht.trans hl, hend, .cons hkey hspells hb hb' hrest rfl, rfl⟩

theorem attributes_fresh {o : Nat} {text rest : List Char} {list : List (String × Value)}
    (h : SpellsAttributes n o text list) :
    NextNot isBlank (text ++ rest) ∧ (text ++ rest).head? ≠ some '>' := by
  have hkey : ∀ {key rest name}, KeyText key name →
      NextNot isBlank (key ++ rest) ∧ (key ++ rest).head? ≠ some '>' := by
    intro key rest name hkey
    obtain ⟨c, cs, rfl, hc⟩ := hkey.exists_cons
    obtain ⟨hb, hheads, _⟩ := key_head hc
    refine ⟨nextNot_cons.mpr hb, fun he => ?_⟩
    obtain rfl : c = '>' := by simpa using he
    exact absurd hheads (by decide)
  cases h with
  | last h _ _ ht =>
    rw [ht, List.append_assoc, List.append_assoc]
    exact hkey h
  | cons h _ _ _ _ ht =>
    rw [ht, List.append_assoc, List.append_assoc, List.append_assoc, List.append_assoc,
      List.append_assoc]
    exact hkey h

/-- By induction on the attributes: each of them is a round. -/
theorem rounds_of_attributes : ∀ {o text list}, SpellsAttributes n o text list →
    ∀ {entries : Attributes} {i}, i.offset = o → i.Takes text l → l.rest.head? = some '>' →
      i.rest.length < bound + 1 → Rounds (attributeRound (bound + 1) n) entries i
        (list.foldl (fun entries a => entries.insert a.1 a.2) entries) l
  | _, _, _, .last hkey hspells hb htext, entries, i, ho, ht, hend, hi => by
    rw [htext] at ht
    rw [← ho] at hspells
    exact .done ((attributeRound_iff hi).mpr ⟨_, _, _, _, _, hkey, hspells, hb,
      .inl ⟨ht, hend, rfl⟩⟩)
  | _, _, _, .cons hkey hspells hb hb' hrest htext, entries, i, ho, ht, hend, hi => by
    rw [htext] at ht
    rw [← ho] at hspells
    obtain ⟨k, hk, hl⟩ := Input.takes_append.mp ht
    have hlen := hk.length
    have hfresh : NextNot isBlank k.rest := by
      rw [hl.rest]
      exact (attributes_fresh hrest).1
    exact .again ((attributeRound_iff hi).mpr ⟨_, _, _, _, _, hkey, hspells, hb,
      .inr ⟨_, hk, hb', hfresh, rfl⟩⟩)
      (rounds_of_attributes hrest (by rw [hk.offset, ho]) hl hend (by omega))

/-- The end of an entry, with the blanks before it. -/
theorem entryEnd_iff (hi : i.rest.length < bound + 1) {attrs : Option Attributes} :
    entryEnd (bound + 1) n i = .ok attrs l ↔ ∃ gap tail, i.Takes (gap ++ tail) l ∧ Blanks gap ∧
      SpellsTail n (i.offset + byteLength gap) tail attrs := by
  simp only [entryEnd, blanks_bind_eq_ok, peek?_bind, ite_eq_ok, pure_bind, expect_bind_eq_ok,
    bind_eq_ok (x := some <$> _), map_eq_ok, pure_eq_ok]
  constructor
  · intro hr
    obtain ⟨gap, m, hg, hr⟩ := hr
    have hlen := hg.takes.length
    rcases hr with ⟨_, _, hend, rfl, rfl⟩ | ⟨_, _, k, ⟨as, has, rfl⟩, _, hend, rfl, rfl⟩
    · exact ⟨gap, ['>'], hg.takes.trans hend, hg.blank, .bare⟩
    · obtain ⟨text, list, ht, _, hspells, rfl⟩ :=
        attributes_of_rounds (Rounds.of_repeatUpTo has) (by omega)
      rw [hg.takes.offset] at hspells
      exact ⟨gap, text ++ ['>'], hg.takes.trans (ht.trans hend), hg.blank, .attributes hspells⟩
  · intro hr
    obtain ⟨gap, tail, ht, hb, htail⟩ := hr
    obtain ⟨m, hm, ht⟩ := Input.takes_append.mp ht
    have hlen := hm.length
    rw [← hm.offset] at htail
    cases htail with
    | bare =>
      exact ⟨gap, m, ⟨hm, hb, nextNot_of_head? ht.head (by decide)⟩, .inl ⟨ht.head, l, ht, rfl, rfl⟩⟩
    | @attributes text list hspells =>
      obtain ⟨k, hk, hend⟩ := Input.takes_append.mp ht
      have hfront : NextNot isBlank (text ++ k.rest) ∧ (text ++ k.rest).head? ≠ some '>' :=
        attributes_fresh hspells
      rw [← hk.rest] at hfront
      have hmlen : m.rest.length < bound + 1 := by omega
      have hrounds : Rounds (attributeRound (bound + 1) n) [] m (attributesOf list) k :=
        rounds_of_attributes hspells rfl hk hend.head hmlen
      have hread : attributes (bound + 1) n m = .ok (attributesOf list) k :=
        hrounds.repeatUpTo shortens_attributeRound hmlen hmlen
      exact ⟨gap, m, ⟨hm, hb, hfront.1⟩, .inr ⟨hfront.2, some (attributesOf list), k,
        ⟨_, hread, rfl⟩, l, hend, rfl, rfl⟩⟩

theorem tail_fresh {o : Nat} {tail rest : List Char} {attrs : Option Attributes}
    (h : SpellsTail n o tail attrs) : NextNot isBlank (tail ++ rest) := by
  cases h with
  | bare => exact nextNot_cons.mpr (by decide)
  | attributes h =>
    rw [List.append_assoc]
    exact (attributes_fresh h).1

/-! ### Entities -/

/-- An entity behind its name and index. -/
theorem entity_iff (hi : i.rest.length < bound + 1) {start : Nat} {id : Ident}
    {index : Option (List Expr)} {e : Entity} :
    entity (bound + 1) n start id index i = .ok e l ↔ ∃ before value behind tail v attrs,
      i.Takes (before ++ value ++ behind ++ tail) l ∧ Blanks before ∧ Blanks behind ∧
        SpellsValue n (i.offset + byteLength before) value v ∧
        SpellsTail n (i.offset + byteLength (before ++ value ++ behind)) tail attrs ∧
        e = ⟨id, index, gapAt i.offset before, v,
          gapAt (i.offset + byteLength (before ++ value)) behind, attrs, ⟨start, l.offset⟩⟩ := by
  simp only [entity, bind_eq_ok (x := gap), gap_eq_ok, bind_eq_ok (x := entryValue _ _),
    bind_eq_ok (x := entryEnd _ _), spanFrom_bind, pure_eq_ok]
  constructor
  · intro hr
    obtain ⟨_, m₁, ⟨before, hg₁, rfl⟩, v, m₂, hv, _, m₃, ⟨behind, hg₃, rfl⟩, attrs, m₄, hend, rfl,
      rfl⟩ := hr
    have hlen₁ := hg₁.takes.length
    obtain ⟨value, ht, hspells⟩ := (entryValue_iff (by omega)).mp hv
    have ht₂ := hg₁.takes.trans ht
    have ht₃ := ht₂.trans hg₃.takes
    have hlen₃ := ht₃.length
    obtain ⟨gap, tail, ht₄, hb, htail⟩ := (entryEnd_iff (by omega)).mp hend
    obtain rfl : gap = [] := by
      obtain ⟨k, hk, hkt⟩ := Input.takes_append.mp ht₄
      have hskip : m₃.Skips gap k := by
        refine ⟨hk, hb, ?_⟩
        rw [hkt.rest]
        exact tail_fresh htail
      exact (hskip.eq_of_fresh hg₃.stop).1
    rw [hg₁.takes.offset] at hspells
    rw [ht₃.offset] at htail
    refine ⟨before, value, behind, tail, v, attrs, ht₃.trans ht₄, hg₁.blank, hg₃.blank, hspells, htail,
      ?_⟩
    rw [ht₂.offset, gapAt, gapAt]
  · intro hr
    obtain ⟨before, value, behind, tail, v, attrs, ht, hb, hb', hspells, htail, rfl⟩ := hr
    obtain ⟨m₃, ht₃, hl⟩ := Input.takes_append.mp ht
    obtain ⟨m₂, ht₂, hg₃⟩ := Input.takes_append.mp ht₃
    obtain ⟨m₁, hg₁, hv⟩ := Input.takes_append.mp ht₂
    have hlen₁ := hg₁.length
    have hlen₃ := ht₃.length
    rw [← hg₁.offset] at hspells
    rw [← ht₃.offset] at htail
    have hfresh₁ : NextNot isBlank m₁.rest := by
      rw [hv.rest]
      exact value_fresh hspells
    have hfresh₃ : NextNot isBlank m₃.rest := by
      rw [hl.rest]
      exact tail_fresh htail
    have hvalue : entryValue (bound + 1) n m₁ = .ok v m₂ :=
      (entryValue_iff (by omega)).mpr ⟨value, hv, hspells⟩
    have hend : entryEnd (bound + 1) n m₃ = .ok attrs l :=
      (entryEnd_iff (by omega)).mpr ⟨[], tail, hl, by simp [Blanks], htail⟩
    refine ⟨_, m₁, ⟨before, ⟨hg₁, hb, hfresh₁⟩, rfl⟩, v, m₂, hvalue, _, m₃,
      ⟨behind, ⟨hg₃, hb', hfresh₃⟩, rfl⟩, attrs, l, hend, ?_, rfl⟩
    rw [ht₂.offset, gapAt, gapAt]

/-! ### Parameters -/

/-- What is done behind a parameter: the closer stays, a comma goes. -/
theorem behind_parameter_eq_ok {params : Array Ident} {r : Round (Array Ident) (List Ident)} :
    (match i.rest.head? with
      | some ',' => do
        skip
        blanks
        pure (.again params)
      | some ')' => pure (.again params)
      | _ => unexpected .malformedExpression : Reader (Round (Array Ident) (List Ident))) i =
        .ok r l ↔
      ((i.rest.head? = some ')' ∧ i = l) ∨ ∃ k gap, i.Takes [','] k ∧ k.Skips gap l) ∧
        r = .again params := by
  by_cases hend : i.rest.head? = some ')'
  · have hno : ∀ k, ¬ i.Takes [','] k := by
      intro k hk
      rw [hk.head] at hend
      exact absurd hend (by decide)
    simp only [hend, hno, false_and, exists_false, or_false, true_and, pure_eq_ok]
    rw [and_comm, eq_comm (a := r)]
  · by_cases hcomma : i.rest.head? = some ','
    · simp only [hcomma, separator_eq_ok hcomma, Option.some.injEq, Char.reduceEq, false_and, false_or]
    · have hno : ∀ k, ¬ i.Takes [','] k := fun k hk => hcomma hk.head
      simp only [hend, hno, false_and, exists_false, or_self, iff_false]
      exact unexpected_ne_ok

/-- A round of parameters: the closer, or one more with a comma or the closer behind it. -/
theorem parameterRound_iff {params : Array Ident} {r : Round (Array Ident) (List Ident)} :
    parameterRound params i = .ok r l ↔ (i.Takes [')'] l ∧ r = .done params.toList) ∨
      ∃ id name ending gap, NameText id name ending ∧ Blanks gap ∧
        (i.Takes ([Scope.variable.sigil] ++ id ++ gap) l ∧ l.rest.head? = some ')' ∨
          ∃ gap', i.Takes ([Scope.variable.sigil] ++ id ++ gap ++ [','] ++ gap') l ∧ Blanks gap' ∧
            NextNot isBlank l.rest) ∧
        r = .again (params.push
          ⟨name, extent (i.offset + byteLength [Scope.variable.sigil]) id⟩) := by
  simp only [parameterRound, eat_bind_eq_ok, if_true, Bool.false_eq_true, if_false,
    expect_bind_eq_ok, bind_eq_ok (x := ident), blanks_bind_eq_ok, peek?_bind, pure_eq_ok]
  constructor
  · intro hr
    rcases hr with ⟨m, hm, rfl, rfl⟩ | ⟨_, m₁, hm₁, ⟨name, span⟩, m₂, hid, gap, m₃, hg, hr⟩
    · exact .inl ⟨hm, rfl⟩
    · obtain ⟨id, ending, ht, hname, hspan, _⟩ := ident_eq_ok.mp hid
      obtain rfl : span = extent (i.offset + byteLength [Scope.variable.sigil]) id := by
        rw [← hm₁.offset]
        exact hspan
      obtain ⟨hbehind, rfl⟩ := behind_parameter_eq_ok.mp hr
      have htaken := (hm₁.trans ht).trans hg.takes
      refine .inr ⟨id, name, ending, gap, hname, hg.blank, ?_, rfl⟩
      rcases hbehind with ⟨hend, rfl⟩ | ⟨k, gap', hk, hl⟩
      · exact .inl ⟨htaken, hend⟩
      · exact .inr ⟨gap', (htaken.trans hk).trans hl.takes, hl.blank, hl.stop⟩
  · intro hr
    rcases hr with ⟨hm, rfl⟩ | ⟨id, name, ending, gap, hname, hb, hr, rfl⟩
    · exact .inl ⟨l, hm, rfl, rfl⟩
    · refine .inr ?_
      -- the parameter up to the gap behind it, with a delimiter next
      have hread : ∀ {k c}, i.Takes ([Scope.variable.sigil] ++ id ++ gap) k → k.rest.head? = some c →
          c ∈ delimiters → i.rest.head? ≠ some ')' ∧ ∃ m₁, i.Takes [Scope.variable.sigil] m₁ ∧
            ∃ m₂, ident m₁ = .ok ⟨name, extent (i.offset + byteLength [Scope.variable.sigil]) id⟩ m₂ ∧
              m₂.Skips gap k := by
        intro k c hk hc hd
        obtain ⟨m₂, hm₂, hg⟩ := Input.takes_append.mp hk
        obtain ⟨m₁, hm₁, hid⟩ := Input.takes_append.mp hm₂
        refine ⟨by rw [hm₁.head]; decide, m₁, hm₁, m₂, ?_, hg, hb, nextNot_of_head? hc
          (Input.isBlank_of_mem_delimiters hd)⟩
        refine ident_eq_ok.mpr ⟨id, ending, hid, hname, by rw [hm₁.offset], ?_⟩
        rw [hg.rest]
        exact Ending.Clear.nextNot hb fun _ =>
          nextNot_of_head? hc (ending.continues_of_mem_delimiters hd)
      rcases hr with ⟨ht, hend⟩ | ⟨gap', ht, hb', hfresh⟩
      · obtain ⟨hne, m₁, hm₁, m₂, hid, hg⟩ := hread ht hend (by decide)
        exact ⟨hne, m₁, hm₁, _, m₂, hid, gap, l, hg,
          behind_parameter_eq_ok.mpr ⟨.inl ⟨hend, rfl⟩, rfl⟩⟩
      · obtain ⟨k', hk', hl⟩ := Input.takes_append.mp ht
        obtain ⟨k, hk, hcomma⟩ := Input.takes_append.mp hk'
        obtain ⟨hne, m₁, hm₁, m₂, hid, hg⟩ := hread hk hcomma.head (by decide)
        exact ⟨hne, m₁, hm₁, _, m₂, hid, gap, k, hg,
          behind_parameter_eq_ok.mpr ⟨.inr ⟨k', gap', hcomma, hl, hb', hfresh⟩, rfl⟩⟩

theorem shortens_parameterRound : Shortens bound parameterRound := by
  intro params i params' m _ hr
  rcases parameterRound_iff.mp hr with ⟨_, he⟩ | ⟨id, _, _, gap, _, _, hr, _⟩
  · cases he
  · rcases hr with ⟨ht, _⟩ | ⟨gap', ht, _⟩
    · exact ht.length_lt (by simp)
    · exact ht.length_lt (by simp)

theorem parameters_front {o : Nat} {text : List Char} {ids : List Ident}
    (h : SpellsParameters o text ids) (rest : List Char) :
    (text = [] ∧ ids = []) ∨ (text ++ rest).head? = some Scope.variable.sigil := by
  cases h with
  | nil => exact .inl ⟨rfl, rfl⟩
  | last _ _ ht =>
    rw [ht]
    exact .inr rfl
  | cons _ _ _ _ ht =>
    rw [ht]
    exact .inr rfl

/-- More parameters, up to the closer. -/
theorem parameters_of_rounds {params : Array Ident} {ids : List Ident}
    (hr : Rounds parameterRound params i ids l) :
    ∃ text list m, i.Takes text m ∧ m.Takes [')'] l ∧ SpellsParameters i.offset text list ∧
      ids = params.toList ++ list := by
  induction hr with
  | done hr =>
    rcases parameterRound_iff.mp hr with ⟨hl, he⟩ | ⟨_, _, _, _, _, _, _, he⟩
    · cases he
      exact ⟨[], [], _, .refl _, hl, .nil, by simp⟩
    · cases he
  | again hr _ ih =>
    rcases parameterRound_iff.mp hr with ⟨_, he⟩ | ⟨id, name, ending, gap, hname, hb, hbehind, he⟩
    · cases he
    · cases he
      obtain ⟨rest, list, k, hk, hl, hrest, rfl⟩ := ih
      rcases hbehind with ⟨ht, hend⟩ | ⟨gap', ht, hb', _⟩
      · rcases parameters_front hrest k.rest with ⟨rfl, rfl⟩ | hfront
        · rw [Input.takes_nil] at hk
          rw [hk] at hl
          exact ⟨_, [_], _, ht, hl, .last hname hb rfl, by simp⟩
        · rw [← hk.rest, hend] at hfront
          exact absurd hfront (by decide)
      · rw [ht.offset] at hrest
        exact ⟨_, _ :: list, k, ht.trans hk, hl, .cons hname hb hb' hrest rfl, by simp⟩

/-- By induction on the parameters: each of them is a round. -/
theorem rounds_of_parameters : ∀ {o text list}, SpellsParameters o text list →
    ∀ (params : Array Ident) {i m}, i.offset = o → i.Takes text m → m.Takes [')'] l →
      Rounds parameterRound params i (params.toList ++ list) l
  | _, _, _, .nil, params, i, m, _, ht, hl => by
    rw [Input.takes_nil] at ht
    rw [ht] at hl
    rw [List.append_nil]
    exact .done (parameterRound_iff.mpr (.inl ⟨hl, rfl⟩))
  | _, _, _, .last hname hb htext, params, i, m, ho, ht, hl => by
    rw [htext] at ht
    rw [← ho, ← Array.toList_push]
    exact .again (parameterRound_iff.mpr (.inr ⟨_, _, _, _, hname, hb, .inl ⟨ht, hl.head⟩, rfl⟩))
      (.done (parameterRound_iff.mpr (.inl ⟨hl, rfl⟩)))
  | o, _, _, @SpellsParameters.cons _ id _ _ _ _ name _ _ hname hb hb' hrest htext, params, i, m, ho,
      ht, hl => by
    rw [htext] at ht
    obtain ⟨k, hk, ht⟩ := Input.takes_append.mp ht
    have hfresh : NextNot isBlank k.rest := by
      rcases parameters_front hrest m.rest with ⟨rfl, _⟩ | hfront
      · rw [Input.takes_nil] at ht
        rw [← ht]
        exact nextNot_of_head? hl.head (by decide)
      · rw [← ht.rest] at hfront
        exact nextNot_of_head? hfront (by decide)
    have hrounds := rounds_of_parameters hrest
      (params.push ⟨name, extent (o + byteLength [Scope.variable.sigil]) id⟩)
      (by rw [hk.offset, ho]) ht hl
    rw [Array.toList_push, List.append_assoc, ← ho] at hrounds
    rw [← ho]
    exact .again (parameterRound_iff.mpr (.inr ⟨_, _, _, _, hname, hb, .inr ⟨_, hk, hb', hfresh⟩,
      rfl⟩)) hrounds

/-- The parameters between two parentheses. -/
theorem parameters_iff (hi : i.rest.length < bound) (hp : i.rest.head? = some '(')
    {ids : List Ident} :
    parameters bound i = .ok ids l ↔ ∃ gap text, i.Takes (['('] ++ gap ++ text ++ [')']) l ∧
      Blanks gap ∧ SpellsParameters (i.offset + byteLength (['('] ++ gap)) text ids := by
  simp only [parameters, skip_bind_eq_ok hp, blanks_bind_eq_ok]
  constructor
  · intro hr
    obtain ⟨m, hm, gap, m', hg, hr⟩ := hr
    have ht := hm.trans hg.takes
    obtain ⟨text, list, k, hk, hl, hids, rfl⟩ := parameters_of_rounds (Rounds.of_repeatUpTo hr)
    rw [ht.offset] at hids
    exact ⟨gap, text, (ht.trans hk).trans hl, hg.blank, hids⟩
  · intro hr
    obtain ⟨gap, text, ht, hb, hids⟩ := hr
    obtain ⟨k, hk, hl⟩ := Input.takes_append.mp ht
    obtain ⟨m', hm', hk⟩ := Input.takes_append.mp hk
    obtain ⟨m, hm, hg⟩ := Input.takes_append.mp hm'
    have hlen := hm'.length
    have hfresh : NextNot isBlank m'.rest := by
      rcases parameters_front hids k.rest with ⟨rfl, _⟩ | hfront
      · rw [Input.takes_nil] at hk
        rw [← hk]
        exact nextNot_of_head? hl.head (by decide)
      · rw [← hk.rest] at hfront
        exact nextNot_of_head? hfront (by decide)
    have hrounds := rounds_of_parameters hids #[] hm'.offset hk hl
    have hshortens : Shortens bound parameterRound := shortens_parameterRound
    exact ⟨m, hm, gap, m', ⟨hg, hb, hfresh⟩, hrounds.repeatUpTo hshortens (by omega) (by omega)⟩

/-! ### Macros -/

/-- A macro behind its name. -/
theorem macroDef_iff (hi : i.rest.length < bound + 1) (hp : i.rest.head? = some '(') {start : Nat}
    {id : Ident} {d : Macro} :
    macroDef (bound + 1) n start id i = .ok d l ↔
      ∃ gap₁ params gap₂ gap₃ body gap₄ gap₅ tail ids e ending attrs,
        i.Takes (['('] ++ gap₁ ++ params ++ [')'] ++ gap₂ ++ ['\x7b'] ++ gap₃ ++ body ++ gap₄ ++
          ['\x7d'] ++ gap₅ ++ tail) l ∧
        (Blanks gap₁ ∧ Blanks gap₂ ∧ Blanks gap₃ ∧ Blanks gap₄ ∧ Blanks gap₅) ∧
        SpellsParameters (i.offset + byteLength (['('] ++ gap₁)) params ids ∧
        SpellsExpr n (i.offset + byteLength (['('] ++ gap₁ ++ params ++ [')'] ++ gap₂ ++ ['\x7b'] ++
          gap₃)) body e ending ∧
        SpellsTail n (i.offset + byteLength (['('] ++ gap₁ ++ params ++ [')'] ++ gap₂ ++ ['\x7b'] ++
          gap₃ ++ body ++ gap₄ ++ ['\x7d'] ++ gap₅)) tail attrs ∧
        d = ⟨id, ids, e, attrs, ⟨start, l.offset⟩⟩ := by
  simp only [macroDef, bind_eq_ok (x := parameters _), blanks_bind_eq_ok, expect_bind_eq_ok,
    bind_eq_ok (x := enclosed _ _ _), bind_eq_ok (x := entryEnd _ _), spanFrom_bind, pure_eq_ok]
  constructor
  · intro hr
    obtain ⟨ids, m₁, hids, gap₂, m₂, hg₂, m₃, hm₃, e, m₄, he, attrs, m₅, hend, rfl, rfl⟩ := hr
    obtain ⟨gap₁, params, ht₁, hb₁, hparams⟩ := (parameters_iff hi hp).mp hids
    have ht₃ := (ht₁.trans hg₂.takes).trans hm₃
    have hlen₃ := ht₃.length
    obtain ⟨gap₃, body, gap₄, ending, ht₄, hb₃, hb₄, hspells⟩ :=
      (enclosed_iff (exact_expression (bound + 1)) (by omega) (by decide) (by decide)).mp he
    have hall := ht₃.trans ht₄
    have hlen₄ := hall.length
    obtain ⟨gap₅, tail, ht₅, hb₅, htail⟩ := (entryEnd_iff (by omega)).mp hend
    rw [ht₃.offset, Nat.add_assoc, ← byteLength_append] at hspells
    rw [hall.offset, Nat.add_assoc, ← byteLength_append] at htail
    refine ⟨gap₁, params, gap₂, gap₃, body, gap₄, gap₅, tail, ids, e, ending, attrs, ?_,
      ⟨hb₁, hg₂.blank, hb₃, hb₄, hb₅⟩, hparams, hspells, ?_, rfl⟩
    · simpa using hall.trans ht₅
    · simpa using htail
  · intro hr
    obtain ⟨gap₁, params, gap₂, gap₃, body, gap₄, gap₅, tail, ids, e, ending, attrs, ht,
      ⟨hb₁, hb₂, hb₃, hb₄, hb₅⟩, hparams, hspells, htail, rfl⟩ := hr
    rw [List.append_assoc _ gap₅] at ht
    obtain ⟨m₄, ht₄, hl⟩ := Input.takes_append.mp ht
    have hassoc : ['('] ++ gap₁ ++ params ++ [')'] ++ gap₂ ++ ['\x7b'] ++ gap₃ ++ body ++ gap₄ ++
        ['\x7d'] = ['('] ++ gap₁ ++ params ++ [')'] ++ gap₂ ++ ['\x7b'] ++
          (gap₃ ++ body ++ gap₄ ++ ['\x7d']) := by simp
    have hlen₄ := ht₄.length
    rw [byteLength_append, ← Nat.add_assoc, ← ht₄.offset] at htail
    rw [hassoc] at ht₄
    obtain ⟨m₃, ht₃, hbody⟩ := Input.takes_append.mp ht₄
    obtain ⟨m₂, ht₂, hm₃⟩ := Input.takes_append.mp ht₃
    obtain ⟨m₁, ht₁, hg₂⟩ := Input.takes_append.mp ht₂
    have hlen₃ := ht₃.length
    rw [byteLength_append, ← Nat.add_assoc, ← ht₃.offset] at hspells
    have he := (enclosed_iff (exact_expression (bound + 1)) (i := m₃) (by omega) (c := '\x7d')
      (by decide) (by decide)).mpr ⟨gap₃, body, gap₄, ending, hbody, hb₃, hb₄, hspells⟩
    have hend : entryEnd (bound + 1) n m₄ = .ok attrs l :=
      (entryEnd_iff (by omega)).mpr ⟨gap₅, tail, hl, hb₅, htail⟩
    exact ⟨ids, m₁, (parameters_iff hi hp).mpr ⟨gap₁, params, ht₁, hb₁, hparams⟩, gap₂, m₂,
      ⟨hg₂, hb₂, nextNot_of_head? hm₃.head (by decide)⟩, m₃, hm₃, e, m₄, he, attrs, l, hend, rfl, rfl⟩

/-! ### Entries -/

/-- What is behind `<` and the name of an entry, told by the character that comes next. -/
theorem behind_name_eq_ok {start : Nat} {id : Ident} {e : Entry} :
    (match i.rest.head? with
      | some '(' => Entry.macroDef <$> macroDef bound n start id
      | some '[' => do
        let index ← expressions (expression bound) bound n .index
        Entry.entity <$> entity bound n start id (some index)
      | _ => Entry.entity <$> entity bound n start id none : Reader Entry) i = .ok e l ↔
      (i.rest.head? = some '(' ∧ ∃ d, macroDef bound n start id i = .ok d l ∧ e = .macroDef d) ∨
        (i.rest.head? = some '[' ∧ ∃ index m d,
          expressions (expression bound) bound n .index i = .ok index m ∧
          entity bound n start id (some index) m = .ok d l ∧ e = .entity d) ∨
        (i.rest.head? ≠ some '(' ∧ i.rest.head? ≠ some '[' ∧
          ∃ d, entity bound n start id none i = .ok d l ∧ e = .entity d) := by
  by_cases hp : i.rest.head? = some '('
  · simp [hp, map_eq_ok, eq_comm (a := e)]
  · by_cases hb : i.rest.head? = some '['
    · simp [hb, bind_eq_ok (x := expressions _ _ _ _), map_eq_ok, eq_comm (a := e)]
    · simp only [hp, hb, false_and, false_or, ne_eq, not_false_eq_true, true_and]
      rw [map_eq_ok]
      simp [eq_comm (a := e)]

/-- What an entry has done when it succeeds: it has gone one of three ways behind its name. -/
theorem entry_eq_ok {e : Entry} : entry (bound + 1) n i = .ok e l ↔
    ∃ m id k, i.Takes ['<'] m ∧ ident m = .ok id k ∧
      ((k.rest.head? = some '(' ∧ ∃ d,
          macroDef (bound + 1) n i.offset id k = .ok d l ∧ e = .macroDef d) ∨
        (k.rest.head? = some '[' ∧ ∃ index m' d,
          expressions (expression (bound + 1)) (bound + 1) n .index k = .ok index m' ∧
          entity (bound + 1) n i.offset id (some index) m' = .ok d l ∧ e = .entity d) ∨
        (k.rest.head? ≠ some '(' ∧ k.rest.head? ≠ some '[' ∧
          ∃ d, entity (bound + 1) n i.offset id none k = .ok d l ∧ e = .entity d)) := by
  simp only [entry, offset_bind, looksAt_bind, ite_eq_ok, fail_ne_ok, and_false, false_or,
    eat_bind_eq_ok, if_true, Bool.false_eq_true, if_false, unexpected_ne_ok, or_false,
    bind_eq_ok (x := ident), peek?_bind]
  constructor
  · intro hr
    obtain ⟨_, m, hm, id, k, hid, hr⟩ := hr
    exact ⟨m, id, k, hm, hid, behind_name_eq_ok.mp hr⟩
  · intro hr
    obtain ⟨m, id, k, hm, hid, hr⟩ := hr
    refine ⟨?_, m, hm, id, k, hid, behind_name_eq_ok.mpr hr⟩
    rw [hm.rest]
    simp

/-- Neither bracket goes on with a name. -/
theorem name_ending {text : List Char} {name : String} {ending : Ending}
    (h : NameText text name ending) :
    ending.continues '(' = false ∧ ending.continues '[' = false := by
  cases h with
  | bare _ => decide
  | opened _ hq =>
    rcases isQuote_iff.mp hq with rfl | rfl
    · decide
    · decide
  | quoted _ _ => decide

/-- An entity that has been read behind its name and index is spelled with them. -/
theorem spells_entity {id index : List Char} {name : String} {ending : Ending}
    {es : Option (List Expr)} {k : Input} {d : Entity} (hk : k.rest.length < bound + 1)
    (hname : NameText id name ending)
    (hindex : SpellsIndex n (i.offset + byteLength (['<'] ++ id)) index es)
    (ht : i.Takes (['<'] ++ id ++ index) k)
    (hnext : es = none → NextNot (fun c => ending.continues c || c == '[') k.rest)
    (hd : entity (bound + 1) n i.offset ⟨name, extent (i.offset + byteLength ['<']) id⟩ es k =
      .ok d l) :
    ∃ text, i.Takes text l ∧ SpellsEntry n i.offset text (.entity d) := by
  obtain ⟨before, value, behind, tail, v, attrs, hl, hb, hb', hspells, htail, rfl⟩ :=
    (entity_iff hk).mp hd
  have hall := ht.trans hl
  have hbefore : es = none → before = [] →
      NextNot (fun c => ending.continues c || c == '[') value := by
    intro hes hempty
    have hrest := hnext hes
    rw [hl.rest, hempty, List.nil_append, List.append_assoc, List.append_assoc] at hrest
    exact nextNot_of_append hrest
  have hbehind : i.offset + byteLength (['<'] ++ id ++ index) + byteLength (before ++ value) =
      i.offset + byteLength (['<'] ++ id ++ index ++ before ++ value) := by
    simp [Nat.add_assoc]
  rw [ht.offset] at hspells htail
  refine ⟨_, hall, ?_⟩
  rw [hall.span, ht.offset, hbehind]
  exact .entity hname hindex hb hbefore (by simpa [Nat.add_assoc] using hspells) hb'
    (by simpa [Nat.add_assoc] using htail) (by simp)

/-- A gap that is not empty comes next before what follows it. -/
theorem before_front {before rest : List Char} {ending : Ending} (hb : Blanks before)
    (hnext : before = [] → NextNot (fun c => ending.continues c || c == '[') rest)
    (hp : rest.head? ≠ some '(') :
    NextNot ending.continues (before ++ rest) ∧ (before ++ rest).head? ≠ some '(' ∧
      (before ++ rest).head? ≠ some '[' := by
  cases before with
  | nil =>
    have hn := hnext rfl
    refine ⟨fun c hc => ?_, hp, fun hc => ?_⟩
    · exact (Bool.or_eq_false_iff.mp (hn c hc)).1
    · exact absurd (Bool.or_eq_false_iff.mp (hn '[' hc)).2 (by decide)
  | cons b bs =>
    have hblank := hb b (List.mem_cons_self ..)
    refine ⟨nextNot_cons.mpr (ending.continues_of_isBlank hblank), fun hp => ?_, fun hp => ?_⟩
    · obtain rfl : b = '(' := by simpa using hp
      exact absurd hblank (by decide)
    · obtain rfl : b = '[' := by simpa using hp
      exact absurd hblank (by decide)

/-- What comes next behind the name of an entity without an index is the gap or the value. -/
theorem before_value_front {before value : List Char} {ending : Ending} {o : Nat} {v : Value}
    (hb : Blanks before) (hspells : SpellsValue n o value v)
    (hnext : before = [] → NextNot (fun c => ending.continues c || c == '[') value)
    (rest : List Char) :
    NextNot ending.continues (before ++ (value ++ rest)) ∧
      (before ++ (value ++ rest)).head? ≠ some '(' ∧ (before ++ (value ++ rest)).head? ≠ some '[' := by
  obtain ⟨c, cs, rfl, hc⟩ := hspells.exists_cons
  refine before_front hb hnext fun hp => ?_
  obtain rfl : c = '(' := by simpa using hp
  exact absurd hc (by decide)

/-- A macro that has been read behind its name is spelled with it. -/
theorem spells_macroDef {id : List Char} {name : String} {ending : Ending} {k : Input} {d : Macro}
    (hk : k.rest.length < bound + 1) (hname : NameText id name ending)
    (ht : i.Takes (['<'] ++ id) k) (hp : k.rest.head? = some '(')
    (hd : macroDef (bound + 1) n i.offset ⟨name, extent (i.offset + byteLength ['<']) id⟩ k =
      .ok d l) :
    ∃ text, i.Takes text l ∧ SpellsEntry n i.offset text (.macroDef d) := by
  obtain ⟨gap₁, params, gap₂, gap₃, body, gap₄, gap₅, tail, ids, e, ending', attrs, ht',
    ⟨hb₁, hb₂, hb₃, hb₄, hb₅⟩, hparams, hspells, htail, rfl⟩ := (macroDef_iff hk hp).mp hd
  have hall := ht.trans ht'
  rw [ht.offset] at hparams hspells htail
  refine ⟨_, hall, ?_⟩
  rw [hall.span]
  exact .macroDef hname hb₁ (by simpa [Nat.add_assoc] using hparams) hb₂ hb₃
    (by simpa [Nat.add_assoc] using hspells) hb₄ hb₅ (by simpa [Nat.add_assoc] using htail)
    (by simp)

/-- An entity is read where it is spelled. -/
theorem reads_entity (hi : i.rest.length < bound + 1) {text : List Char} {d : Entity}
    (ht : i.Takes text l) (h : SpellsEntry n i.offset text (.entity d)) :
    entry (bound + 1) n i = .ok (.entity d) l := by
  rw [entry_eq_ok]
  cases h with
  | @entity id index before value behind tail _ name ending es v attrs hname hindex hb hnext hspells
      hb' htail htext =>
    have hassoc : ['<'] ++ id ++ index ++ before ++ value ++ behind ++ tail =
        ['<'] ++ id ++ index ++ (before ++ value ++ behind ++ tail) := by simp
    rw [htext, hassoc] at ht ⊢
    obtain ⟨m', ht', hl⟩ := Input.takes_append.mp ht
    obtain ⟨k, hk, hindex'⟩ := Input.takes_append.mp ht'
    obtain ⟨m, hm, hid⟩ := Input.takes_append.mp hk
    have hlen := hk.length_lt (by simp)
    have hlen' := ht'.length_lt (by simp)
    have hrest : m'.rest = before ++ (value ++ (behind ++ tail ++ l.rest)) := by
      rw [hl.rest]
      simp
    have hread : entity (bound + 1) n i.offset ⟨name, extent (i.offset + byteLength ['<']) id⟩ es m' =
        .ok ⟨⟨name, extent (i.offset + byteLength ['<']) id⟩, es, gapAt m'.offset before, v,
          gapAt (m'.offset + byteLength (before ++ value)) behind, attrs, ⟨i.offset, l.offset⟩⟩ l :=
      (entity_iff (by omega)).mpr ⟨before, value, behind, tail, v, attrs, hl, hb, hb',
        by simpa [ht'.offset, Nat.add_assoc] using hspells,
        by simpa [ht'.offset, Nat.add_assoc] using htail, rfl⟩
    have hspan : (⟨i.offset, l.offset⟩ : Span) = extent i.offset
        (['<'] ++ id ++ index ++ (before ++ value ++ behind ++ tail)) := ht.span
    have hbehind : m'.offset + byteLength (before ++ value) =
        i.offset + byteLength (['<'] ++ id ++ index ++ before ++ value) := by
      simp [ht'.offset, Nat.add_assoc]
    rw [hspan, hbehind, ht'.offset] at hread
    have hident : NextNot ending.continues k.rest →
        ident m = .ok ⟨name, extent (i.offset + byteLength ['<']) id⟩ k := fun hn =>
      ident_eq_ok.mpr ⟨id, ending, hid, hname, by rw [hm.offset], hn⟩
    cases hindex with
    | none =>
      obtain rfl := Input.takes_nil.mp hindex'
      obtain ⟨hn, hp, hbr⟩ :=
        before_value_front hb hspells (hnext rfl) (behind ++ tail ++ l.rest)
      rw [← hrest] at hn hp hbr
      exact ⟨m, _, m', hm, hident hn, .inr (.inr ⟨hp, hbr, _, hread, rfl⟩)⟩
    | @some gap items _ es hb₁ hitems hindextext =>
      rw [hindextext] at hindex'
      have hbr : k.rest.head? = some '[' := by
        rw [hindex'.rest]
        rfl
      have hindex : expressions (expression (bound + 1)) (bound + 1) n .index k = .ok es m' :=
        (expressions_iff (exact_inner bound) rfl (by omega) hbr).mpr
          ⟨gap, items, hindex', hb₁, by simpa [hk.offset, Nat.add_assoc] using hitems⟩
      exact ⟨m, _, k, hm, hident (nextNot_of_head? hbr (name_ending hname).2),
        .inr (.inl ⟨hbr, es, m', _, hindex, hread, rfl⟩)⟩

/-- A macro is read where it is spelled. -/
theorem reads_macroDef (hi : i.rest.length < bound + 1) {text : List Char} {d : Macro}
    (ht : i.Takes text l) (h : SpellsEntry n i.offset text (.macroDef d)) :
    entry (bound + 1) n i = .ok (.macroDef d) l := by
  rw [entry_eq_ok]
  cases h with
  | @macroDef id gap₁ params gap₂ gap₃ body gap₄ gap₅ tail _ name ending ending' ids e attrs hname hb₁
      hparams hb₂ hb₃ hspells hb₄ hb₅ htail htext =>
    have hassoc : ['<'] ++ id ++ ['('] ++ gap₁ ++ params ++ [')'] ++ gap₂ ++ ['\x7b'] ++ gap₃ ++ body ++
        gap₄ ++ ['\x7d'] ++ gap₅ ++ tail = ['<'] ++ id ++ (['('] ++ gap₁ ++ params ++ [')'] ++ gap₂ ++
        ['\x7b'] ++ gap₃ ++ body ++ gap₄ ++ ['\x7d'] ++ gap₅ ++ tail) := by simp
    rw [htext, hassoc] at ht ⊢
    obtain ⟨k, hk, hl⟩ := Input.takes_append.mp ht
    obtain ⟨m, hm, hid⟩ := Input.takes_append.mp hk
    have hlen := hk.length_lt (by simp)
    have hp : k.rest.head? = some '(' := by
      rw [hl.rest]
      rfl
    have hread : macroDef (bound + 1) n i.offset ⟨name, extent (i.offset + byteLength ['<']) id⟩ k =
        .ok ⟨⟨name, extent (i.offset + byteLength ['<']) id⟩, ids, e, attrs,
          ⟨i.offset, l.offset⟩⟩ l :=
      (macroDef_iff (by omega) hp).mpr ⟨gap₁, params, gap₂, gap₃, body, gap₄, gap₅, tail, ids, e,
        ending', attrs, hl, ⟨hb₁, hb₂, hb₃, hb₄, hb₅⟩,
        by simpa [hk.offset, Nat.add_assoc] using hparams,
        by simpa [hk.offset, Nat.add_assoc] using hspells,
        by simpa [hk.offset, Nat.add_assoc] using htail, rfl⟩
    rw [ht.span] at hread
    refine ⟨m, _, k, hm, ident_eq_ok.mpr ⟨id, ending, hid, hname, by rw [hm.offset],
      nextNot_of_head? hp (name_ending hname).1⟩, .inl ⟨hp, _, hread, rfl⟩⟩

/-- An entry is read exactly where it is spelled. -/
theorem entry_iff (hi : i.rest.length < bound + 1) {e : Entry} :
    entry (bound + 1) n i = .ok e l ↔ ∃ text, i.Takes text l ∧ SpellsEntry n i.offset text e := by
  constructor
  · intro hr
    obtain ⟨m, ⟨name, span⟩, k, hm, hid, hr⟩ := entry_eq_ok.mp hr
    obtain ⟨id, ending, hk, hname, hspan, hn⟩ := ident_eq_ok.mp hid
    have ht := hm.trans hk
    have hlen := ht.length_lt (by simp)
    obtain rfl : span = extent (i.offset + byteLength ['<']) id := by
      rw [← hm.offset]
      exact hspan
    rcases hr with ⟨hp, d, hd, rfl⟩ | ⟨hb, index, m', d, hindex, hd, rfl⟩ | ⟨hp, hb, d, hd, rfl⟩
    · exact spells_macroDef (by omega) hname ht hp hd
    · obtain ⟨gap, items, hk', hb₁, hitems⟩ :=
        (expressions_iff (exact_inner bound) rfl (by omega) hb).mp hindex
      have ht' := ht.trans hk'
      have hlen' := ht'.length
      rw [ht.offset, Nat.add_assoc, ← byteLength_append, List.append_assoc] at hitems
      refine spells_entity (by omega) hname (.some hb₁ ?_ rfl) ht' (fun h => by simp at h) hd
      simpa [Nat.add_assoc] using hitems
    · have hindex : SpellsIndex n (i.offset + byteLength (['<'] ++ id)) [] none := .none
      refine spells_entity (by omega) hname hindex (by simpa using ht) ?_ hd
      intro _ c hc
      have hcb : c ≠ '[' := fun h => hb (by rw [← h]; exact hc)
      simp [hn c hc, hcb]
  · intro hr
    obtain ⟨text, ht, hspells⟩ := hr
    cases e with
    | entity d => exact reads_entity hi ht hspells
    | macroDef d => exact reads_macroDef hi ht hspells

/-! ### Bodies -/

/-- The items read so far with a gap behind them, unless the gap is empty. -/
def pushGap (body : Array Item) (gap : Gap) : Array Item :=
  if gap.text.isEmpty then body else body.push (.gap gap)

theorem toList_pushGap (body : Array Item) (o : Nat) (blanks : List Char) :
    (pushGap body (gapAt o blanks)).toList = body.toList ++ gapItems o blanks := by
  by_cases h : blanks = []
  · simp [pushGap, gapItems, gapAt, h]
  · simp [pushGap, gapItems, gapAt, h]

theorem entry_front {o : Nat} {text : List Char} {e : Entry} (h : SpellsEntry n o text e) :
    ∃ cs, text = '<' :: cs := by
  cases h with
  | entity _ _ _ _ _ _ _ ht => exact ⟨_, ht⟩
  | macroDef _ _ _ _ _ _ _ _ _ ht => exact ⟨_, ht⟩

/-- A round of a body: the blanks at the end of the source, or blanks and one more entry. -/
theorem itemRound_iff (hi : i.rest.length < bound + 1) {body : Array Item}
    {r : Round (Array Item) (List Item)} :
    itemRound (bound + 1) n body i = .ok r l ↔
      (∃ gap, i.Takes gap l ∧ Blanks gap ∧ l.rest = [] ∧
        r = .done (body.toList ++ gapItems i.offset gap)) ∨
      ∃ gap text e, i.Takes (gap ++ text) l ∧ Blanks gap ∧
        SpellsEntry n (i.offset + byteLength gap) text e ∧
        r = .again ((pushGap body (gapAt i.offset gap)).push (.entry e)) := by
  simp only [itemRound, bind_eq_ok (x := gap), gap_eq_ok, peek?_bind, ite_eq_ok,
    bind_eq_ok (x := entry _ _), pure_eq_ok, ← pushGap.eq_def]
  constructor
  · intro hr
    obtain ⟨_, m, ⟨gap, hg, rfl⟩, hr⟩ := hr
    have hlen := hg.takes.length
    rcases hr with ⟨hnone, rfl, rfl⟩ | ⟨_, e, _, he, rfl, rfl⟩
    · refine .inl ⟨gap, hg.takes, hg.blank, ?_, ?_⟩
      · simpa using hnone
      · rw [← toList_pushGap]
        rfl
    · obtain ⟨text, ht, hspells⟩ := (entry_iff (by omega)).mp he
      rw [hg.takes.offset] at hspells
      exact .inr ⟨gap, text, e, hg.takes.trans ht, hg.blank, hspells, rfl⟩
  · intro hr
    rcases hr with ⟨gap, ht, hb, hend, rfl⟩ | ⟨gap, text, e, ht, hb, hspells, rfl⟩
    · have hfresh : NextNot isBlank l.rest := by
        rw [hend]
        exact nextNot_nil isBlank
      exact ⟨_, l, ⟨gap, ⟨ht, hb, hfresh⟩, rfl⟩, .inl ⟨by rw [hend]; rfl,
        by rw [← toList_pushGap]; rfl, rfl⟩⟩
    · obtain ⟨m, hm, hl⟩ := Input.takes_append.mp ht
      have hlen := hm.length
      obtain ⟨cs, rfl⟩ := entry_front hspells
      rw [← hm.offset] at hspells
      exact ⟨_, m, ⟨gap, ⟨hm, hb, nextNot_of_head? hl.head (by decide)⟩, rfl⟩, .inr
        ⟨by rw [hl.head]; decide, e, l, (entry_iff (by omega)).mpr ⟨_, hl, hspells⟩, rfl, rfl⟩⟩

theorem shortens_itemRound : Shortens (bound + 1) (itemRound (bound + 1) n) := by
  intro body i body' m hi hr
  rcases (itemRound_iff hi).mp hr with ⟨_, _, _, _, he⟩ | ⟨gap, text, e, ht, _, hspells, _⟩
  · cases he
  · obtain ⟨cs, rfl⟩ := entry_front hspells
    exact ht.length_lt (by simp)

/-- More items, up to the end of the source. -/
theorem body_of_rounds {body : Array Item} {items : List Item}
    (hr : Rounds (itemRound (bound + 1) n) body i items l) (hi : i.rest.length < bound + 1) :
    ∃ text list, i.Takes text l ∧ l.rest = [] ∧ SpellsBody n i.offset text list ∧
      items = body.toList ++ list := by
  induction hr with
  | done hr =>
    rcases (itemRound_iff hi).mp hr with ⟨gap, ht, hb, hend, he⟩ | ⟨_, _, _, _, _, _, he⟩
    · cases he
      exact ⟨gap, _, ht, hend, .done hb, rfl⟩
    · cases he
  | @again body _ i m items l hr _ ih =>
    rcases (itemRound_iff hi).mp hr with ⟨_, _, _, _, he⟩ | ⟨gap, text, e, ht, hb, hspells, he⟩
    · cases he
    · cases he
      have hlen := ht.length
      obtain ⟨rest, list, hl, hend, hrest, rfl⟩ := ih (by omega)
      rw [ht.offset] at hrest
      refine ⟨_, _, ht.trans hl, hend, .entry hb hspells hrest rfl, ?_⟩
      simp [toList_pushGap]

/-- By induction on the body: the blanks before an entry and the entry are a round. -/
theorem rounds_of_body : ∀ {o text list}, SpellsBody n o text list →
    ∀ (body : Array Item) {i}, i.offset = o → i.Takes text l → l.rest = [] →
      i.rest.length < bound + 1 →
      Rounds (itemRound (bound + 1) n) body i (body.toList ++ list) l
  | _, _, _, .done hb, body, i, ho, ht, hend, hi => by
    rw [← ho]
    exact .done ((itemRound_iff hi).mpr (.inl ⟨_, ht, hb, hend, rfl⟩))
  | o, _, _, @SpellsBody.entry _ _ gap _ _ _ e _ hb hspells hrest htext, body, i, ho, ht, hend,
      hi => by
    rw [htext] at ht
    rw [← ho] at hspells
    obtain ⟨k, hk, hl⟩ := Input.takes_append.mp ht
    have hlen := hk.length
    have hrounds := rounds_of_body hrest ((pushGap body (gapAt i.offset gap)).push (.entry e))
      (by rw [hk.offset, ho]) hl hend (by omega)
    rw [Array.toList_push, toList_pushGap, ho, List.append_assoc, List.append_assoc] at hrounds
    rw [ho] at hspells
    exact .again ((itemRound_iff hi).mpr (.inr ⟨gap, _, e, hk, hb, by rw [ho]; exact hspells,
      by rw [ho]⟩)) hrounds

/-- A whole source is read exactly when it spells a resource. -/
theorem resource_iff {limit : Option Nat} {source : List Char} {r : Resource} :
    (∃ l, resource limit (.ofText source) = .ok r l) ↔ SpellsResource limit source r := by
  simp only [resource, offset_bind, left_bind, bind_eq_ok (x := items _ _), spanFrom_bind, pure_eq_ok]
  have hlen : (Input.ofText source).rest.length < source.length + 1 := Nat.lt_succ_self _
  constructor
  · intro h
    obtain ⟨l, body, _, hbody, rfl, rfl⟩ := h
    obtain ⟨text, list, ht, hend, hspells, rfl⟩ := body_of_rounds (Rounds.of_repeatUpTo hbody) hlen
    have htext : source = text := by
      have hrest := ht.rest
      rw [hend, List.append_nil] at hrest
      exact hrest
    rw [htext]
    exact ⟨hspells, ht.span⟩
  · intro h
    obtain ⟨hbody, hspan⟩ := h
    obtain ⟨body, span⟩ := r
    have ht : (Input.ofText source).Takes source (Input.after (.ofText source) source []) :=
      Input.takes_after (List.append_nil source).symm
    have hrounds := rounds_of_body hbody #[] rfl ht rfl hlen
    refine ⟨_, body, _, hrounds.repeatUpTo shortens_itemRound hlen hlen, ?_, rfl⟩
    exact congrArg (Resource.mk body) (ht.span.trans hspan.symm)

end Reader

namespace Resource

/-- A text is read as the resource that it spells, and not otherwise. -/
theorem ofChars_eq_ok_iff {limit : Option Nat} {source : List Char} {r : Resource} :
    ofChars limit source = .ok r ↔ SpellsResource limit source r := by
  rw [← Reader.resource_iff, ofChars]
  cases Reader.resource limit (.ofText source) with
  | ok r' l => simp
  | error fault l => simp

theorem read_eq_ok_iff_ofChars {limit : Option Nat} {source : String} {r : Resource} :
    read limit source = .ok r ↔ ofChars limit source.toList = .ok r := by
  rw [read]
  cases ofChars limit source.toList with
  | ok r' =>
    constructor
    · intro h
      cases h
      rfl
    · intro h
      cases h
      rfl
  | error fault =>
    constructor
    · intro h
      cases h
    · intro h
      cases h

/-- Reading accepts exactly the sources that the grammar derives under the limit. Its result is the
tree of a derivation, in which the span of every node is the extent of its text. -/
theorem read_eq_ok_iff_spells (limit : Option Nat) (source : String) (r : Resource) :
    read limit source = .ok r ↔ SpellsResource limit source.toList r :=
  read_eq_ok_iff_ofChars.trans ofChars_eq_ok_iff

end Resource

end LocaleText
