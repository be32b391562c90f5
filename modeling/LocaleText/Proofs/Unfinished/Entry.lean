import LocaleText.Proofs.Reading.Entry
import LocaleText.Proofs.Unfinished.Operation

/-!
# Entries that the source ends within

The readers of attributes, entities, macros and bodies run out of input exactly on unfinished texts.

* `Input.breaksOff_attributes_iff`, `Input.breaksOff_entry_iff` and `Input.breaksOff_body_iff` take
  an unfinished text apart, by where it breaks off
* `Reader.runsOut_entryEnd` is about the end of an entry. The `>` there is not missed: without
  attributes it has been seen, and attributes go on up to it
* `Reader.runsOut_entity` and `Reader.runsOut_macroDef` are about what is behind a name, and
  `Reader.runsOut_behindName` tells them apart
* `Reader.runsOut_itemRounds` is the induction over the entries of a source
* `Reader.runsOut_resource` is the equivalence for whole sources
-/

namespace LocaleText

/-- A parameter begins with its sigil, also if there is no more of it. -/
theorem UnfinishedParameters.head {text : List Char} (h : UnfinishedParameters text) :
    ∀ c ∈ text.head?, c = Scope.variable.sigil := by
  intro c hc
  cases h with
  | nil => exact absurd hc (by simp)
  | name _ ht | unclosed _ _ ht | more _ _ _ _ ht =>
    rw [ht] at hc
    exact (Option.some.inj hc).symm

namespace Input

variable {i : Input} {n : Nesting} {h : Option Opening}

/-- The source ends within attributes within a key, within a value, behind one, or behind a comma. -/
theorem breaksOff_attributes_iff : i.BreaksOff (UnfinishedAttributes n) h ↔
    (UnfinishedKey i.rest ∧ h = none) ∨
    (∃ key name l, KeyText key name ∧ i.Takes key l ∧ l.EndsIn .value n h) ∨
    ∃ key value gap name v l, KeyText key name ∧ SpellsValue n (i.offset + byteLength key) value v ∧
      Blanks gap ∧ i.Takes (key ++ value ++ gap) l ∧ ((l.rest = [] ∧ h = none) ∨
        ∃ gap' l', l.Takes ([','] ++ gap') l' ∧ Blanks gap' ∧
          l'.BreaksOff (UnfinishedAttributes n) h) := by
  constructor
  · rintro ⟨openings, hu, rfl⟩
    generalize htext : i.rest = text at hu
    cases hu with
    | key hkey => exact .inl ⟨hkey, rfl⟩
    | value hkey hu ht =>
      exact .inr (.inl ⟨_, _, _, hkey, takes_after (htext.trans ht), openings, hu, rfl⟩)
    | unclosed hkey hv hb ht =>
      exact .inr (.inr ⟨_, _, _, _, _, _, hkey, hv, hb, takes_all (htext.trans ht), .inl ⟨rfl, rfl⟩⟩)
    | more hkey hv hb hb' hu ht =>
      rw [List.append_assoc _ [',']] at ht
      have hl := takes_after (htext.trans ht)
      obtain ⟨k, hk, hl⟩ := takes_append.mp hl
      refine .inr (.inr ⟨_, _, _, _, _, k, hkey, hv, hb, hk, .inr ⟨_, _, hl, hb', openings, ?_, rfl⟩⟩)
      simpa [after] using hu
  · rintro (⟨hkey, rfl⟩ | ⟨key, name, l, hkey, ht, openings, hu, rfl⟩ |
      ⟨key, value, gap, name, v, l, hkey, hv, hb, ht, ⟨hrest, rfl⟩ |
        ⟨gap', l', hl, hb', openings, hu, rfl⟩⟩)
    · exact ⟨[], .key hkey, rfl⟩
    · rw [ht.offset] at hu
      exact ⟨openings, .value hkey hu ht.rest, rfl⟩
    · exact ⟨[], .unclosed hkey hv hb (ht.eq_of_end hrest), rfl⟩
    · have hall := ht.trans hl
      rw [← List.append_assoc] at hall
      rw [hall.offset] at hu
      exact ⟨openings, .more hkey hv hb hb' hu hall.rest, rfl⟩

/-- Attributes that the source ends within begin with a key. -/
theorem BreaksOff.attributes_front (he : i.BreaksOff (UnfinishedAttributes n) h) :
    NextNot isBlank i.rest ∧ i.rest.head? ≠ some '>' := by
  have hhead : ∀ c ∈ i.rest.head?, isWordChar c = true ∨ isQuote c = true := by
    rcases breaksOff_attributes_iff.mp he with ⟨hkey, -⟩ | ⟨key, name, l, hkey, ht, -⟩ |
      ⟨key, value, gap, name, v, l, hkey, -, -, ht, -⟩
    · exact hkey.head
    · exact hkey.head_of_takes ht
    · rw [List.append_assoc] at ht
      obtain ⟨k, hk, -⟩ := takes_append.mp ht
      exact hkey.head_of_takes hk
  refine ⟨fun c hc => (key_head (hhead c hc)).1, fun hend => ?_⟩
  exact absurd (key_head (hhead _ hend)).2.1 (by decide)

/-- The source ends within parameters before one, within a name, behind one, or behind a comma. -/
theorem unfinishedParameters_iff : UnfinishedParameters i.rest ↔ i.rest = [] ∨
    ∃ m, i.Takes [Scope.variable.sigil] m ∧ (UnfinishedName m.rest ∨
      ∃ id name ending gap l, NameText id name ending ∧ m.Takes (id ++ gap) l ∧ Blanks gap ∧
        (l.rest = [] ∨ ∃ gap' l', l.Takes ([','] ++ gap') l' ∧ Blanks gap' ∧
          UnfinishedParameters l'.rest)) := by
  constructor
  · intro hu
    generalize htext : i.rest = text at hu
    cases hu with
    | nil => exact .inl rfl
    | name hname ht => exact .inr ⟨_, takes_after (htext.trans ht), .inl hname⟩
    | @unclosed id gap _ _ _ hname hb ht =>
      have hall : i.rest = [Scope.variable.sigil] ++ (id ++ gap) := by
        rw [htext, ht, List.append_assoc]
      exact .inr ⟨_, takes_after hall, .inr ⟨id, _, _, gap, _, hname,
        takes_all rfl, hb, .inl rfl⟩⟩
    | @more id gap gap' rest _ _ _ hname hb hb' hu ht =>
      have hall : i.rest = [Scope.variable.sigil] ++ (id ++ gap ++ ([','] ++ gap' ++ rest)) := by
        rw [htext, ht]
        simp
      exact .inr ⟨_, takes_after hall, .inr ⟨id, _, _, gap, _, hname, takes_after rfl, hb,
        .inr ⟨gap', _, takes_after rfl, hb', hu⟩⟩⟩
  · rintro (hnil | ⟨m, hm, hname | ⟨id, name, ending, gap, l, hname, hl, hb, hrest |
      ⟨gap', l', hl', hb', hu⟩⟩⟩)
    · rw [hnil]
      exact .nil
    · exact .name hname hm.rest
    · refine .unclosed hname hb ?_
      rw [hm.rest, hl.eq_of_end hrest, List.append_assoc]
    · refine .more hname hb hb' hu ?_
      rw [hm.rest, hl.rest, hl'.rest]
      simp

/-- The source ends within what is behind the name and the index of an entity. -/
def EndsInEntity (i : Input) (n : Nesting) (h : Option Opening) : Prop :=
  ∃ before m, i.Takes before m ∧ Blanks before ∧ (m.EndsIn .value n h ∨
    ∃ value behind v l, SpellsValue n m.offset value v ∧ m.Takes (value ++ behind) l ∧ Blanks behind ∧
      l.BreaksOff (UnfinishedAttributes n) h)

/-- The source ends within what is behind the name of a macro. -/
def EndsInMacro (i : Input) (n : Nesting) (h : Option Opening) : Prop :=
  (∃ gap l, i.Takes (['('] ++ gap) l ∧ Blanks gap ∧ UnfinishedParameters l.rest ∧ h = none) ∨
  ∃ gap₁ params gap₂ ids k, Blanks gap₁ ∧
    SpellsParameters (i.offset + byteLength (['('] ++ gap₁)) params ids ∧ Blanks gap₂ ∧
    i.Takes (['('] ++ gap₁ ++ params ++ [')'] ++ gap₂) k ∧ ((k.rest = [] ∧ h = none) ∨
      ∃ m, k.Takes ['\x7b'] m ∧ (m.EndsIn .enclosed n h ∨
        ∃ gap₃ body gap₄ gap₅ e ending l, Blanks gap₃ ∧
          SpellsExpr n (m.offset + byteLength gap₃) body e ending ∧ Blanks gap₄ ∧ Blanks gap₅ ∧
          m.Takes (gap₃ ++ body ++ gap₄ ++ ['\x7d'] ++ gap₅) l ∧
          l.BreaksOff (UnfinishedAttributes n) h))

/-- The source ends behind the name of an entry: within the index of an entity, behind its index or the
place of one, or within a macro. -/
def EndsBehindName (i : Input) (ending : Ending) (n : Nesting) (h : Option Opening) : Prop :=
  (∃ gap l h', i.Takes (['['] ++ gap) l ∧ Blanks gap ∧ l.EndsIn .items n h' ∧
    h = some (h'.getD ⟨.index, i.offset⟩)) ∨
  (∃ index es l, SpellsIndex n i.offset index es ∧ i.Takes index l ∧
    (es = none → NextNot (fun c => ending.continues c || c == '[') l.rest) ∧ l.EndsInEntity n h) ∨
  i.EndsInMacro n h

/-- What comes next behind the name of an entity without an index does not go on with it. The blanks
before a value do so neither. -/
theorem nextNot_behind_iff {before text : List Char} {ending : Ending} (hb : Blanks before) :
    NextNot (fun c => ending.continues c || c == '[') (before ++ text) ↔
      (before = [] → NextNot (fun c => ending.continues c || c == '[') text) := by
  cases before with
  | nil => simp
  | cons b bs =>
    have hblank := hb b (List.mem_cons_self ..)
    have hbracket : b ≠ '[' := ne_of_class hblank (by decide)
    simp [nextNot_cons, ending.continues_of_isBlank hblank, hbracket]

theorem EndsInMacro.head (he : i.EndsInMacro n h) : i.rest.head? = some '(' := by
  rcases he with ⟨gap, l, hl, -⟩ | ⟨gap₁, params, gap₂, ids, q, -, -, -, hq, -⟩
  · exact hl.head
  · rw [hq.rest]
    rfl

/-- What is behind the name of an entity does not begin as a macro does. -/
theorem EndsInEntity.head?_ne (he : i.EndsInEntity n h) : i.rest.head? ≠ some '(' := by
  obtain ⟨before, m, hm, hb, he⟩ := he
  rw [hm.rest]
  cases before with
  | nil =>
    rcases he with he | ⟨value, behind, v, l, hv, hl, -⟩
    · intro hc
      have hne : m.rest ≠ [] := fun hnil => absurd hc (by simp [hnil])
      obtain ⟨c, hc', hv⟩ := he.head_of_value hne
      obtain rfl : c = '(' := Option.some.inj (hc'.symm.trans hc)
      exact absurd hv (by decide)
    · obtain ⟨c, cs, rfl, hc⟩ := hv.exists_cons
      rw [hl.rest]
      intro hp
      obtain rfl : c = '(' := by simpa using hp
      exact absurd hc (by decide)
  | cons b bs =>
    intro hc
    obtain rfl : b = '(' := by simpa using hc
    exact absurd (hb _ (List.mem_cons_self ..)) (by decide)

/-- What is behind a name does not go on with it. -/
theorem EndsBehindName.nextNot {id : List Char} {name : String} {ending : Ending}
    (he : i.EndsBehindName ending n h) (hname : NameText id name ending) :
    NextNot ending.continues i.rest := by
  obtain ⟨hparenthesis, hbracket⟩ := Reader.name_ending hname
  rcases he with ⟨gap, l, h', hl, -⟩ | ⟨index, es, l, hindex, hl, hnext, -⟩ | he
  · exact nextNot_of_head? hl.head hbracket
  · cases hindex with
    | none =>
      obtain rfl := takes_nil.mp hl
      exact fun c hc => (Bool.or_eq_false_iff.mp (hnext rfl c hc)).1
    | some _ _ htext =>
      rw [htext] at hl
      refine nextNot_of_head? (c := '[') ?_ hbracket
      rw [hl.rest]
      rfl
  · exact nextNot_of_head? he.head hparenthesis

section Behind

variable {id : List Char} {name : String} {ending : Ending} {k : Input} (hname : NameText id name ending)
  (hk : i.Takes (['<'] ++ id) k)
include hname hk

/-- An entry breaks off where the value or the attributes of an entity do. -/
theorem EndsInEntity.breaksOff {index : List Char} {es : Option (List Expr)} {m : Input}
    (hindex : SpellsIndex n k.offset index es) (hm : k.Takes index m)
    (hnext : es = none → NextNot (fun c => ending.continues c || c == '[') m.rest)
    (he : m.EndsInEntity n h) : i.BreaksOff (UnfinishedEntry n) h := by
  obtain ⟨before, q, hq, hb, he⟩ := he
  have hall := (hk.trans hm).trans hq
  rw [hk.offset] at hindex
  rw [hq.rest, nextNot_behind_iff hb] at hnext
  rcases he with ⟨openings, hu, rfl⟩ | ⟨value, behind, v, l, hv, hl, hb', openings, hu, rfl⟩
  · rw [hall.offset] at hu
    exact ⟨openings, .value hname hindex hb hnext hu hall.rest, rfl⟩
  · have hall' := hall.trans hl
    rw [hall.offset] at hv
    rw [hall'.offset] at hu
    refine ⟨openings, .attributes hname hindex hb ?_ hv hb' (by simpa using hu)
      (by simpa using hall'.rest), rfl⟩
    intro hes hempty
    have hrest := hnext hes hempty
    rw [hl.rest, List.append_assoc] at hrest
    exact nextNot_of_append hrest

/-- An entry breaks off where a macro does. -/
theorem EndsInMacro.breaksOff (he : k.EndsInMacro n h) : i.BreaksOff (UnfinishedEntry n) h := by
  rcases he with ⟨gap, l, hl, hb, hu, rfl⟩ | ⟨gap₁, params, gap₂, ids, q, hb₁, hparams, hb₂, hq, he⟩
  · have hall := hk.trans hl
    exact ⟨[], .parameters hname hb hu (by simpa using hall.rest), rfl⟩
  have hall := hk.trans hq
  rw [hk.offset] at hparams
  rcases he with ⟨hrest, rfl⟩ | ⟨m, hm, ⟨openings, hu, rfl⟩ | ⟨gap₃, body, gap₄, gap₅, e, ending', l, hb₃,
    hspells, hb₄, hb₅, hl, openings, hu, rfl⟩⟩
  · exact ⟨[], .noBody hname hb₁ (by simpa [Nat.add_assoc] using hparams) hb₂
      (by simpa [hrest] using hall.rest), rfl⟩
  · have hall' := hall.trans hm
    rw [hall'.offset] at hu
    exact ⟨openings, .body hname hb₁ (by simpa [Nat.add_assoc] using hparams) hb₂
      (by simpa using hu) (by simpa using hall'.rest), rfl⟩
  · have hall' := (hall.trans hm).trans hl
    rw [(hall.trans hm).offset] at hspells
    rw [hall'.offset] at hu
    exact ⟨openings, .macroAttributes hname hb₁ (by simpa [Nat.add_assoc] using hparams) hb₂ hb₃
      (by simpa [Nat.add_assoc] using hspells) hb₄ hb₅ (by simpa using hu)
      (by simpa using hall'.rest), rfl⟩

end Behind

/-- An entry breaks off within its name, or behind it. By the constructors of the relation. -/
theorem parts_of_breaksOff_entry (he : i.BreaksOff (UnfinishedEntry n) h) :
    (∃ m, i.Takes ['<'] m ∧ UnfinishedName m.rest ∧ h = none) ∨
    ∃ id name ending k, NameText id name ending ∧ i.Takes (['<'] ++ id) k ∧
      k.EndsBehindName ending n h := by
  obtain ⟨openings, hu, rfl⟩ := he
  generalize htext : i.rest = text at hu
  cases hu with
  | name hname ht => exact .inl ⟨_, takes_after (htext.trans ht), hname, rfl⟩
  | @index id gap rest _ name ending openings hname hb hu ht =>
    rw [List.append_assoc (['<'] ++ id)] at ht
    obtain ⟨k, hk, hl⟩ := takes_append.mp (takes_after (htext.trans ht))
    refine .inr ⟨id, name, ending, k, hname, hk, .inl ⟨gap, _, _, hl, hb, ⟨openings, ?_, rfl⟩, ?_⟩⟩
    · simpa [after] using hu
    · rw [head?_append_singleton, hk.offset]
  | @value id index before rest _ name ending es openings hname hindex hb hnext hu ht =>
    obtain ⟨m, hm, hl⟩ := takes_append.mp (takes_after (htext.trans ht))
    obtain ⟨k, hk, hi⟩ := takes_append.mp hm
    refine .inr ⟨id, name, ending, k, hname, hk, .inr (.inl ⟨index, es, m, hk.offset ▸ hindex, hi, ?_,
      before, _, hl, hb, .inl ⟨openings, hu, rfl⟩⟩)⟩
    intro hes
    rw [hl.rest]
    exact (nextNot_behind_iff hb).mpr (hnext hes)
  | @attributes id index before value behind rest _ name ending es v openings hname hindex hb hnext
      hv hb' hu ht =>
    have hall : i.rest = ['<'] ++ id ++ (index ++ (before ++ (value ++ behind ++ rest))) := by
      rw [htext, ht]
      simp
    have hk := takes_after hall
    refine .inr ⟨id, name, ending, _, hname, hk, .inr (.inl ⟨index, es, _, ?_, takes_after rfl, ?_,
      before, _, takes_after rfl, hb, .inr ⟨value, behind, v, _, ?_, takes_after rfl, hb', openings, ?_,
        rfl⟩⟩)⟩
    · rwa [hk.offset]
    · intro hes
      obtain ⟨c, cs, rfl, -⟩ := hv.exists_cons
      exact (nextNot_behind_iff hb).mpr fun hempty => nextNot_cons.mpr (nextNot_cons.mp
        (hnext hes hempty))
    · simpa [after, Nat.add_assoc] using hv
    · simpa [after, Nat.add_assoc] using hu
  | @parameters id gap rest _ name ending hname hb hu ht =>
    rw [List.append_assoc (['<'] ++ id)] at ht
    obtain ⟨k, hk, hl⟩ := takes_append.mp (takes_after (htext.trans ht))
    exact .inr ⟨id, name, ending, k, hname, hk, .inr (.inr (.inl ⟨gap, _, hl, hb, hu, rfl⟩))⟩
  | @noBody id gap₁ params gap₂ _ name ending ids hname hb₁ hparams hb₂ ht =>
    have hall : i.rest = ['<'] ++ id ++ (['('] ++ gap₁ ++ params ++ [')'] ++ gap₂ ++ []) := by
      rw [htext, ht]
      simp
    refine .inr ⟨id, name, ending, _, hname, takes_after hall, .inr (.inr (.inr ⟨gap₁, params, gap₂, ids,
      _, hb₁, ?_, hb₂, takes_after rfl, .inl ⟨rfl, rfl⟩⟩))⟩
    simpa [after, Nat.add_assoc] using hparams
  | @body id gap₁ params gap₂ rest _ name ending ids openings hname hb₁ hparams hb₂ hu ht =>
    have hall : i.rest = ['<'] ++ id ++ (['('] ++ gap₁ ++ params ++ [')'] ++ gap₂ ++
        (['\x7b'] ++ rest)) := by
      rw [htext, ht]
      simp
    refine .inr ⟨id, name, ending, _, hname, takes_after hall, .inr (.inr (.inr ⟨gap₁, params, gap₂, ids,
      _, hb₁, ?_, hb₂, takes_after rfl, .inr ⟨_, takes_after rfl, .inl ⟨openings, ?_, rfl⟩⟩⟩))⟩
    · simpa [after, Nat.add_assoc] using hparams
    · simpa [after, Nat.add_assoc] using hu
  | @macroAttributes id gap₁ params gap₂ gap₃ body gap₄ gap₅ rest _ name ending ending' ids e openings
      hname hb₁ hparams hb₂ hb₃ hspells hb₄ hb₅ hu ht =>
    have hall : i.rest = ['<'] ++ id ++ (['('] ++ gap₁ ++ params ++ [')'] ++ gap₂ ++
        (['\x7b'] ++ (gap₃ ++ body ++ gap₄ ++ ['\x7d'] ++ gap₅ ++ rest))) := by
      rw [htext, ht]
      simp
    refine .inr ⟨id, name, ending, _, hname, takes_after hall, .inr (.inr (.inr ⟨gap₁, params, gap₂, ids,
      _, hb₁, ?_, hb₂, takes_after rfl, .inr ⟨_, takes_after rfl, .inr ⟨gap₃, body, gap₄, gap₅, e,
        ending', _, hb₃, ?_, hb₄, hb₅, takes_after rfl, openings, ?_, rfl⟩⟩⟩))⟩
    · simpa [after, Nat.add_assoc] using hparams
    · simpa [after, Nat.add_assoc] using hspells
    · simpa [after, Nat.add_assoc] using hu

/-- An entry breaks off in its name, or somewhere behind it. -/
theorem breaksOff_entry_iff : i.BreaksOff (UnfinishedEntry n) h ↔
    (∃ m, i.Takes ['<'] m ∧ UnfinishedName m.rest ∧ h = none) ∨
    ∃ id name ending k, NameText id name ending ∧ i.Takes (['<'] ++ id) k ∧
      k.EndsBehindName ending n h := by
  refine ⟨parts_of_breaksOff_entry, ?_⟩
  rintro (⟨m, hm, hname, rfl⟩ | ⟨id, name, ending, k, hname, hk, ⟨gap, l, _, hl, hb, ⟨openings, hu, rfl⟩,
    rfl⟩ | ⟨index, es, m, hindex, hm, hnext, he⟩ | he⟩)
  · exact ⟨[], .name hname hm.rest, rfl⟩
  · have hall := hk.trans hl
    rw [hall.offset] at hu
    refine ⟨openings ++ [⟨.index, k.offset⟩], ?_, head?_append_singleton _ _⟩
    rw [hk.offset]
    exact .index hname hb (by simpa using hu) (by simpa using hall.rest)
  · exact he.breaksOff hname hk hindex hm hnext
  · exact he.breaksOff hname hk

/-- An entry that breaks off has begun. -/
theorem BreaksOff.entry_head (he : i.BreaksOff (UnfinishedEntry n) h) : i.rest.head? = some '<' := by
  rcases breaksOff_entry_iff.mp he with ⟨m, hm, -⟩ | ⟨id, name, ending, k, -, hk, -⟩
  · exact hm.head
  · exact hk.head

/-- The source ends within a body within its first entry, or behind some entries. -/
theorem breaksOff_body_iff : i.BreaksOff (UnfinishedBody n) h ↔
    (∃ gap l, i.Takes gap l ∧ Blanks gap ∧ l.BreaksOff (UnfinishedEntry n) h) ∨
    ∃ gap entry e l, Blanks gap ∧ SpellsEntry n (i.offset + byteLength gap) entry e ∧
      i.Takes (gap ++ entry) l ∧ l.BreaksOff (UnfinishedBody n) h := by
  constructor
  · rintro ⟨openings, hu, rfl⟩
    generalize htext : i.rest = text at hu
    cases hu with
    | last hb hu ht => exact .inl ⟨_, _, takes_after (htext.trans ht), hb, openings, hu, rfl⟩
    | entry hb he hu ht =>
      exact .inr ⟨_, _, _, _, hb, he, takes_after (htext.trans ht), openings, hu, rfl⟩
  · rintro (⟨gap, l, hl, hb, openings, hu, rfl⟩ | ⟨gap, entry, e, l, hb, he, hl, openings, hu, rfl⟩)
    · rw [hl.offset] at hu
      exact ⟨openings, .last hb hu hl.rest, rfl⟩
    · rw [hl.offset] at hu
      exact ⟨openings, .entry hb he hu hl.rest, rfl⟩

end Input

namespace Reader

variable {bound rounds : Nat} {n : Nesting} {i l : Input} {h : Option Opening}

theorem exactAtEnd_inner (bound : Nat) : ExactAtEnd bound (expression (bound + 1)) :=
  ⟨exact_inner bound, fun n i h hi =>
    (exactAtEnd_expression (bound + 1)).runsOut n i h (Nat.lt_succ_of_lt hi)⟩

theorem runsOut_entryValue (hi : i.rest.length < bound + 1) :
    RunsOut (entryValue (bound + 1) n) i h ↔ i.EndsIn .value n h :=
  runsOut_value (exactAtEnd_inner bound) hi

/-! ### Attributes -/

theorem runsOut_behindAttribute {entries : Attributes} :
    RunsOut (behindAttribute rounds bound n entries) i h ↔ (i.rest = [] ∧ h = none) ∨
      ∃ gap l, i.Takes ([','] ++ gap) l ∧ Blanks gap ∧ NextNot isBlank l.rest ∧
        RunsOut (repeatUpTo rounds entries (attributeRound bound n)) l h := by
  have hunexpected : RunsOut (unexpected .expectedAttributeSeparator : Reader Attributes) i h ↔
      i.rest = [] ∧ h = none := runsOut_unexpected .expectedAttributeSeparator (by decide)
  have hno : i.rest.head? ≠ some ',' → ∀ gap l, ¬ i.Takes ([','] ++ gap) l := fun hc gap l ht =>
    hc ht.head
  rw [behindAttribute, runsOut_peek?_bind]
  by_cases hcomma : i.rest.head? = some ','
  · have hne : i.rest ≠ [] := fun hnil => absurd hcomma (by simp [hnil])
    simp only [hcomma, hne, false_and, false_or, runsOut_skip_blanks_bind hcomma]
  · simp only [hno hcomma, false_and, exists_false, or_false]
    by_cases hend : i.rest.head? = some '>'
    · have hne : i.rest ≠ [] := fun hnil => absurd hend (by simp [hnil])
      simp only [hend, not_runsOut_pure, hne, false_and]
    · rw [← hunexpected]
      split
      · exact absurd ‹_› hend
      · exact absurd ‹_› hcomma
      · exact Iff.rfl

/-- By induction on the rounds. -/
theorem runsOut_attributeRounds : ∀ {entries : Attributes} {i : Input}, i.rest.length < bound + 1 →
    i.rest.length < rounds → (RunsOut (repeatUpTo rounds entries (attributeRound (bound + 1) n)) i h ↔
      i.BreaksOff (UnfinishedAttributes n) h) := by
  induction rounds with
  | zero =>
    intro entries i _ hr
    omega
  | succ rounds ih =>
    intro entries i hi hr
    rw [repeatUpTo_attributeRound, runsOut_bind, runsOut_keyed, Input.breaksOff_attributes_iff, or_assoc]
    simp only [runsOut_blanks_bind, runsOut_behindAttribute]
    refine or_congr_right (or_congr ⟨?_, ?_⟩ ⟨?_, ?_⟩)
    · rintro ⟨key, name, m, hkey, hm, -, hr⟩
      have hlen := hm.length
      exact ⟨key, name, m, hkey, hm, (runsOut_entryValue (by omega)).mp hr⟩
    · rintro ⟨key, name, m, hkey, hm, he⟩
      have hlen := hm.length
      exact ⟨key, name, m, hkey, hm, (he.mayStart (by simp) (by simp)).nextNot_isBlank,
        (runsOut_entryValue (by omega)).mpr he⟩
    · rintro ⟨⟨⟨name, span⟩, v⟩, m, hmember, gap, k, hk, hr⟩
      obtain ⟨key, value, gap, hkey, hv, hb, ht, -⟩ :=
        (attribute_iff hi).mp ⟨span, m, gap, hmember, hk⟩
      refine ⟨key, value, gap, name, v, k, hkey, hv, hb, ht, hr.imp_right ?_⟩
      rintro ⟨gap', l, hl, hb', -, hr⟩
      have hlt := (ht.trans hl).length_lt (by simp)
      exact ⟨gap', l, hl, hb', (ih (by omega) (by omega)).mp hr⟩
    · rintro ⟨key, value, gap, name, v, k, hkey, hv, hb, ht, hr⟩
      have hfresh : NextNot isBlank k.rest := by
        rcases hr with ⟨hrest, -⟩ | ⟨gap', l, hl, -⟩
        · rw [hrest]
          exact nextNot_nil _
        · exact nextNot_of_head? hl.head (by decide)
      obtain ⟨span, m, gap, hmember, hk⟩ :=
        (attribute_iff hi).mpr ⟨key, value, gap, hkey, hv, hb, ht, hfresh⟩
      refine ⟨(⟨name, span⟩, v), m, hmember, gap, k, hk, hr.imp_right ?_⟩
      rintro ⟨gap', l, hl, hb', he⟩
      have hlt := (ht.trans hl).length_lt (by simp)
      exact ⟨gap', l, hl, hb', he.attributes_front.1, (ih (by omega) (by omega)).mpr he⟩

/-- The closer comes next behind what stands before the end of an entry. -/
theorem head_of_attributes (hi : i.rest.length < bound + 1) {attrs : Option Attributes}
    (hr : (if i.rest.head? = some '>' then pure none else some <$> attributes (bound + 1) n) i =
      .ok attrs l) : l.rest.head? = some '>' := by
  rcases ite_eq_ok.mp hr with ⟨hend, hr⟩ | ⟨-, hr⟩
  · rwa [← (pure_eq_ok.mp hr).2]
  · obtain ⟨as, has, -⟩ := map_eq_ok.mp hr
    obtain ⟨_, _, -, hend, -⟩ := attributes_of_rounds (Rounds.of_repeatUpTo has) hi
    exact hend

/-- The end comes within the attributes, or in the blanks where they could begin. -/
theorem runsOut_entryEnd (hi : i.rest.length < bound + 1) :
    RunsOut (entryEnd (bound + 1) n) i h ↔
      ∃ gap l, i.Takes gap l ∧ Blanks gap ∧ l.BreaksOff (UnfinishedAttributes n) h := by
  rw [entryEnd_eq, runsOut_blanks_bind]
  simp only [runsOut_peek?_bind, runsOut_bind (x := ite _ _ _), runsOut_ite, not_runsOut_pure, and_false,
    false_or, runsOut_map]
  constructor
  · rintro ⟨gap, m, hm, ⟨-, hr⟩ | ⟨attrs, k, hread, hr⟩⟩
    · have hlen := hm.takes.length
      exact ⟨gap, m, hm.takes, hm.blank, (runsOut_attributeRounds (by omega) (by omega)).mp hr⟩
    · have hlen := hm.takes.length
      obtain ⟨l, hl⟩ := Input.exists_takes_head (head_of_attributes (by omega) hread)
      rcases runsOut_bind.mp hr with hr | ⟨_, _, _, hr⟩
      · exact absurd hr (not_runsOut_of_ok (expect_eq_ok.mpr hl))
      · exact absurd hr not_runsOut_pure
  · rintro ⟨gap, m, hm, hb, he⟩
    have hlen := hm.length
    obtain ⟨hfresh, hend⟩ := he.attributes_front
    exact ⟨gap, m, ⟨hm, hb, hfresh⟩, .inl ⟨hend,
      (runsOut_attributeRounds (by omega) (by omega)).mpr he⟩⟩

/-! ### Entities -/

/-- The end comes before the value, within it, or behind it. -/
theorem runsOut_entity (hi : i.rest.length < bound + 1) {start : Nat} {id : Ident}
    {index : Option (List Expr)} :
    RunsOut (entity (bound + 1) n start id index) i h ↔ i.EndsInEntity n h := by
  simp only [entity, runsOut_gap_bind, runsOut_bind (x := entryValue _ _),
    runsOut_bind (x := entryEnd _ _), runsOut_spanFrom_bind, not_runsOut_pure, and_false,
    exists_false, or_false, Input.EndsInEntity]
  constructor
  · rintro ⟨before, m, hm, hr | ⟨v, k, hv, behind, k', hk', hr⟩⟩
    · have hlen := hm.takes.length
      exact ⟨before, m, hm.takes, hm.blank, .inl ((runsOut_entryValue (by omega)).mp hr)⟩
    · have hlen := hm.takes.length
      obtain ⟨value, hk, hspells⟩ := (entryValue_iff (by omega)).mp hv
      have ht := hk.trans hk'.takes
      have hlen' := ht.length
      obtain ⟨gap, l, hl, hb, he⟩ := (runsOut_entryEnd (by omega)).mp hr
      refine ⟨before, m, hm.takes, hm.blank, .inr ⟨value, behind ++ gap, v, l, hspells, ?_,
        List.forall_mem_append.mpr ⟨hk'.blank, hb⟩, he⟩⟩
      rw [← List.append_assoc]
      exact ht.trans hl
  · rintro ⟨before, m, hm, hb, he | ⟨value, behind, v, l, hspells, ht, hb', he⟩⟩
    · have hlen := hm.length
      exact ⟨before, m, ⟨hm, hb, (he.mayStart (by simp) (by simp)).nextNot_isBlank⟩,
        .inl ((runsOut_entryValue (by omega)).mpr he)⟩
    · have hlen := hm.length
      have hlen' := ht.length
      have hfresh : NextNot isBlank m.rest := by
        rw [ht.rest, List.append_assoc]
        exact value_fresh hspells
      obtain ⟨k, hk, hl⟩ := Input.takes_append.mp ht
      exact ⟨before, m, ⟨hm, hb, hfresh⟩, .inr ⟨v, k, (entryValue_iff (by omega)).mpr ⟨value, hk, hspells⟩,
        behind, l, ⟨hl, hb', he.attributes_front.1⟩,
        (runsOut_entryEnd (by omega)).mpr ⟨[], l, .refl l, by simp [Blanks], he⟩⟩⟩

/-! ### Macros -/

theorem runsOut_behindParameter {params : Array Ident} :
    RunsOut (behindParameter rounds params) i h ↔ (i.rest = [] ∧ h = none) ∨
      (∃ gap l, i.Takes ([','] ++ gap) l ∧ Blanks gap ∧ NextNot isBlank l.rest ∧
        RunsOut (repeatUpTo rounds params parameterRound) l h) ∨
      (i.rest.head? = some ')' ∧ RunsOut (repeatUpTo rounds params parameterRound) i h) := by
  have hunexpected : RunsOut (unexpected .malformedExpression : Reader (List Ident)) i h ↔
      i.rest = [] ∧ h = none := runsOut_unexpected .malformedExpression (by decide)
  have hno : i.rest.head? ≠ some ',' → ∀ gap l, ¬ i.Takes ([','] ++ gap) l := fun hc gap l ht =>
    hc ht.head
  rw [behindParameter, runsOut_peek?_bind]
  by_cases hcomma : i.rest.head? = some ','
  · have hne : i.rest ≠ [] := fun hnil => absurd hcomma (by simp [hnil])
    simp only [hcomma, hne, false_and, false_or, runsOut_skip_blanks_bind hcomma]
    simp
  · simp only [hno hcomma, false_and, exists_false, false_or]
    by_cases hend : i.rest.head? = some ')'
    · have hne : i.rest ≠ [] := fun hnil => absurd hend (by simp [hnil])
      simp only [hend, hne, false_and, false_or, true_and]
    · rw [← hunexpected]
      split
      · exact absurd ‹_› hcomma
      · exact absurd ‹_› hend
      · simp [hend]

/-- By induction on the rounds. -/
theorem runsOut_parameterRounds : ∀ {params : Array Ident} {i : Input}, i.rest.length < rounds →
    (RunsOut (repeatUpTo rounds params parameterRound) i h ↔ UnfinishedParameters i.rest ∧ h = none) := by
  induction rounds with
  | zero =>
    intro params i hr
    omega
  | succ rounds ih =>
    intro params i hr
    rw [Input.unfinishedParameters_iff]
    simp only [repeatUpTo_parameterRound, runsOut_eat_bind, if_true, not_runsOut_pure, and_false,
      exists_false, false_or, Bool.false_eq_true, if_false,
      runsOut_expect_bind .malformedExpression (by decide), runsOut_bind (x := ident), runsOut_ident,
      runsOut_blanks_bind, runsOut_behindParameter, exists_ident_iff]
    constructor
    · rintro ⟨-, ⟨hnil, rfl⟩ | ⟨m, hm, ⟨hname, rfl⟩ | ⟨id, name, ending, gap, l, hname, hl, hb, -, -,
        hr⟩⟩⟩
      · exact ⟨.inl hnil, rfl⟩
      · exact ⟨.inr ⟨m, hm, .inl hname⟩, rfl⟩
      · have hlt := (hm.trans hl).length_lt (by simp)
        rcases hr with ⟨hrest, rfl⟩ | ⟨gap', l', hl', hb', -, hr⟩ | ⟨hclose, hr⟩
        · exact ⟨.inr ⟨m, hm, .inr ⟨id, name, ending, gap, l, hname, hl, hb, .inl hrest⟩⟩, rfl⟩
        · have hlen := hl'.length
          obtain ⟨hu, rfl⟩ := (ih (by omega)).mp hr
          exact ⟨.inr ⟨m, hm, .inr ⟨id, name, ending, gap, l, hname, hl, hb,
            .inr ⟨gap', l', hl', hb', hu⟩⟩⟩, rfl⟩
        · obtain ⟨hu, -⟩ := (ih (by omega)).mp hr
          exact absurd (hu.head _ hclose) (by decide)
    · rintro ⟨hu, rfl⟩
      refine ⟨fun hclose => ?_, ?_⟩
      · exact absurd ((Input.unfinishedParameters_iff.mpr hu).head _ hclose) (by decide)
      rcases hu with hnil | ⟨m, hm, hname | ⟨id, name, ending, gap, l, hname, hl, hb, hr⟩⟩
      · exact .inl ⟨hnil, rfl⟩
      · exact .inr ⟨m, hm, .inl ⟨hname, rfl⟩⟩
      · have hlt := (hm.trans hl).length_lt (by simp)
        refine .inr ⟨m, hm, .inr ⟨id, name, ending, gap, l, hname, hl, hb, ?_⟩⟩
        rcases hr with hrest | ⟨gap', l', hl', hb', hu⟩
        · rw [hrest]
          exact ⟨nextNot_nil _, fun _ => nextNot_nil _, .inl ⟨rfl, rfl⟩⟩
        · have hlen := hl'.length
          have hfresh : NextNot isBlank l'.rest := fun c hc => by
            rw [hu.head c hc]
            decide
          exact ⟨nextNot_of_head? hl'.head (by decide), fun _ => nextNot_of_head? hl'.head
            (Ending.continues_of_mem_delimiters (by decide) _),
            .inr (.inl ⟨gap', l', hl', hb', hfresh, (ih (by omega)).mpr ⟨hu, rfl⟩⟩)⟩

theorem runsOut_parameters (hi : i.rest.length < bound) (hp : i.rest.head? = some '(') :
    RunsOut (parameters bound) i h ↔ ∃ gap l, i.Takes (['('] ++ gap) l ∧ Blanks gap ∧
      UnfinishedParameters l.rest ∧ h = none := by
  rw [parameters, runsOut_skip_blanks_bind hp]
  constructor
  · rintro ⟨gap, l, ht, hb, -, hr⟩
    have hlen := ht.length
    exact ⟨gap, l, ht, hb, (runsOut_parameterRounds (by omega)).mp hr⟩
  · rintro ⟨gap, l, ht, hb, hu, rfl⟩
    have hlen := ht.length
    refine ⟨gap, l, ht, hb, fun c hc => ?_, (runsOut_parameterRounds (by omega)).mpr ⟨hu, rfl⟩⟩
    rw [hu.head c hc]
    decide

/-- The end comes within the parameters, in front of the body, within it, or behind it. -/
theorem runsOut_macroDef (hi : i.rest.length < bound + 1) (hp : i.rest.head? = some '(') {start : Nat}
    {id : Ident} : RunsOut (macroDef (bound + 1) n start id) i h ↔ i.EndsInMacro n h := by
  have hx := exactAtEnd_expression (bound + 1)
  simp only [macroDef, runsOut_bind (x := parameters _), runsOut_parameters hi hp, runsOut_blanks_bind,
    runsOut_expect_bind .malformedExpression (by decide), runsOut_bind (x := enclosed _ _ _),
    runsOut_bind (x := entryEnd _ _), runsOut_spanFrom_bind, not_runsOut_pure, and_false,
    exists_false, or_false, Input.EndsInMacro]
  refine or_congr_right ⟨?_, ?_⟩
  · rintro ⟨ids, m₁, hids, gap₂, k, hk, hr⟩
    obtain ⟨gap₁, params, ht₁, hb₁, hparams⟩ := (parameters_iff hi hp).mp hids
    have ht := ht₁.trans hk.takes
    have hlen := ht.length
    refine ⟨gap₁, params, gap₂, ids, k, hb₁, hparams, hk.blank, ht, hr.imp_right ?_⟩
    rintro ⟨m, hm, hr⟩
    have hlen' := hm.length
    refine ⟨m, hm, ?_⟩
    rcases hr with hr | ⟨e, m₄, he, hr⟩
    · exact .inl ((runsOut_enclosed hx (by omega)).mp hr)
    · obtain ⟨gap₃, body, gap₄, ending, ht₄, hb₃, hb₄, hspells⟩ :=
        (enclosed_iff hx.exact (by omega) (by decide) (by decide)).mp he
      have hlen₄ := ht₄.length
      obtain ⟨gap₅, l, hl, hb₅, he⟩ := (runsOut_entryEnd (by omega)).mp hr
      exact .inr ⟨gap₃, body, gap₄, gap₅, e, ending, l, hb₃, hspells, hb₄, hb₅, ht₄.trans hl, he⟩
  · rintro ⟨gap₁, params, gap₂, ids, k, hb₁, hparams, hb₂, ht, hr⟩
    have hlen := ht.length
    have hfresh : NextNot isBlank k.rest := by
      rcases hr with ⟨hrest, -⟩ | ⟨m, hm, -⟩
      · rw [hrest]
        exact nextNot_nil _
      · exact nextNot_of_head? hm.head (by decide)
    obtain ⟨m₁, ht₁, hk⟩ := Input.takes_append.mp ht
    refine ⟨ids, m₁, (parameters_iff hi hp).mpr ⟨gap₁, params, ht₁, hb₁, hparams⟩, gap₂, k,
      ⟨hk, hb₂, hfresh⟩, hr.imp_right ?_⟩
    rintro ⟨m, hm, hr⟩
    have hlen' := hm.length
    refine ⟨m, hm, ?_⟩
    rcases hr with he | ⟨gap₃, body, gap₄, gap₅, e, ending, l, hb₃, hspells, hb₄, hb₅, hl, he⟩
    · exact .inl ((runsOut_enclosed hx (by omega)).mpr he)
    · obtain ⟨m₄, ht₄, hl⟩ := Input.takes_append.mp hl
      have hlen₄ := ht₄.length
      exact .inr ⟨e, m₄, (enclosed_iff hx.exact (by omega) (by decide) (by decide)).mpr
        ⟨gap₃, body, gap₄, ending, ht₄, hb₃, hb₄, hspells⟩,
        (runsOut_entryEnd (by omega)).mpr ⟨gap₅, l, hl, hb₅, he⟩⟩

/-! ### Entries -/

/-- What is behind `<` and the name of an entry is told by the character that comes next. -/
theorem runsOut_behindName_cases {start : Nat} {id : Ident} :
    RunsOut (behindName bound n start id) i h ↔
      (i.rest.head? = some '(' ∧ RunsOut (macroDef bound n start id) i h) ∨
        (i.rest.head? = some '[' ∧ (RunsOut (expressions (expression bound) bound n .index) i h ∨
          ∃ index m, expressions (expression bound) bound n .index i = .ok index m ∧
            RunsOut (entity bound n start id (some index)) m h)) ∨
        (i.rest.head? ≠ some '(' ∧ i.rest.head? ≠ some '[' ∧
          RunsOut (entity bound n start id none) i h) := by
  rw [behindName, runsOut_peek?_bind]
  by_cases hp : i.rest.head? = some '('
  · simp [hp, runsOut_map]
  · by_cases hb : i.rest.head? = some '['
    · simp [hb, runsOut_bind (x := expressions _ _ _ _), runsOut_map]
    · simp only [hp, hb, false_and, false_or, ne_eq, not_false_eq_true, true_and]
      exact runsOut_map

theorem runsOut_behindName (hi : i.rest.length < bound + 1) {ending : Ending}
    (hn : NextNot ending.continues i.rest) {start : Nat} {id : Ident} :
    RunsOut (behindName (bound + 1) n start id) i h ↔ i.EndsBehindName ending n h := by
  have hx := exactAtEnd_inner bound
  rw [runsOut_behindName_cases]
  constructor
  · rintro (⟨hp, hr⟩ | ⟨hb, hr | ⟨es, l, hindex, hr⟩⟩ | ⟨-, hb, hr⟩)
    · exact .inr (.inr ((runsOut_macroDef hi hp).mp hr))
    · exact .inl ((runsOut_expressions .index hx rfl hi hb).mp hr)
    · obtain ⟨gap, items, hl, hb₁, hitems⟩ := (expressions_iff hx.exact rfl hi hb).mp hindex
      have hlen := hl.length
      exact .inr (.inl ⟨_, some es, l, .some hb₁ hitems rfl, hl, fun hes => absurd hes (by simp),
        (runsOut_entity (by omega)).mp hr⟩)
    · refine .inr (.inl ⟨[], none, i, .none, .refl i, fun _ c hc => ?_, (runsOut_entity hi).mp hr⟩)
      have hcb : c ≠ '[' := fun hcb => hb (hcb ▸ hc)
      simp [hn c hc, hcb]
  · rintro (⟨gap, l, h', hl, hb, he, rfl⟩ | ⟨index, es, l, hindex, hl, hnext, he⟩ | he)
    · exact .inr (.inl ⟨hl.head, .inl ((runsOut_expressions .index hx rfl hi hl.head).mpr
        ⟨gap, l, h', hl, hb, he, rfl⟩)⟩)
    · have hlen := hl.length
      have hr {es : Option (List Expr)} : RunsOut (entity (bound + 1) n start id es) l h :=
        (runsOut_entity (by omega)).mpr he
      cases hindex with
      | none =>
        obtain rfl := Input.takes_nil.mp hl
        exact .inr (.inr ⟨he.head?_ne, fun hb => absurd (hnext rfl _ hb) (by simp), hr⟩)
      | @some gap items _ es hb₁ hitems htext =>
        rw [htext] at hl
        have hhead : i.rest.head? = some '[' := by
          rw [hl.rest]
          rfl
        exact .inr (.inl ⟨hhead, .inr ⟨es, l, (expressions_iff hx.exact rfl hi hhead).mpr
          ⟨gap, items, hl, hb₁, hitems⟩, hr⟩⟩)
    · exact .inl ⟨he.head, (runsOut_macroDef hi he.head).mpr he⟩

/-- An entry is read where something is left. -/
theorem runsOut_entry (hi : i.rest.length < bound + 1) (hne : i.rest ≠ []) :
    RunsOut (entry (bound + 1) n) i h ↔ i.BreaksOff (UnfinishedEntry n) h := by
  have hrun : entry (bound + 1) n = offset >>= fun start => looksAt ['/', '*'] >>= fun comment =>
      if comment = true then fail .unsupportedConstruct ⟨start, start + 2⟩ (some .comment) none
      else eat '<' >>= fun opened =>
        if opened = true then ident >>= fun id => behindName (bound + 1) n start id
        else unexpected .unexpectedEntryStart := rfl
  simp only [hrun, runsOut_offset_bind, runsOut_looksAt_bind, runsOut_ite,
    not_runsOut_fail .unsupportedConstruct (by decide), and_false, false_or, runsOut_eat_bind, true_and,
    runsOut_unexpected .unexpectedEntryStart (by decide), hne, false_and, or_false, not_true_eq_false,
    Bool.false_eq_true, not_false_eq_true, runsOut_bind (x := ident), runsOut_ident,
    Input.breaksOff_entry_iff]
  constructor
  · rintro ⟨-, m, hm, ⟨hname, rfl⟩ | ⟨⟨name, span⟩, k, hid, hr⟩⟩
    · exact .inl ⟨m, hm, hname, rfl⟩
    · obtain ⟨id, ending, hk, hname, -, hn⟩ := ident_eq_ok.mp hid
      have hlt := (hm.trans hk).length_lt (by simp)
      exact .inr ⟨id, name, ending, k, hname, hm.trans hk, (runsOut_behindName (by omega) hn).mp hr⟩
  · intro he
    have hcomment : ∀ {m}, i.Takes ['<'] m → ¬ List.isPrefixOf ['/', '*'] i.rest = true := by
      intro m hm
      rw [hm.rest]
      simp
    rcases he with ⟨m, hm, hname, rfl⟩ | ⟨id, name, ending, k, hname, ht, he⟩
    · exact ⟨hcomment hm, m, hm, .inl ⟨hname, rfl⟩⟩
    · have hlt := ht.length_lt (by simp)
      have hn := he.nextNot hname
      obtain ⟨m, hm, hk⟩ := Input.takes_append.mp ht
      exact ⟨hcomment hm, m, hm, .inr ⟨⟨name, extent m.offset id⟩, k,
        ident_eq_ok.mpr ⟨id, ending, hk, hname, rfl, hn⟩, (runsOut_behindName (by omega) hn).mpr he⟩⟩

/-! ### Bodies -/

/-- By induction on the rounds. -/
theorem runsOut_itemRounds : ∀ {body : Array Item} {i : Input}, i.rest.length < bound + 1 →
    i.rest.length < rounds → (RunsOut (repeatUpTo rounds body (itemRound (bound + 1) n)) i h ↔
      i.BreaksOff (UnfinishedBody n) h) := by
  induction rounds with
  | zero =>
    intro body i _ hr
    omega
  | succ rounds ih =>
    intro body i hi hr
    rw [Input.breaksOff_body_iff]
    simp only [repeatUpTo_itemRound, runsOut_gap_bind, runsOut_peek?_bind, runsOut_ite, not_runsOut_pure,
      and_false, false_or, runsOut_bind (x := entry _ _)]
    constructor
    · rintro ⟨gap, m, hm, hsome, hr | ⟨e, l, he, hr⟩⟩
      · have hlen := hm.takes.length
        have hne : m.rest ≠ [] := fun hnil => hsome (by simp [hnil])
        exact .inl ⟨gap, m, hm.takes, hm.blank, (runsOut_entry (by omega) hne).mp hr⟩
      · have hlen := hm.takes.length
        obtain ⟨text, ht, hspells⟩ := (entry_iff (by omega)).mp he
        rw [hm.takes.offset] at hspells
        have hl := hm.takes.trans ht
        obtain ⟨cs, rfl⟩ := entry_front hspells
        have hlt := hl.length_lt (by simp)
        exact .inr ⟨gap, _, e, l, hm.blank, hspells, hl, (ih (by omega) (by omega)).mp hr⟩
    · rintro (⟨gap, m, hm, hb, he⟩ | ⟨gap, text, e, l, hb, hspells, hl, he⟩)
      · have hlen := hm.length
        have hhead := he.entry_head
        have hne : m.rest ≠ [] := fun hnil => absurd hhead (by simp [hnil])
        exact ⟨gap, m, ⟨hm, hb, nextNot_of_head? hhead (by decide)⟩, by simp [hhead],
          .inl ((runsOut_entry (by omega) hne).mpr he)⟩
      · obtain ⟨cs, rfl⟩ := entry_front hspells
        have hlt := hl.length_lt (by simp)
        obtain ⟨m, hm, ht⟩ := Input.takes_append.mp hl
        have hlen := hm.length
        rw [← hm.offset] at hspells
        exact ⟨gap, m, ⟨hm, hb, nextNot_of_head? ht.head (by decide)⟩, by simp [ht.head],
          .inr ⟨e, l, (entry_iff (by omega)).mpr ⟨_, ht, hspells⟩, (ih (by omega) (by omega)).mpr he⟩⟩

/-- The reader of whole sources runs out of input exactly on unfinished ones. -/
theorem runsOut_resource {limit : Option Nat} {source : List Char} :
    RunsOut (resource limit) (.ofText source) h ↔
      (Input.ofText source).BreaksOff (UnfinishedBody (.outermost limit)) h := by
  have hlen : (Input.ofText source).rest.length < source.length + 1 := Nat.lt_succ_self _
  have hrun : RunsOut (resource limit) (.ofText source) h ↔ RunsOut (do
      let body ← items (source.length + 1) (.outermost limit)
      pure ⟨body, ← spanFrom 0⟩ : Reader Resource) (.ofText source) h := Iff.rfl
  simp only [hrun, runsOut_bind (x := items _ _), runsOut_spanFrom_bind, not_runsOut_pure, and_false,
    exists_false, or_false]
  exact runsOut_itemRounds hlen hlen

end Reader

end LocaleText
