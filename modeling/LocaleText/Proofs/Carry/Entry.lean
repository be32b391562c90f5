import LocaleText.Proofs.Carry.Expr
import LocaleText.Proofs.Reading.Entry

/-!
# Entries and bodies elsewhere

Entries are read elsewhere as they are read here, and so are the entries and blanks up to the end of
a source.

* `Carries.entryEnd`, `.entity`, `.macroDef` and `.entry` follow the readers of the grammar
* `Carries.items` is about everything up to the end of a source
-/

namespace LocaleText

namespace Reader

namespace Carries

variable {i : Input} {c : Char} {b bound k : Nat} {n : Nesting}

/-- Where `c` comes next, the fault for another character does not matter. -/
theorem expect_of_head {kind : FaultKind} (hc : i.rest.head? = some c) :
    Carries bound k id (Reader.expect c kind) (Reader.expect c kind) i := by
  have h : Carries bound k id (skip >>= fun _ => Pure.pure ()) (skip >>= fun _ => Pure.pure ()) i :=
    (skip_bind hc fun _ _ => .pure rfl).mono (Nat.le_succ bound)
  exact h.of_eq (eat_bind_of_head hc) fun j _ hj => eat_bind_of_head (hj ▸ hc)

/-! ### Attributes -/

theorem entryValue (hi : i.rest.length < b + 1) :
    Carries (bound + 1) k (Value.shift k) (entryValue (b + 1) n) (Reader.entryValue (bound + 1) n) i := by
  refine value (exact_inner b) (fun n j hj => ?_) hi
  exact (expression n j (Nat.lt_succ_of_lt hj)).mono (Nat.le_succ bound)

theorem attributeRound (hi : i.rest.length < b + 1) {entries : Attributes} :
    Carries (bound + 1) k (mapRound (Attributes.shift k) (Attributes.shift k))
      (attributeRound (b + 1) n entries)
      (Reader.attributeRound (bound + 1) n (Attributes.shift k entries)) i := by
  refine (keyed fun l hl => entryValue (by omega)).bind fun member _ _ _ => ?_
  obtain ⟨key, item⟩ := member
  refine blanks.bind fun _ l _ _ => ?_
  refine .peek?_bind ?_
  cases hc : l.rest.head? with
  | none => exact .unexpected (by decide)
  | some c =>
    by_cases hend : c = '>'
    · subst hend
      exact .pure (by simp only [mapRound, Attributes.shift_insert]; rfl)
    by_cases hcomma : c = ','
    · subst hcomma
      refine (skip_bind hc fun m _ => ?_).mono (Nat.le_succ _)
      refine blanks.bind fun _ _ _ _ => ?_
      exact .pure (by simp only [mapRound, Attributes.shift_insert]; rfl)
    · simp only [Option.some.injEq, hend, imp_self, hcomma]
      exact .unexpected (by decide)

/-- All attributes, in rounds. -/
theorem attributes (hi : i.rest.length < b + 1) :
    Carries (bound + 1) k (Attributes.shift k) (Reader.attributes (b + 1) n)
      (Reader.attributes (bound + 1) n) i := by
  have hnil : Attributes.shift k [] = [] := rfl
  rw [Reader.attributes, Reader.attributes, ← hnil]
  exact repeatUpTo shortens_attributeRound (fun _ _ hj => attributeRound hj) hi hi (Nat.le_refl _)
    (Nat.le_refl _)

/-- By cases on whether there are attributes. They end before the closer of the entry. -/
theorem entryEnd (hi : i.rest.length < b + 1) :
    Carries (bound + 1) k (Option.map (Attributes.shift k)) (entryEnd (b + 1) n)
      (Reader.entryEnd (bound + 1) n) i := by
  refine blanks.bind fun _ l _ _ => ?_
  refine .peek?_bind ?_
  by_cases hend : l.rest.head? = some '>'
  · rw [if_pos hend, if_pos hend]
    refine (expect_of_head hend).bind fun _ _ _ _ => ?_
    exact .pure rfl
  · rw [if_neg hend, if_neg hend]
    refine .bind (f := Option.map (Attributes.shift k))
      ((attributes (by omega)).map fun _ => rfl) fun attrs m hattrs _ => ?_
    obtain ⟨_, hattrs, _⟩ := map_eq_ok.mp hattrs
    obtain ⟨_, _, _, hnext, _⟩ := attributes_of_rounds (Rounds.of_repeatUpTo hattrs) (by omega)
    refine (expect_of_head hnext).bind fun _ _ _ _ => ?_
    exact .pure rfl

/-! ### Entities and macros -/

theorem entity {start : Nat} {id : Ident} {index : Option (List Expr)} (hi : i.rest.length < b + 1) :
    Carries (bound + 1) k (Entity.shift k) (entity (b + 1) n start id index)
      (Reader.entity (bound + 1) n (start + k) (id.shift k) (index.map (shiftItems k))) i := by
  refine gap.bind fun before _ _ _ => ?_
  refine (entryValue (by omega)).bind fun value _ _ _ => ?_
  refine gap.bind fun behind _ _ _ => ?_
  refine (entryEnd (by omega)).bind fun attrs _ _ _ => ?_
  exact .spanFrom_bind (.pure rfl)

theorem parameterRound {params : Array Ident} :
    Carries bound k (mapRound (Array.map (Ident.shift k)) (List.map (Ident.shift k)))
      (parameterRound params) (Reader.parameterRound (params.map (Ident.shift k))) i := by
  refine eat.bind fun _ _ _ _ => .ite (fun _ => .pure (by simp [mapRound])) fun _ => ?_
  refine (expect (by decide)).bind fun _ _ _ _ => ?_
  refine ident.bind fun param _ _ _ => ?_
  refine blanks.bind fun _ l _ _ => ?_
  refine .peek?_bind ?_
  cases hc : l.rest.head? with
  | none => exact .unexpected (by decide)
  | some c =>
    by_cases hcomma : c = ','
    · subst hcomma
      refine (skip_bind hc fun m _ => ?_).mono (Nat.le_succ _)
      refine blanks.bind fun _ _ _ _ => ?_
      exact .pure (by simp [mapRound])
    by_cases hround : c = ')'
    · subst hround
      exact .pure (by simp [mapRound])
    · simp only [Option.some.injEq, hcomma, imp_self, hround]
      exact .unexpected (by decide)

theorem parameters (hi : i.rest.length < b + 1) (hc : i.rest.head? = some '(') :
    Carries (bound + 1) k (List.map (Ident.shift k)) (parameters (b + 1))
      (Reader.parameters (bound + 1)) i := by
  refine skip_bind hc fun l hl => ?_
  have hlen := hl.length_lt (by simp)
  refine blanks.bind fun _ m _ _ => ?_
  have hshortens : Shortens (b + 1) Reader.parameterRound := shortens_parameterRound
  have hrounds : Carries bound k (List.map (Ident.shift k))
      (Reader.repeatUpTo (b + 1) #[] Reader.parameterRound)
      (Reader.repeatUpTo (bound + 1) (Array.map (Ident.shift k) #[]) Reader.parameterRound) m :=
    repeatUpTo hshortens (fun _ _ _ => parameterRound)
      (by omega) (by omega) (Nat.le_succ bound) (Nat.le_refl bound)
  rwa [Array.map_empty] at hrounds

/-- A macro behind its name, up to the end of the entry. -/
theorem macroDef {start : Nat} {id : Ident} (hi : i.rest.length < b + 1)
    (hc : i.rest.head? = some '(') :
    Carries (bound + 1) k (Macro.shift k) (macroDef (b + 1) n start id)
      (Reader.macroDef (bound + 1) n (start + k) (id.shift k)) i := by
  refine (parameters hi hc).bind fun params _ _ _ => ?_
  refine blanks.bind fun _ _ _ _ => ?_
  refine (expect (by decide)).bind fun _ l _ _ => ?_
  refine (enclosed (b := b + 1) expression (by omega)).bind fun body _ _ _ => ?_
  refine (entryEnd (by omega)).bind fun attrs _ _ _ => ?_
  exact .spanFrom_bind (.pure rfl)

/-! ### Entries -/

/-- A slash begins a comment or nothing. -/
theorem entry_of_slash {rest : List Char} (hi : i.rest = '/' :: rest) : Reader.entry bound n i =
    if rest.head? = some '*' then
      .error ⟨.unsupportedConstruct, ⟨i.offset, i.offset + 2⟩, some .comment, none⟩ i
    else .error ⟨.unexpectedEntryStart, i.here, some (.found '/'), none⟩ i := by
  have hp : ['/', '*'].isPrefixOf i.rest = (rest.head? == some '*') := by
    rw [hi, List.isPrefixOf_cons_cons, isPrefixOf_singleton]
    rfl
  rw [Reader.entry, Reader.offset_bind, Reader.looksAt_bind, hp]
  by_cases hstar : rest.head? = some '*'
  · rw [if_pos hstar, if_pos (by rw [hstar]; rfl)]
    rfl
  · rw [if_neg hstar, if_neg (by simpa using hstar)]
    have heat : Reader.eat '<' i = .ok false i := eat_eq_ok.mpr (.inr ⟨by simp [hi], rfl, rfl⟩)
    show EStateM.bind _ _ i = _
    rw [EStateM.bind, heat]
    simp [Reader.unexpected, hi]

/-- By cases on the character behind the slash. Nothing that follows mends it. -/
theorem slash {rest : List Char} (hi : i.rest = '/' :: rest) :
    Carries bound k (Entry.shift k) (Reader.entry b n) (Reader.entry bound n) i := by
  have hnot : ∀ rest' e l, Reader.entry bound n ⟨i.offset + k, '/' :: rest'⟩ ≠ .ok e l := by
    intro rest' e l
    rw [entry_of_slash rfl]
    split <;> simp
  by_cases hstar : rest.head? = some '*'
  · obtain ⟨rest, rfl⟩ := List.head?_eq_some_iff.mp hstar
    refine of_settled ['/', '*'] ((entry_of_slash hi).trans (if_pos rfl)) hi (by simp)
      ⟨by simp, by simp⟩ (by simp) rfl (fun rest' _ => ⟨⟨i.offset + k, ['/', '*'] ++ rest'⟩, ?_⟩)
      fun rest' => hnot _
    have hnext : (['*'] ++ rest').head? = some '*' := rfl
    rw [List.cons_append, entry_of_slash rfl, if_pos hnext]
    simp only [Fault.shift, Span.shift, Nat.add_right_comm, Option.map_none]
  · have hhere : i.here = ⟨i.offset, i.offset + '/'.utf8Size⟩ := by
      rw [Input.here, hi]
    refine of_settled ['/'] ((entry_of_slash hi).trans (if_neg hstar)) hi (by simp)
      ⟨?_, by simp⟩ (by simp) ?_ (fun rest' hr => ⟨⟨i.offset + k, ['/'] ++ rest'⟩, ?_⟩)
      fun rest' => hnot _
    · rw [hhere]
      exact Nat.lt_add_of_pos_right ('/'.utf8Size_pos)
    · rw [hhere]
      rfl
    · rw [List.cons_append, entry_of_slash rfl, List.nil_append, if_neg (hr ▸ hstar),
        here_shift (i := i) rfl (by rw [hi]; rfl)]
      rfl

/-- An entry is told to be an entity or a macro by the character behind its name. -/
theorem entry (hi : i.rest.length < b + 1) :
    Carries (bound + 1) k (Entry.shift k) (entry (b + 1) n) (Reader.entry (bound + 1) n) i := by
  by_cases hslash : i.rest.head? = some '/'
  · obtain ⟨rest, hrest⟩ := List.head?_eq_some_iff.mp hslash
    exact slash hrest
  refine .offset_bind (.looksAt_bind (fun rest hr => ?_) ?_)
  · rw [isPrefixOf_of_head?_ne hslash, isPrefixOf_of_head?_ne (hr ▸ hslash)]
  rw [isPrefixOf_of_head?_ne hslash]
  refine eat_bind (fun l hl => ?_) fun _ => .unexpected (by decide)
  have hlen := hl.length_lt (by simp)
  refine ident.bind fun id m _ _ => ?_
  refine .peek?_bind ?_
  have hentity : ∀ (index : Option (List Expr)) (j : Input), j.rest.length < b + 1 →
      Carries (bound + 1) k (Entry.shift k) (Entry.entity <$> Reader.entity (b + 1) n i.offset id index)
        (Entry.entity <$> Reader.entity (bound + 1) n (i.offset + k) (id.shift k)
          (index.map (shiftItems k))) j :=
    fun index j hj => (entity hj).map fun _ => rfl
  have hplain := (hentity none m (by omega)).mono (Nat.le_succ bound)
  cases hc : m.rest.head? with
  | none => exact hplain
  | some c =>
    by_cases hround : c = '('
    · subst hround
      have hmacro : Carries (bound + 1) k (Entry.shift k)
          (Entry.macroDef <$> Reader.macroDef (b + 1) n i.offset id)
          (Entry.macroDef <$> Reader.macroDef (bound + 1) n (i.offset + k) (id.shift k)) m :=
        (macroDef (by omega) hc).map fun _ => rfl
      exact hmacro.mono (Nat.le_succ bound)
    by_cases hsquare : c = '['
    · subst hsquare
      refine Carries.mono (Nat.le_succ bound) ?_
      have hinner : CarriesInner b bound k (Reader.expression (b + 1)) (Reader.expression (bound + 1)) :=
        fun n j hj => (expression n j (Nat.lt_succ_of_lt hj)).mono (Nat.le_succ bound)
      refine (expressions (exact_inner b) hinner rfl (by omega) hc).bind fun index m' _ _ => ?_
      exact hentity (some index) m' (by omega)
    · simpa [hround, hsquare] using hplain

/-! ### Bodies -/

theorem itemRound (hi : i.rest.length < b + 1) {body : Array Item} :
    Carries (bound + 1) k (mapRound (Array.map (Item.shift k)) (List.map (Item.shift k)))
      (itemRound (b + 1) n body)
      (Reader.itemRound (bound + 1) n (body.map (Item.shift k))) i := by
  refine gap.bind fun blank l _ _ => ?_
  have hbody : (if (blank.shift k).text.isEmpty then body.map (Item.shift k)
      else (body.map (Item.shift k)).push (.gap (blank.shift k))) =
      (if blank.text.isEmpty then body else body.push (.gap blank)).map (Item.shift k) := by
    show (if blank.text.isEmpty then _ else _) = _
    split
    · rfl
    · rw [Array.map_push]
      rfl
  rw [hbody]
  refine .peek?_bind (.ite (fun _ => .pure (by simp [mapRound])) fun _ => ?_)
  refine (entry (by omega)).bind fun e _ _ _ => ?_
  exact .pure (by simp [mapRound, Item.shift])

/-- The readers may be bounded by different numbers of rounds. -/
theorem itemRounds {bound' rounds : Nat} (hi : i.rest.length < b + 1) (hr : bound' ≤ rounds)
    (hb : bound' ≤ bound + 1) :
    Carries bound' k (List.map (Item.shift k)) (items (b + 1) n)
      (Reader.repeatUpTo rounds #[] (Reader.itemRound (bound + 1) n)) i := by
  have hrounds : Carries bound' k (List.map (Item.shift k))
      (Reader.repeatUpTo (b + 1) #[] (Reader.itemRound (b + 1) n))
      (Reader.repeatUpTo rounds (Array.map (Item.shift k) #[])
        (Reader.itemRound (bound + 1) n)) i :=
    repeatUpTo shortens_itemRound (fun _ _ hj => itemRound hj) hi hi hr hb
  rwa [Array.map_empty] at hrounds

/-- Everything up to the end of the source. -/
theorem items (hi : i.rest.length < b + 1) :
    Carries (bound + 1) k (List.map (Item.shift k)) (items (b + 1) n)
      (Reader.items (bound + 1) n) i :=
  itemRounds hi (Nat.le_refl _) (Nat.le_refl _)

end Carries

end Reader

end LocaleText
