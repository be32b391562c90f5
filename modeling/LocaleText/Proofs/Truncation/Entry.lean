import LocaleText.Proofs.Truncation.Operation

/-!
# Entries that the limit stops at the end

What the limit stops at the end of the source within an entry, it stops on longer sources as well,
behind a clean cut.

* `Bars.entity`, `.macroDef` and `.entry` follow the readers of the grammar
* `Bars.items` is about everything up to the end of a source

Where no level at all is allowed, the limit stops an entity behind its name already. A macro or an
index in its place does not help, since the body or the value would nest as well.
-/

namespace LocaleText

open Filter (atTop Tendsto)

namespace Reader

theorem BarsInner.mono {b b' : Nat} {inner : Nesting → Reader Expr}
    {inner' : Nat → Nesting → Reader Expr} (hle : b ≤ b') (h : BarsInner b' inner inner') :
    BarsInner b inner inner' :=
  ⟨h.toKeepsInner.mono hle, fun n i hi => h.bars n i (by omega), h.stuck⟩

/-- Where no further level is allowed, nothing that nests comes to a result. -/
theorem Refuses.nested {α : Type} {n : Nesting} {limit : Nat} {inner : Nesting → Reader α}
    (h : n.exhausted? = some limit) : Refuses (nested n inner) := by
  intro i hyields
  obtain ⟨_, _, hrun⟩ := hyields
  exact absurd (nested_eq_ok.mp hrun).1 (by simp [h])

namespace Bars

variable {ι κ : Type} {i l : Input} {b : Nat} {n : Nesting} {r : Nat → Nat}

/-! ### Attributes -/

/-- A value is missed at the end, or there is no level for one. -/
theorem stuck_entryValue : Stuck (fun _ : ι => Reader.entryValue (b + 1) n)
    fun (_ : κ) c => Reader.entryValue (c + 1) n := by
  have hvalue : Stuck (fun _ : ι => Reader.value (expression (b + 1)) (b + 1) n)
      fun (_ : κ) c => Reader.value ((fun c => expression (c + 1)) c) (c + 1) n := stuck_value
  exact hvalue

theorem entryValue (hi : i.rest.length < b + 1) :
    Bars (entryValue (b + 1) n) (fun c => Reader.entryValue (c + 1) n) i :=
  value ((barsInner_expression_succ (b + 1)).mono (Nat.le_succ b)) hi

theorem starves_attributeRounds {rounds : Nat} {entries : Attributes} :
    Starves (Reader.repeatUpTo rounds entries (attributeRound b n)) :=
  .repeatUpTo (fun _ => starves_keyed.bind) rounds entries

/-- Behind an attribute, a comma or the end of the entry has to follow. -/
theorem starves_behindAttribute {rounds : Nat} {entries : Attributes} :
    Starves (behindAttribute rounds b n entries) := fun _ => ⟨_, _, rfl, by simp⟩

theorem attributeRounds {rounds : Nat} {entries entries' : Attributes} (hr : Tendsto r atTop atTop)
    (hi : i.rest.length < b + 1) (hrounds : i.rest.length < rounds) :
    Bars (Reader.repeatUpTo rounds entries (attributeRound (b + 1) n))
      (fun c => Reader.repeatUpTo (r c) entries' (attributeRound (c + 1) n)) i := by
  refine repeatUpTo (fun rounds r entries entries' i hi ih => ?_) hr hi hrounds
  simp only [repeatUpTo_attributeRound]
  refine .bind (.keyed_entryValue hi) (keyed (fun m hm => entryValue (by omega)) stuck_entryValue)
    (.quiet fun _ => .blanks_bind starves_behindAttribute.quiet) fun member l hmember _ _ => ?_
  have hlt := keyed_shortens (fun j _ _ hj => (Keeps.entryValue (by omega)).length_le) hmember
  refine blanks_bind (.quiet fun _ => starves_behindAttribute.quiet) fun m hm hne => ?_
  refine .peek?_bind hne ?_
  obtain ⟨c, cs, hc⟩ := List.exists_cons_of_ne_nil hne
  have hhead : m.rest.head? = some c := by rw [hc]; rfl
  rw [hhead]
  by_cases hend : c = '>'
  · subst hend
    exact .pure
  by_cases hcomma : c = ','
  · subst hcomma
    refine .skip_bind hhead fun k hk => ?_
    have hlt' := hk.length_lt (by simp)
    refine blanks_bind (.quiet fun _ => starves_attributeRounds.quiet) fun k' hk' _ => ?_
    exact ih _ _ k' (by omega)
  · simp only [Option.some.injEq, hend, imp_self, hcomma]
    exact of_plain (.unexpected (by simp))

theorem attributes (hi : i.rest.length < b + 1) :
    Bars (attributes (b + 1) n) (fun c => Reader.attributes (c + 1) n) i :=
  attributeRounds (Filter.tendsto_add_atTop_nat 1) hi hi

/-! ### The end of an entry -/

/-- Behind the blanks, attributes or the end of the entry have to follow. -/
theorem starves_behindBlanks : Starves (peek? >>= fun c? =>
    (if c? = some '>' then Pure.pure none else some <$> Reader.attributes b n) >>= fun attrs =>
      Reader.expect '>' .endOfInput >>= fun _ => Pure.pure attrs) := by
  have hattrs : Starves (some <$> Reader.attributes b n) := by
    simp only [map_eq_pure_bind]
    exact starves_attributeRounds.bind
  exact fun o => hattrs.bind o

theorem starves_entryEnd : Starves (Reader.entryEnd b n) := by
  rw [entryEnd_eq]
  exact fun o => starves_behindBlanks o

/-- The end of an entry, where attributes may come. -/
theorem entryEnd (hi : i.rest.length < b + 1) :
    Bars (entryEnd (b + 1) n) (fun c => Reader.entryEnd (c + 1) n) i := by
  simp only [entryEnd_eq]
  have hclose : ∀ attrs : Option Attributes, Plain (Reader.expect '>' .endOfInput >>= fun _ =>
      Pure.pure attrs) := fun _ => .bind (.expect (by simp)) fun _ => .pure
  refine blanks_bind (.quiet fun _ => starves_behindBlanks.quiet) fun l hl hne => ?_
  refine .peek?_bind hne ?_
  by_cases hend : l.rest.head? = some '>'
  · simp only [hend, if_true, pure_bind]
    exact of_plain (hclose _)
  · simp only [hend, if_false]
    refine .bind (.attributes (by omega)) (attributes (by omega)).map
      (.quiet fun _ => .of_plain (hclose _)) fun _ _ _ _ _ => of_plain (hclose _)

/-! ### Entities -/

section Entities

variable {start start' : Nat} {id id' : Ident} {index index' : Option (List Expr)}

/-- By cases on what the limit stops: the value, or the end of the entity. -/
theorem entity (hi : i.rest.length < b + 1) :
    Bars (entity (b + 1) n start id index)
      (fun c => Reader.entity (c + 1) n start' id' index') i := by
  refine .bind (.const fun _ => .gap) (of_plain .gap) stuck_entryValue.bind.firm
    fun before l _ hl _ => ?_
  refine .bind (.entryValue (by omega)) (entryValue (by omega))
    (.quiet fun _ => .gap_bind fun _ => starves_entryEnd.bind.quiet) fun value m _ hm _ => ?_
  refine .bind (.const fun _ => .gap) (of_plain .gap) (.quiet fun _ => starves_entryEnd.bind.quiet)
    fun behind k _ hk _ => ?_
  exact (entryEnd (by omega)).bind_still fun _ _ => ⟨_, _, rfl⟩

end Entities

/-! ### Macros -/

section Macros

variable {start start' : Nat} {id id' : Ident}

theorem macroDef (hi : i.rest.length < b + 1) (hc : i.rest.head? = some '(') :
    Bars (macroDef (b + 1) n start id) (fun c => Reader.macroDef (c + 1) n start' id') i := by
  have hinner := barsInner_expression_succ (b + 1)
  refine .bind (.parameters hi hc) (of_plain .parameters)
    (.quiet fun _ => .blanks_bind Starves.expect.bind.quiet) fun params l _ hl _ => ?_
  refine blanks_bind (.quiet fun _ => Starves.expect.bind.quiet) fun m hm _ => ?_
  refine .bind (.const fun _ => .expect (by decide)) (of_plain (.expect (by simp)))
    (stuck_enclosed hinner).bind.firm fun _ k _ hk _ => ?_
  refine .bind (.body (by omega)) (enclosed hinner (by omega))
    (.quiet fun _ => starves_entryEnd.bind.quiet) fun body k' _ hk' _ => ?_
  exact (entryEnd (by omega)).bind_still fun _ _ => ⟨_, _, rfl⟩

end Macros

/-! ### Entries -/

section Entries

variable {start start' : Nat} {id id' : Ident} {index : Option (List Expr)}

/-- Without a level no entity is read, since its value needs one. -/
theorem refuses_entity {limit : Nat} (h : n.exhausted? = some limit) :
    Refuses (Entry.entity <$> Reader.entity b n start id index) := by
  have hvalue : Refuses (Reader.entryValue b n) := by
    simp only [Reader.entryValue, Reader.value]
    exact .nested h
  simp only [map_eq_pure_bind]
  exact .bind (.bind_right fun _ => hvalue.bind)

theorem starves_entity (h : n.exhausted? = none) :
    Starves (Entry.entity <$> Reader.entity b n start id index) := by
  have hvalue : Starves (Reader.entryValue b n) := by
    simp only [Reader.entryValue, Reader.value, Reader.nested, h]
    exact fun o => ⟨_, _, rfl, by simp⟩
  simp only [map_eq_pure_bind]
  exact Starves.bind fun o => hvalue.bind o

/-- The value of an entity nests, whatever the index is. -/
theorem stuck_entity (f : ι → Ident) (g : κ → Ident) (s : ι → Option (List Expr))
    (t : κ → Option (List Expr)) :
    Stuck (fun a => Entry.entity <$> Reader.entity b n start (f a) (s a))
      fun a c => Entry.entity <$> Reader.entity (c + 1) n start' (g a) (t a) := by
  cases h : n.exhausted? with
  | some limit => exact .inr (.of_forall fun c a => refuses_entity h)
  | none => exact .inl fun a => starves_entity h

/-- Whatever comes behind a name, a value or a body follows, which nests. -/
theorem refuses_behindName {limit : Nat} (h : n.exhausted? = some limit) :
    Refuses (behindName b n start id) := by
  have hmacro : Refuses (Entry.macroDef <$> Reader.macroDef b n start id) := by
    have hbody : Refuses (Reader.expression b n) := by
      cases b with
      | zero =>
        intro i hyields
        obtain ⟨_, _, hrun⟩ := hyields
        exact unexpected_ne_ok hrun
      | succ b => exact .nested h
    simp only [map_eq_pure_bind]
    exact .bind (.bind_right fun _ => .bind_right fun _ => .bind_right fun _ =>
      .bind (.bind_right fun _ => .bind hbody))
  refine .bind_right fun c? => ?_
  split
  · exact hmacro
  · exact .bind_right fun _ => refuses_entity h
  · exact refuses_entity h

theorem stuck_behindName (f : ι → Ident) (g : κ → Ident) :
    Stuck (fun a => behindName (b + 1) n start (f a))
      fun a c => behindName (c + 1) n start' (g a) := by
  cases h : n.exhausted? with
  | some limit => exact .inr (.of_forall fun c a => refuses_behindName h)
  | none =>
    have hentity : ∀ a, Starves (Entry.entity <$> Reader.entity (b + 1) n start (f a) none) :=
      fun a => starves_entity h
    exact .inl fun a o => hentity a o

/-- By cases on what comes behind the name. -/
theorem bars_behindName (hi : i.rest.length < b + 1) (hne : i.rest ≠ []) :
    Bars (behindName (b + 1) n start id) (fun c => behindName (c + 1) n start' id') i := by
  have hplain : Bars (Reader.entity (b + 1) n start id none)
      (fun c => Reader.entity (c + 1) n start' id' none) i := entity hi
  refine .peek?_bind hne ?_
  obtain ⟨c, cs, hc⟩ := List.exists_cons_of_ne_nil hne
  have hhead : i.rest.head? = some c := by rw [hc]; rfl
  rw [hhead]
  by_cases hround : c = '('
  · subst hround
    exact (macroDef hi hhead).map
  by_cases hsquare : c = '['
  · subst hsquare
    have hinner := (barsInner_expression_succ (b + 1)).mono (Nat.le_succ b)
    exact .bind (.index hi hhead) (expressions hinner hi hhead) (stuck_entity _ _ _ _).firm
      fun index l _ hl _ => (entity (by omega)).map
  · simpa [hround, hsquare] using hplain.map

end Entries

theorem starves_entry : Starves (Reader.entry b n) := fun _ => ⟨_, _, rfl, by simp⟩

/-- By what comes behind the name of the entry. -/
theorem entry (hi : i.rest.length < b + 1) :
    Bars (entry (b + 1) n) (fun c => Reader.entry (c + 1) n) i := by
  by_cases hne : i.rest = []
  · exact of_quiet hne starves_entry.quiet
  by_cases hslash : i.rest.head? = some '/'
  · obtain ⟨rest, hrest⟩ := List.head?_eq_some_iff.mp hslash
    have herror : Reader.entry (b + 1) n i = _ := Carries.entry_of_slash hrest
    refine of_not fun hstops => ?_
    obtain ⟨e, m, hrun, hk, -⟩ := hstops
    rw [herror] at hrun
    split at hrun
    all_goals
      obtain ⟨rfl, -⟩ : _ = e ∧ i = m := by simpa using hrun
      exact absurd hk (by simp)
  refine .offset_bind (.looksAt_bind (fun more _ => ?_) ?_)
  · have hhead := Input.head?_append hne more
    rw [isPrefixOf_of_head?_ne hslash, isPrefixOf_of_head?_ne (hhead ▸ hslash)]
  rw [isPrefixOf_of_head?_ne hslash]
  refine .eat_bind hne (fun l hl => ?_) fun _ => of_plain (.unexpected (by simp))
  have hlt := hl.length_lt (by simp)
  refine .bind (.const fun _ => .ident) (of_plain .ident) (stuck_behindName _ _).firm
    fun id m _ hm hne => ?_
  exact bars_behindName (by omega) hne

/-! ### Bodies -/

/-- No entry has to follow. -/
theorem quiet_itemRounds {rounds : Nat} {body : Array Item} :
    Quiet (Reader.repeatUpTo rounds body (itemRound b n)) := by
  cases rounds with
  | zero => exact Starves.unexpected.quiet
  | succ rounds =>
    intro o hstops
    obtain ⟨e, m, hrun, -⟩ := hstops
    have hok : ∃ items, Reader.repeatUpTo (rounds + 1) body (itemRound b n) ⟨o, []⟩ =
        .ok items ⟨o, []⟩ := ⟨_, rfl⟩
    obtain ⟨items, hok⟩ := hok
    exact absurd (hok.symm.trans hrun) (by simp)

theorem itemRounds {rounds : Nat} {body body' : Array Item} (hr : Tendsto r atTop atTop)
    (hi : i.rest.length < b + 1) (hrounds : i.rest.length < rounds) :
    Bars (Reader.repeatUpTo rounds body (itemRound (b + 1) n))
      (fun c => Reader.repeatUpTo (r c) body' (itemRound (c + 1) n)) i := by
  refine repeatUpTo (fun rounds r body body' i hi ih => ?_) hr hi hrounds
  simp only [repeatUpTo_itemRound]
  refine .bind (.const fun _ => .gap) (of_plain .gap) ?_ fun blank l _ hl hne => ?_
  · refine .quiet fun blank o hstops => ?_
    obtain ⟨e, m, hrun, -⟩ := hstops
    exact absurd hrun (by simp [Reader.peek?_bind, Pure.pure, EStateM.pure])
  refine .peek?_bind hne (.ite (fun _ => .pure) fun _ => ?_)
  refine .bind (.entry (by omega)) (entry (by omega)) (.quiet fun _ => quiet_itemRounds)
    fun e m hentry _ _ => ?_
  have hlt := entry_shortens (by omega) hentry
  exact ih _ _ m (by omega)

/-- Only the last entry of a source can be stopped at the end. -/
theorem items (hi : i.rest.length < b + 1) :
    Bars (items (b + 1) n) (fun c => Reader.items (c + 1) n) i :=
  itemRounds (Filter.tendsto_add_atTop_nat 1) hi hi

end Bars

end Reader

end LocaleText
